import WireLayout.Batch.Call
import WireLayout.Batch.Run
import WireLayout.Blake3
import WireLayout.Bundle
import WireLayout.Catalog.Basic
import WireLayout.Catalog.Canonical
import WireLayout.Catalog.Extraction
import WireLayout.Catalog.Merge
import WireLayout.Command.Failure
import WireLayout.Command.Help
import WireLayout.Command.Options
import WireLayout.Command.Run
import WireLayout.Entity
import WireLayout.Error
import WireLayout.FieldList
import WireLayout.FileTree.Basic
import WireLayout.FileTree.Change
import WireLayout.FileTree.Walk
import WireLayout.Inference
import WireLayout.Java.Bracket
import WireLayout.Java.Declaration
import WireLayout.Java.Header
import WireLayout.Java.Mask
import WireLayout.Java.Member
import WireLayout.Java.Pieces
import WireLayout.Java.Positions
import WireLayout.Java.Preamble
import WireLayout.Java.Segment
import WireLayout.Java.SourceReader
import WireLayout.Java.TypeReader
import WireLayout.Json.Basic
import WireLayout.Json.Binary64
import WireLayout.Json.Parser
import WireLayout.Json.Printer
import WireLayout.Layout.Basic
import WireLayout.Layout.Constants
import WireLayout.Layout.Encoding
import WireLayout.Layout.IntLiteral
import WireLayout.Layout.Json
import WireLayout.Layout.Validity
import WireLayout.Main
import WireLayout.Oracle.Answer
import WireLayout.Oracle.Messages
import WireLayout.Oracle.Request
import WireLayout.OsError
import WireLayout.Pipeline
import WireLayout.Proofs.Batch.Run
import WireLayout.Proofs.Catalog.Extraction
import WireLayout.Proofs.Except
import WireLayout.Proofs.Independence
import WireLayout.Proofs.Inference
import WireLayout.Proofs.Layout.Coherence
import WireLayout.Proofs.Layout.Validity
import WireLayout.Proofs.Overlay
import WireLayout.Proofs.Pipeline
import WireLayout.Proofs.Routine.Calls
import WireLayout.Proofs.Routine.Facts
import WireLayout.Proofs.Routine.Steps
import WireLayout.Proofs.SortedMap
import WireLayout.Proofs.Text.Chars
import WireLayout.Proofs.Text.Search
import WireLayout.Routine.Call
import WireLayout.Routine.Reading
import WireLayout.Routine.Reader
import WireLayout.Routine.Scan
import WireLayout.Routine.Statement
import WireLayout.Routine.Walk
import WireLayout.SortedMap
import WireLayout.Statistics
import WireLayout.Summary
import WireLayout.Text.Blank
import WireLayout.Text.Case
import WireLayout.Text.CaseTable
import WireLayout.Text.Chars
import WireLayout.Text.Quoted
import WireLayout.Text.Search
import WireLayout.Text.UnprintableTable
import WireLayout.Text.Utf8
import WireLayout.Text.WordTable
import WireLayout.Proofs.Routine.Locals
import WireLayout.Proofs.Routine.Assignments
import WireLayout.Proofs.Routine.Guards
import WireLayout.Proofs.Java.Nesting
import WireLayout.Proofs.Java.Balance
import WireLayout.Proofs.Java.Cuts
import WireLayout.Proofs.Java.Preamble
import WireLayout.Proofs.Layout.Literals
import WireLayout.Proofs.Routine.Statements
import WireLayout.Proofs.Routine.Expressions
import WireLayout.Proofs.Routine.Canonical
import WireLayout.Proofs.Routine.Rendering
import WireLayout.Proofs.Routine.RoundTrip
import WireLayout.Proofs.Oracle.PresenceBits
import WireLayout.Proofs.Layout.Encoding
import WireLayout.Proofs.Oracle.Writing
import WireLayout.Proofs.Java.TypeReader
import WireLayout.Proofs.Java.Declarators
import WireLayout.Proofs.Java.Header
import WireLayout.Proofs.Java.Clauses
import WireLayout.Proofs.Java.Annotation
import WireLayout.Proofs.Java.Parameters
import WireLayout.Proofs.Catalog.Merge
import WireLayout.Proofs.Java.ClassText
import WireLayout.Proofs.Java.AnnotatedText
import WireLayout.Proofs.Java.Ranges.Refinement
import WireLayout.Proofs.Java.Alike
import WireLayout.Proofs.Java.Comments
import WireLayout.Proofs.Batch.Groups
import WireLayout.Proofs.Catalog.Isolation
import WireLayout.Proofs.Catalog.Order
import WireLayout.Proofs.Command.Packets
import WireLayout.Proofs.Java.CommentMarks
import WireLayout.Proofs.Java.Ranges.Ends
import WireLayout.Proofs.Java.Ranges.Related
import WireLayout.Proofs.Java.Uncommented
import WireLayout.Proofs.Batch.Cancellation
import WireLayout.Proofs.Batch.Outcomes
import WireLayout.Proofs.Routine.FixedBlock
import WireLayout.Proofs.VariableSection
import WireLayout.Proofs.Json.Compact
import WireLayout.Proofs.Layout.Flaws
import WireLayout.Proofs.Catalog.Canonical
import WireLayout.Proofs.Summary
import WireLayout.Proofs.Statistics
import WireLayout.Proofs.Routine.Signature
import WireLayout.Proofs.Routine.Acceptance
import WireLayout.Proofs.Routine.Offers
import WireLayout.Proofs.Routine.FirstReads
import WireLayout.Proofs.Routine.Objects
import WireLayout.Proofs.Routine.Controls
import WireLayout.Proofs.Routine.Guardless
import WireLayout.Proofs.Routine.Braces
import WireLayout.Proofs.Routine.Boundaries
import WireLayout.Proofs.Routine.Words
import WireLayout.Proofs.Oracle.Numbers
import WireLayout.Proofs.FieldList
import WireLayout.Proofs.Text.Words
import WireLayout.Proofs.Layout.IntegerText
import WireLayout.Proofs.Text.WordMatches
import WireLayout.Proofs.Bundle
import WireLayout.Proofs.Java.TypeHeader
import WireLayout.Proofs.Java.EnumText
import WireLayout.Proofs.Java.Supertypes
import WireLayout.Proofs.Layout.Constants
import WireLayout.Proofs.Layout.Numerals
import WireLayout.Proofs.Java.Lexemes
import WireLayout.Proofs.Routine.Ranges.Faults
import WireLayout.Proofs.Java.LineEnds
import WireLayout.Proofs.Java.Ranges.Splitting
