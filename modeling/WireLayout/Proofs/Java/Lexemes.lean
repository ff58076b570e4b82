import WireLayout.Proofs.Java.Comments
import WireLayout.Proofs.Java.Mask
import WireLayout.Proofs.Java.Ranges.Octets

/-! A text as a sequence of lexical elements, and its masked copy: comments and the contents of literals become blanks,
line ends but for escaped ones stay, and so do code and quotes. The mask has one state more for each element than it
has between elements, so the reading of an element does not depend on what stands around it, as long as its end and the
beginning of the next one do not make up another mark. -/

namespace WireLayout.Java

/-- What encloses a part of a text that is no code. -/
inductive Enclosure where
  | lineComment | blockComment | string | character | textBlock
  deriving DecidableEq, Repr

namespace Enclosure

/-- What the mask is inside of between the marks. -/
def region : Enclosure → Region
  | lineComment => .lineComment
  | blockComment => .blockComment
  | string => .string
  | character => .character
  | textBlock => .textBlock

def opening : Enclosure → List Char
  | lineComment => ['/', '/']
  | blockComment => ['/', '*']
  | string => ['"']
  | character => ['\'']
  | textBlock => ['"', '"', '"']

def closing : Enclosure → List Char
  | lineComment => ['\n']
  | blockComment => ['*', '/']
  | string => ['"']
  | character => ['\'']
  | textBlock => ['"', '"', '"']

/-- Literals are shown by their quotes, and a backslash escapes the character behind it. -/
def isLiteral : Enclosure → Bool
  | lineComment | blockComment => false
  | string | character | textBlock => true

def isOneLine : Enclosure → Bool
  | string | character => true
  | lineComment | blockComment | textBlock => false

end Enclosure

/-- A character behind this text is escaped: an odd number of backslashes stands in front of it. -/
def escaped (before : List Char) : Bool := (before.reverse.takeWhile (· = '\\')).length % 2 = 1

/-- The content ends where its enclosure is closed for the first time, escaped marks aside. -/
structure Enclosure.Encloses (e : Enclosure) (content : List Char) : Prop where
  closed : (e.isLiteral && escaped content) = false
  first : ∀ i < content.length, e.closing <+: (content ++ e.closing).drop i →
    (e.isLiteral && escaped (content.take i)) = true
  oneLine : e.isOneLine = true → '\n' ∉ content

/-- A text with all but its line ends blanked, as many octets long; with `escapes` an escaped line end is blanked too.
`before` is the text in front. -/
def blankedBehind (escapes : Bool) (before : List Char) : List Char → List Char
  | [] => []
  | c :: rest =>
    (if c = '\n' && !(escapes && escaped before) then ['\n'] else List.replicate c.utf8Size ' ') ++
      blankedBehind escapes (before ++ [c]) rest

def blanked (escapes : Bool) (text : List Char) : List Char := blankedBehind escapes [] text

/-- What the mask leaves of a mark: the quotes of a literal stay, and so does the line end behind a line comment. -/
def Enclosure.shown (e : Enclosure) (mark : List Char) : List Char := if e.isLiteral then mark else blanked false mark

/-- A lexical element of a source text. -/
inductive Lexeme where
  | code (chunk : List Char)
  | enclosed (e : Enclosure) (content : List Char)
  deriving DecidableEq, Repr

namespace Lexeme

def text : Lexeme → List Char
  | code chunk => chunk
  | enclosed e content => e.opening ++ (content ++ e.closing)

/-- The element with its comment or the content of its literal blanked. -/
def masked : Lexeme → List Char
  | code chunk => chunk
  | enclosed e content => e.shown e.opening ++ (blanked e.isLiteral content ++ e.shown e.closing)

def WellFormed : Lexeme → Prop
  | code chunk => chunk ≠ [] ∧ '"' ∉ chunk ∧ '\'' ∉ chunk ∧ ¬ ['/', '/'] <:+: chunk ∧ ¬ ['/', '*'] <:+: chunk
  | enclosed e content => e.Encloses content

/-- Chunks of code are not next to each other, the end of one does not begin a comment that follows, and no string is
next to another or to a text block. -/
def MayPrecede : Lexeme → Lexeme → Prop
  | code _, code _ => False
  | code chunk, enclosed e _ => e.isLiteral = false → chunk.getLast? ≠ some '/'
  | enclosed .string _, enclosed e _ => e ≠ .string ∧ e ≠ .textBlock
  | enclosed _ _, _ => True

/-- The text behind an element does not continue one of its marks. -/
def EndsBefore (rest : List Char) : Lexeme → Prop
  | code chunk => chunk.getLast? = some '/' → rest.head? ≠ some '/' ∧ rest.head? ≠ some '*'
  | enclosed .string _ => rest.head? ≠ some '"'
  | enclosed _ _ => True

end Lexeme

instance (e : Enclosure) (content : List Char) : Decidable (e.Encloses content) :=
  decidable_of_iff
    ((e.isLiteral && escaped content) = false ∧
      (∀ i < content.length, e.closing <+: (content ++ e.closing).drop i →
        (e.isLiteral && escaped (content.take i)) = true) ∧
      (e.isOneLine = true → '\n' ∉ content))
    ⟨fun ⟨closed, first, oneLine⟩ => ⟨closed, first, oneLine⟩, fun h => ⟨h.closed, h.first, h.oneLine⟩⟩

instance : DecidablePred Lexeme.WellFormed
  | .code _ => inferInstanceAs (Decidable (_ ∧ _))
  | .enclosed e content => inferInstanceAs (Decidable (e.Encloses content))

instance : DecidableRel Lexeme.MayPrecede
  | .code _, .code _ => inferInstanceAs (Decidable False)
  | .code _, .enclosed _ _ => inferInstanceAs (Decidable (_ → _))
  | .enclosed .string _, .enclosed _ _ => inferInstanceAs (Decidable (_ ∧ _))
  | .enclosed .string _, .code _ => inferInstanceAs (Decidable True)
  | .enclosed .lineComment _, _ | .enclosed .blockComment _, _ | .enclosed .character _, _
  | .enclosed .textBlock _, _ => inferInstanceAs (Decidable True)

variable {e : Enclosure} {content before after rest : List Char} {c : Char}

/-! Inside an enclosure. -/

theorem escaped_concat : escaped (before ++ [c]) = (decide (c = '\\') && !escaped before) := by
  simp only [escaped, List.reverse_append, List.reverse_singleton, List.singleton_append, List.takeWhile_cons]
  by_cases hc : c = '\\'
  · simp only [hc, decide_true, if_true, List.length_cons, Bool.true_and]
    generalize (before.reverse.takeWhile _).length = slashes
    rw [Bool.eq_iff_iff]
    simp only [decide_eq_true_eq, Bool.not_eq_true', decide_eq_false_iff_not]
    omega
  · simp [hc]

theorem singleton_prefix {x : Char} : [x] <+: rest ↔ rest.head? = some x := by
  cases rest <;> simp [eq_comm]

theorem prefix_twoQuotes : ['"', '"'] <+: rest ↔ twoQuotes rest = true := by
  rw [twoQuotes_eq_true]
  exact exists_congr fun _ => eq_comm

/-- The state of the mask inside an enclosure, with this text between it and the opening mark. -/
def Enclosure.stateBehind (e : Enclosure) (before : List Char) : MaskState :=
  if e.isLiteral && escaped before then .passing 0 false e.region else .inside e.region

/-- A character inside an enclosure is hidden unless it is an unescaped line end, and the mask stays inside. -/
theorem Enclosure.step_stateBehind (hrest : rest ≠ []) (hline : e.isOneLine = true → c ≠ '\n')
    (hopen : e.closing <+: c :: rest → (e.isLiteral && escaped before) = true) :
    (e.stateBehind before).step c rest =
      (decide (c = '\n') && !(e.isLiteral && escaped before), e.stateBehind (before ++ [c])) := by
  have hempty : rest.isEmpty = false := by simpa using hrest
  rw [stateBehind, stateBehind, escaped_concat]
  cases hescaped : e.isLiteral && escaped before with
  | true =>
    have hlit : e.isLiteral = true ∧ escaped before = true := by simpa using hescaped
    simp [MaskState.step, hlit]
  | false =>
    rw [hescaped] at hopen
    have hnot : ¬ e.closing <+: c :: rest := fun h => absurd (hopen h) (by decide)
    cases e with
    | lineComment =>
      have hc : c ≠ '\n' := by simpa [closing, eq_comm] using hnot
      simp [MaskState.step, isLiteral, region, hc]
    | blockComment =>
      have hc : ¬ (c = '*' ∧ rest.head? = some '/') := by simpa [closing, singleton_prefix, @eq_comm _ '*'] using hnot
      simp [MaskState.step, isLiteral, region, hc]
    | string | character =>
      have hend := hline rfl
      have hquote := hnot
      simp only [closing, List.cons_prefix_cons, List.nil_prefix, and_true] at hquote
      have hescaped : escaped before = false := by simpa [isLiteral] using hescaped
      by_cases hslash : c = '\\' <;>
        simp [MaskState.step, MaskState.step.literal, isLiteral, region, hend, Ne.symm hquote, hempty, hescaped, hslash]
    | textBlock =>
      have hquotes : ¬ (c = '"' ∧ twoQuotes rest = true) := by
        simpa [closing, prefix_twoQuotes, @eq_comm _ '"'] using hnot
      have hescaped : escaped before = false := by simpa [isLiteral] using hescaped
      by_cases hslash : c = '\\' <;> simp [MaskState.step, isLiteral, region, hquotes, hempty, hescaped, hslash]

theorem masked_lineEnd (hidden : Bool) :
    Cell.masked ⟨c, decide (c = '\n') && !hidden⟩ =
      if c = '\n' && !hidden then ['\n'] else List.replicate c.utf8Size ' ' := by
  by_cases hc : c = '\n' <;> simp [Cell.masked, hc]

/-- The mask over the rest of a content, with `before` the part of it in front. -/
theorem Enclosure.maskedText_content (hline : e.isOneLine = true → '\n' ∉ after)
    (hfirst : ∀ i < after.length, e.closing <+: (after ++ e.closing).drop i →
      (e.isLiteral && escaped (before ++ after.take i)) = true) :
    maskedText (cellsFrom (e.stateBehind before) (after ++ (e.closing ++ rest))) =
      blankedBehind e.isLiteral before after ++
        maskedText (cellsFrom (e.stateBehind (before ++ after)) (e.closing ++ rest)) := by
  induction after generalizing before with
  | nil => simp [blankedBehind]
  | cons c after ih =>
    have hne : after ++ (e.closing ++ rest) ≠ [] := by cases e <;> simp [closing]
    have hopen : e.closing <+: c :: (after ++ (e.closing ++ rest)) → (e.isLiteral && escaped before) = true := by
      intro hclose
      have hshort : e.closing <+: c :: (after ++ e.closing) := by
        refine List.prefix_of_prefix_length_le hclose ⟨rest, by simp⟩ ?_
        simp only [List.length_cons, List.length_append]
        omega
      simpa using hfirst 0 (by simp) (by simpa using hshort)
    have hfirst' : ∀ i < after.length, e.closing <+: (after ++ e.closing).drop i →
        (e.isLiteral && escaped ((before ++ [c]) ++ after.take i)) = true := by
      intro i hi hclose
      simpa using hfirst (i + 1) (by simpa using hi) (by simpa using hclose)
    have hlater := ih (fun honeLine h => hline honeLine (List.mem_cons_of_mem c h)) hfirst'
    rw [List.cons_append, cellsFrom, step_stateBehind hne (fun honeLine h => hline honeLine (by simp [h])) hopen,
      maskedText_cons, hlater, masked_lineEnd, blankedBehind]
    simp

/-! Marks, and code. -/

theorem Enclosure.maskedText_closing :
    maskedText (cellsFrom (.inside e.region) (e.closing ++ rest)) =
      e.shown e.closing ++ maskedText (cellsFrom (.inside .code) rest) := by
  cases e <;>
    simp [closing, region, shown, isLiteral, cellsFrom, MaskState.step, MaskState.step.literal, twoQuotes, blanked,
      blankedBehind, maskedText_cons, Cell.masked, ← List.append_assoc, List.replicate_append_replicate]

theorem Enclosure.maskedText_opening (h : e = .string → twoQuotes rest = false) :
    maskedText (cellsFrom (.inside .code) (e.opening ++ rest)) =
      e.shown e.opening ++ maskedText (cellsFrom (.inside e.region) rest) := by
  cases e with
  | string =>
    simp [opening, region, shown, isLiteral, cellsFrom, MaskState.step, h rfl, maskedText_cons, Cell.masked]
  | lineComment | blockComment | character | textBlock =>
    simp [opening, region, shown, isLiteral, cellsFrom, MaskState.step, twoQuotes, blanked, blankedBehind,
      maskedText_cons, Cell.masked, ← List.append_assoc, List.replicate_append_replicate]

/-- The opening mark of a string does not begin a text block. -/
theorem Enclosure.Encloses.not_twoQuotes (h : Enclosure.string.Encloses content) (hrest : rest.head? ≠ some '"') :
    twoQuotes (content ++ ('"' :: rest)) = false := by
  cases content with
  | nil => simp [twoQuotes_cons, hrest]
  | cons c content =>
    have hc : c ≠ '"' := by
      rintro rfl
      have hescaped := h.first 0 (by simp) ⟨content ++ ['"'], rfl⟩
      simp [escaped] at hescaped
    simp [twoQuotes_cons, hc]

/-- A comment or literal is masked as it is, and the mask is in code again. -/
theorem Enclosure.Encloses.maskedText_eq (h : e.Encloses content) (hrest : e = .string → rest.head? ≠ some '"') :
    maskedText (cellsFrom (.inside .code) (e.opening ++ (content ++ (e.closing ++ rest)))) =
      e.shown e.opening ++ (blanked e.isLiteral content ++ e.shown e.closing) ++
        maskedText (cellsFrom (.inside .code) rest) := by
  have hopening : e = .string → twoQuotes (content ++ (e.closing ++ rest)) = false := by
    rintro rfl
    exact h.not_twoQuotes (hrest rfl)
  have hbegin : e.stateBehind [] = .inside e.region := by simp [stateBehind, escaped]
  have hend : e.stateBehind content = .inside e.region := by simp [stateBehind, h.closed]
  have hcontent : maskedText (cellsFrom (e.stateBehind []) (content ++ (e.closing ++ rest))) =
      blanked e.isLiteral content ++ maskedText (cellsFrom (e.stateBehind ([] ++ content)) (e.closing ++ rest)) :=
    maskedText_content h.oneLine (by simpa using h.first)
  rw [hbegin, List.nil_append, hend] at hcontent
  rw [maskedText_opening hopening, hcontent, maskedText_closing]
  simp

/-- A chunk of code is shown, if it does not begin a comment with what follows. -/
theorem maskedText_chunk {chunk : List Char} (hdouble : '"' ∉ chunk) (hsingle : '\'' ∉ chunk)
    (hline : ¬ ['/', '/'] <:+: chunk) (hblock : ¬ ['/', '*'] <:+: chunk)
    (hrest : chunk.getLast? = some '/' → rest.head? ≠ some '/' ∧ rest.head? ≠ some '*') :
    maskedText (cellsFrom (.inside .code) (chunk ++ rest)) = chunk ++ maskedText (cellsFrom (.inside .code) rest) := by
  induction chunk with
  | nil => rfl
  | cons c chunk ih =>
    have hc : c ≠ '"' ∧ c ≠ '\'' := by simp_all [eq_comm]
    have hopen : c = '/' → (chunk ++ rest).head? ≠ some '/' ∧ (chunk ++ rest).head? ≠ some '*' := by
      rintro rfl
      cases chunk with
      | nil => exact hrest rfl
      | cons d chunk =>
        constructor <;> rintro hd
        · exact hline ⟨[], chunk, by simp_all⟩
        · exact hblock ⟨[], chunk, by simp_all⟩
    have hstep : (MaskState.inside .code).step c (chunk ++ rest) = (true, .inside .code) := by
      generalize chunk ++ rest = later at hopen
      by_cases hslash : c = '/' <;> simp_all [MaskState.step]
    have hlater := ih (by simp_all) (by simp_all) (fun h => hline (h.trans (List.suffix_cons c chunk).isInfix))
      (fun h => hblock (h.trans (List.suffix_cons c chunk).isInfix))
      (fun h => hrest (by cases chunk <;> simp_all [List.getLast?_cons_cons]))
    rw [List.cons_append, cellsFrom, hstep, maskedText_cons, hlater]
    rfl

/-! Sequences of elements. -/

variable {l : Lexeme} {ls : List Lexeme}

theorem Lexeme.maskedText_eq (h : l.WellFormed) (hrest : l.EndsBefore rest) :
    maskedText (cellsFrom (.inside .code) (l.text ++ rest)) =
      l.masked ++ maskedText (cellsFrom (.inside .code) rest) := by
  cases l with
  | code chunk =>
    obtain ⟨-, hdouble, hsingle, hline, hblock⟩ := h
    exact maskedText_chunk hdouble hsingle hline hblock hrest
  | enclosed e content =>
    have hquote : e = .string → rest.head? ≠ some '"' := by
      rintro rfl
      exact hrest
    rw [text, List.append_assoc, List.append_assoc]
    exact Enclosure.Encloses.maskedText_eq h hquote

/-- What may follow an element does not continue one of its marks. -/
theorem Lexeme.endsBefore_of_mayPrecede {next : Lexeme} (h : next.WellFormed) (hnext : l.MayPrecede next) :
    l.EndsBefore (next.text ++ rest) := by
  cases l with
  | code chunk =>
    cases next with
    | code => exact hnext.elim
    | enclosed e content =>
      intro hslash
      have hlit : e.isLiteral = true := by
        by_contra hcomment
        exact hnext (by simpa using hcomment) hslash
      cases e <;> simp_all [Enclosure.isLiteral, text, Enclosure.opening]
  | enclosed e content =>
    cases e with
    | string =>
      cases next with
      | code chunk =>
        obtain ⟨hne, hdouble, -⟩ := h
        cases chunk with
        | nil => exact absurd rfl hne
        | cons c chunk =>
          have hc : c ≠ '"' := by simp_all [eq_comm]
          simpa [EndsBefore, text] using hc
      | enclosed e content => cases e <;> simp_all [MayPrecede, EndsBefore, text, Enclosure.opening]
    | lineComment | blockComment | character | textBlock => trivial

/-- The masked copy of a sequence of lexical elements is, element by element, code and quotes as they are, and blanks
for comments and what literals contain, but for unescaped line ends. -/
theorem mask_lexemes (hwf : ∀ l ∈ ls, l.WellFormed) (hnext : ls.IsChain Lexeme.MayPrecede) :
    mask (ls.flatMap Lexeme.text) = ls.flatMap Lexeme.masked := by
  show maskedText (cellsFrom (.inside .code) (ls.flatMap Lexeme.text)) = _
  induction ls with
  | nil => rfl
  | cons l ls ih =>
    have hends : l.EndsBefore (ls.flatMap Lexeme.text) := by
      cases ls with
      | nil => rcases l with _ | ⟨_ | _ | _ | _ | _, _⟩ <;> simp [Lexeme.EndsBefore]
      | cons next ls =>
        exact Lexeme.endsBefore_of_mayPrecede (hwf next (by simp)) (List.isChain_cons_cons.1 hnext).1
    rw [List.flatMap_cons, List.flatMap_cons, Lexeme.maskedText_eq (hwf l List.mem_cons_self) hends,
      ih (fun l hl => hwf l (List.mem_cons_of_mem _ hl)) hnext.tail]

theorem mask_lexemes_ofEveryKind :
    mask "x=\"a\\\"é/*\"+'\\''/*\"*\n//*/\"\"\"q\"\"\\\"\"\"\\\n\n\"\"\"/'//'// it's\n/".toList =
      "x=\"       \"+'  '    \n    \"\"\"         \n\"\"\"/'  '       \n/".toList :=
  @mask_lexemes [.code ['x', '='], .enclosed .string ['a', '\\', '"', 'é', '/', '*'], .code ['+'],
    .enclosed .character ['\\', '\''], .enclosed .blockComment ['"', '*', '\n', '/', '/'],
    .enclosed .textBlock ['q', '"', '"', '\\', '"', '"', '"', '\\', '\n', '\n'], .code ['/'],
    .enclosed .character ['/', '/'], .enclosed .lineComment [' ', 'i', 't', '\'', 's'], .code ['/']]
    (by decide) (by decide)

end WireLayout.Java
