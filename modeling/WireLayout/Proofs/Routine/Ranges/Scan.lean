import WireLayout.Proofs.Java.Ranges.Scan
import WireLayout.Proofs.Routine.Steps

/-! Scanning a routine by positions of octets. Calls, conditions, statements and blocks are found at positions of the
masked text and cut out of it, and what has been cut out is cut again. A cut with its ends out of order, past the end of
its text or within a character is a fault. The forms of statements and names are read from the beginning of a text, step
by step, where no position is involved. -/

namespace WireLayout

namespace Java

def octetCount (text : List Char) : Nat := (octetViews text).length

def textFrom (text : List Char) (i : Nat) : Checked (List Char) := textIn text ⟨i, octetCount text⟩

end Java

namespace Routine

open WireLayout.Java WireLayout.Text

/-! Numbers. -/

def magnitudeIn : List Char → Checked (Option Int)
  | '0' :: c :: cs => do
    if c = 'x' || c = 'X' || c = 'b' || c = 'B' then return IntLiteral.magnitude? ('0' :: c :: cs)
    else return IntLiteral.signed? 8 (← textFrom ('0' :: c :: cs) 1)
  | cs => return IntLiteral.magnitude? cs

def literalIn (cs : List Char) : Checked (Option Int) :=
  match trim isSpace cs with
  | '-' :: rest => Option.map IntLiteral.negate <$> magnitudeIn (IntLiteral.body (rest.dropWhile isSpace))
  | '+' :: rest => magnitudeIn (IntLiteral.body rest)
  | rest => magnitudeIn (IntLiteral.body rest)

def wordIn (cs : List Char) : Checked (Option Nat) := (·.bind word?) <$> literalIn cs

/-! Calls. -/

structure CallIn where
  receiver : Option (List Char)
  arguments : List (List Char)
  stop : Nat

/-- The first call of a name. Its opening parenthesis is where the match of its head ends. -/
def findCallIn (name : String) (text : List Char) : Checked (Option CallIn) := do
  match (allMatches callHead? text).find? fun h => h.name = name.toList with
  | none => return none
  | some head =>
    let opening := octetCount text - octetCount head.rest - 1
    match partner? text opening '(' ')' with
    | none => return none
    | some close =>
      let ranges ← pieceRanges text ',' false ⟨opening + 1, close⟩
      return some ⟨head.receiver, ← ranges.mapM (textIn text), close + 1⟩

/-! Readings. -/

namespace Scope

variable (scope : Scope)

def positionIn (argument : List Char) : Checked (Option Nat) :=
  let argument := trim isSpace argument
  if argument = scope.offsetName then return some 0
  else match splitPlus? argument with
  | none => return none
  | some (start, added) => if trim isSpace start = scope.offsetName then wordIn added else return none

def sizedIn (call : CallIn) (encoding : Encoding) (size : Option Nat) : Checked Reading := do
  let argument := call.arguments[1]?.getD []
  match ← scope.positionIn argument with
  | some offset => return .fixed offset encoding size
  | none => return .varying encoding size (scope.slot? argument)

/-- What follows a call is looked at for one of the reads only. -/
def primitiveFromIn (expression : List Char) : List (String × Encoding) → Checked (Option Reading)
  | [] => return none
  | (name, encoding) :: rest => do
    match ← findCallIn name expression with
    | none => primitiveFromIn expression rest
    | some call =>
      match call.arguments.head? with
      | none => return none
      | some argument =>
        match ← scope.positionIn argument with
        | none => return none
        | some offset =>
          let isTruth ← if name = "getByte" then comparesWithZero <$> textFrom expression call.stop else pure false
          let encoding := if isTruth then .u8 else encoding
          return some (.fixed offset encoding encoding.fixedSize?)

def primitiveIn (expression : List Char) : Checked (Option Reading) := scope.primitiveFromIn expression primitives

def secondSlotIn? (call : CallIn) : Option Nat := call.arguments[1]?.bind scope.slot?

def stringReadingIn (call : CallIn) : Reading :=
  let ascii := call.arguments.any (contains "ASCII".toList)
  .varying (if ascii then .varAscii else .varUtf8) none (scope.secondSlotIn? call)

def fixedStringReadingIn (call : CallIn) : Checked (Option Reading) := do
  match call.arguments[2]? with
  | none => return none
  | some argument =>
    match ← wordIn argument with
    | none => return none
    | some length => return some (← scope.sizedIn call (.fixedAscii length) (some length))

def enumReadingIn (call : CallIn) : Checked (Option Reading) := do
  match call.arguments.head? with
  | none => return none
  | some argument =>
    match ← scope.primitiveIn argument with
    | some (.fixed offset .i8 size) => return some (.fixed offset .u8 size)
    | reading => return reading

def varIntReadingIn (call : CallIn) : Checked Reading := do
  match call.arguments[1]? with
  | none => return .varying .varInt none none
  | some argument =>
    match ← scope.positionIn argument with
    | some offset => return .fixed offset .varInt none
    | none => return .varying .varInt none none

def onTypeIn (call : CallIn) : Bool := call.receiver.any fun r => r.head?.any isAsciiUpper

/-- The read that an expression makes, with the calls looked for one after the other. -/
def readingIn (expression : List Char) : Checked (Option Reading) := do
  if makesArray expression then
    return some (.varying .array none ((← findCallIn "peek" expression).bind scope.secondSlotIn?))
  else match ← findCallIn "readVarString" expression with
  | some call => return some (scope.stringReadingIn call)
  | none => match ← findCallIn "readFixedAsciiString" expression with
  | some call => scope.fixedStringReadingIn call
  | none => match ← findCallIn "readUUID" expression with
  | some call => return some (← scope.sizedIn call .uuid (some 16))
  | none => match (← findCallIn "deserialize" expression).filter onTypeIn with
  | some call => return some (← scope.sizedIn call .nested none)
  | none => match ← findCallIn "fromValue" expression with
  | some call => scope.enumReadingIn call
  | none => match (← findCallIn "peek" expression).filter (·.receiver = some "VarInt".toList) with
  | some call => return some (← scope.varIntReadingIn call)
  | none => scope.primitiveIn expression

end Scope

/-! Statements. -/

namespace Reader

def guardIn (r : Reader) (condition : List Char) : Checked (Option Nat) := do
  match maskTest condition with
  | none => return none
  | some test =>
    if r.isFlags test.variableName then
      let index := match test.index with
        | some digits => decimalWord? digits
        | none => some 0
      match index with
      | none => return none
      | some index => return (← wordIn test.mask).bind (bitAt? index)
    else return none

def pointerIn (r : Reader) (statement : List Char) : Checked (Option (String × OffsetPointer)) := do
  match pointerDeclaration? statement with
  | none => return none
  | some declaration =>
    if declaration.start.toList = r.offsetName then
      let base ← wordIn declaration.base
      let call ← findCallIn "getIntLE" statement
      match base, call.bind (·.arguments.head?) with
      | some base, some argument =>
        return (← r.scope.positionIn argument).map fun slot => (declaration.name, ⟨slot, base⟩)
      | _, _ => return none
    else return none

def valueReadingIn (r : Reader) (value : List Char) : Checked (Option Reading) :=
  match r.locals.lookup value with
  | some reading => return some reading
  | none => r.scope.readingIn value

def assignIn (r : Reader) (member : String) (value : List Char) (nullBit : Option Nat) : Checked Reader := do
  if r.declared.contains member && !r.facts.any (·.name = member) then
    match ← r.valueReadingIn value with
    | some reading => return { r with facts := r.facts ++ [⟨member, reading, nullBit⟩] }
    | none => return r
  else return r

def declareLocalIn (r : Reader) (name : String) (value : List Char) : Checked Reader := do
  match ← r.scope.readingIn value with
  | some reading =>
    let flags := if atStart reading && r.facts.isEmpty then name :: r.flags else r.flags
    return { r with flags, locals := (name.toList, reading) :: r.locals }
  | none => return r

def simpleStatementIn (r : Reader) (nullBit : Option Nat) (statement : List Char) : Checked Reader := do
  if statement.isEmpty then return r
  else match ← r.pointerIn statement with
  | some (name, pointer) => return { r with pointers := r.pointers.insert name pointer }
  | none => match memberAssignment? statement with
  | some (member, value) => r.assignIn member value nullBit
  | none => match localDeclaration? statement with
  | some (name, value) => r.declareLocalIn name value
  | none => return r

/-- A statement behind its `else`. The parenthesis of a condition is found from the end of the text, and its partner
wherever it stands. -/
def conditionalIn (r : Reader) (nullBit : Option Nat) (text : List Char) : Checked Reader := do
  if (literal? "if".toList text).isSome then
    let condition := skipSpaces (← textFrom text 2)
    if condition.head? = some '(' then
      let opening := octetCount text - octetCount condition
      match partner? text opening '(' ')' with
      | none => return r
      | some close =>
        let own ← r.guardIn (← textIn text ⟨opening, close + 1⟩)
        r.simpleStatementIn (own <|> nullBit) (skipSpaces (← textFrom text (close + 1)))
    else r.simpleStatementIn nullBit text
  else r.simpleStatementIn nullBit text

def statementIn (r : Reader) (nullBit : Option Nat) (text : List Char) : Checked Reader :=
  match afterElse? (trim isSpace text) with
  | some rest => r.conditionalIn none rest
  | none => r.conditionalIn nullBit (trim isSpace text)

/-- Walks over a range, with `start` where the current statement or header begins. A parenthesis leads to its partner,
which may stand past the range; without one the walk ends. -/
def walkIn (text : List Char) (r : Reader) (guards : List (Option Nat)) (start i stop : Nat) : Checked Reader := do
  if i < stop then
    let c ← octetAt text i
    if c = '(' then
      match partner? text i '(' ')' with
      | some ⟨close, _⟩ => walkIn text r guards start (close + 1) stop
      | none => return r
    else if c = '{' then
      let own ← r.guardIn (← textIn text (← trimRange text ⟨start, i⟩))
      walkIn text r (own :: guards) (i + 1) (i + 1) stop
    else if c = '}' then walkIn text r guards.tail (i + 1) (i + 1) stop
    else if c = ';' then
      let r ← r.statementIn (innermost guards) (← textIn text (← trimRange text ⟨start, i⟩))
      walkIn text r guards (i + 1) (i + 1) stop
    else walkIn text r guards start (i + 1) stop
  else return r
termination_by stop - i

end Reader

/-! Routines. -/

/-- Where the name at the end of a parameter begins: one octet behind the beginning of the last character of what
stands in front of it. -/
def nameStart (front : List Char) : Nat := if front.isEmpty then 0 else octetCount front.dropLast + 1

/-- The name at the end of a parameter is cut off where it begins, if anything is left to cut. -/
def parameterNameIn (argument : List Char) : Checked (Option (List Char)) :=
  let trimmed := trim isSpace argument
  let start := nameStart (dropEnd isIdent trimmed)
  if start < octetCount trimmed then some <$> textFrom trimmed start else return none

def partsIn (text : List Char) : Checked (Option (List (List Char) × Span)) := do
  match ← findCallIn routineName text with
  | none => return none
  | some call =>
    let names ← call.arguments.mapM parameterNameIn
    let after ← textFrom text call.stop
    match after.dropWhile (· ≠ '{') with
    | [] => return none
    | _ :: _ =>
      let opening := call.stop + octetCount (after.takeWhile (· ≠ '{'))
      return (partner? text opening '{' '}').map fun close => (names.reduceOption, ⟨opening + 1, close⟩)

def scanIn (b : Bundle) : Checked Scan := do
  let masked := mask b.routine.toList
  match ← partsIn masked with
  | none => return { missing := b.fieldNames }
  | some (names, body) =>
    let start : Reader := { offsetName := names[1]?.getD "offset".toList, declared := b.fieldNames }
    return (← start.walkIn masked [] body.start body.start body.stop).scanned b

end Routine

end WireLayout
