/-! The mask over a source text: it hides comments and what stands inside string literals, character
literals and text blocks, and shows all else, the quotes and most line ends included. Each character
of the text becomes one cell; in the masked text a hidden character is as many spaces as it has
octets, so that positions in octets stay what they were. -/

namespace WireLayout.Java

/-- A character of a source text, and whether the mask shows it. -/
structure Cell where
  char : Char
  shown : Bool
  deriving DecidableEq, Repr

def Cell.view (c : Cell) : Char := if c.shown then c.char else ' '

/-- What the text is inside of. -/
inductive Region where
  | code | lineComment | blockComment | string | character | textBlock
  deriving DecidableEq, Repr

/-- Where the mask stands before a character: inside a region, or with `left + 1` characters still to pass
over, shown or hidden, before a region begins. -/
inductive MaskState where
  | inside (region : Region)
  | passing (left : Nat) (shown : Bool) (region : Region)
  deriving DecidableEq, Repr

def twoQuotes : List Char → Bool
  | '"' :: '"' :: _ => true
  | _ => false

/-- Whether a character is shown, and the state after it. `rest` is the text after the character. -/
def MaskState.step : MaskState → Char → List Char → Bool × MaskState
  | .passing 0 shown region, _, _ => (shown, .inside region)
  | .passing (left + 1) shown region, _, _ => (shown, .passing left shown region)
  | .inside .code, c, rest =>
    if c = '/' && rest.head? = some '/' then (false, .passing 0 false .lineComment)
    else if c = '/' && rest.head? = some '*' then (false, .passing 0 false .blockComment)
    else if c = '"' && twoQuotes rest then (true, .passing 1 true .textBlock)
    else if c = '"' then (true, .inside .string)
    else if c = '\'' then (true, .inside .character)
    else (true, .inside .code)
  | .inside .lineComment, c, _ =>
    if c = '\n' then (true, .inside .code) else (false, .inside .lineComment)
  | .inside .blockComment, c, rest =>
    if c = '*' && rest.head? = some '/' then (false, .passing 0 false .code)
    else (c = '\n', .inside .blockComment)
  | .inside .string, c, rest => literal .string '"' c rest
  | .inside .character, c, rest => literal .character '\'' c rest
  | .inside .textBlock, c, rest =>
    if c = '"' && twoQuotes rest then (true, .passing 1 true .code)
    else if c = '\\' && !rest.isEmpty then (false, .passing 0 false .textBlock)
    else (c = '\n', .inside .textBlock)
where
  /-- A literal ends at its quote or at the end of the line; a backslash hides the next character too. -/
  literal (region : Region) (quote c : Char) (rest : List Char) : Bool × MaskState :=
    if c = '\\' && !rest.isEmpty then (false, .passing 0 false region)
    else if c = quote || c = '\n' then (true, .inside .code)
    else (false, .inside region)

def cellsFrom : MaskState → List Char → List Cell
  | _, [] => []
  | state, c :: rest => ⟨c, (state.step c rest).1⟩ :: cellsFrom (state.step c rest).2 rest

def cells (text : List Char) : List Cell := cellsFrom (.inside .code) text

def verbatim (cs : List Cell) : List Char := cs.map Cell.char

def views (cs : List Cell) : List Char := cs.map Cell.view

def Cell.masked (c : Cell) : List Char :=
  if c.shown then [c.char] else List.replicate c.char.utf8Size ' '

def mask (text : List Char) : List Char := (cells text).flatMap Cell.masked

theorem length_cellsFrom (state : MaskState) (text : List Char) :
    (cellsFrom state text).length = text.length := by
  induction text generalizing state with
  | nil => rfl
  | cons c rest ih => simp [cellsFrom, ih]

theorem verbatim_cellsFrom (state : MaskState) (text : List Char) :
    verbatim (cellsFrom state text) = text := by
  induction text generalizing state with
  | nil => rfl
  | cons c rest ih => simpa [cellsFrom, verbatim] using ih _

end WireLayout.Java
