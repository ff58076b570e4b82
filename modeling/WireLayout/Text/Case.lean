import WireLayout.Text.CaseTable
import WireLayout.Text.Chars

/-! Lower case over all of Unicode. Each capital has one lower-case form, but for the dotted capital I,
which becomes two characters, and the capital sigma, whose form depends on its neighbours. -/

namespace WireLayout.Text

def isCaseIgnorable (c : Char) : Bool :=
  if c.toNat < 128 then c = '\'' || c = '.' || c = ':' || c = '^' || c.toNat = 96
  else inRanges caseIgnorableRanges c.toNat

def isCased (c : Char) : Bool :=
  if c.toNat < 128 then isAsciiLetter c else inRanges casedRanges c.toNat

def meetsCased (cs : List Char) : Bool :=
  match cs.dropWhile isCaseIgnorable with
  | [] => false
  | c :: _ => isCased c

def lowercaseChar (c : Char) : Char :=
  if c.toNat < 128 then asciiLower c
  else
    let n := c.toNat
    match lowercaseRuns.find? fun (first, last, step, _) => first ≤ n && n ≤ last && (n - first) % step = 0 with
    | some (_, _, _, distance) => Char.ofNat (n + distance).toNat
    | none => c

/-- A capital sigma takes its final form after a letter unless another letter follows. -/
def lowercaseFrom : List Char → List Char → List Char
  | _, [] => []
  | before, c :: cs =>
    let lower :=
      if c.toNat = 0x130 then ['i', Char.ofNat 0x307]
      else if c.toNat = 0x3A3 then
        [Char.ofNat (if meetsCased before && !meetsCased cs then 0x3C2 else 0x3C3)]
      else [lowercaseChar c]
    lower ++ lowercaseFrom (c :: before) cs

def lowercase (s : String) : String := String.ofList (lowercaseFrom [] s.toList)

end WireLayout.Text
