/-! Characters as octets and back. Encoding is exact; decoding replaces each longest start of a
character that the octets break off by one replacement character, so that every octet sequence has
a reading. -/

namespace WireLayout.Text

def utf8 (cs : List Char) : List UInt8 := cs.flatMap String.utf8EncodeChar

def replacement : Char := Char.ofNat 0xFFFD

/-- What a leading octet asks for: how many more octets, and the range of the first of them. -/
def continuation? (lead : Nat) : Option (Nat × Nat × Nat) :=
  if 0xC2 ≤ lead && lead ≤ 0xDF then some (1, 0x80, 0xBF)
  else if lead = 0xE0 then some (2, 0xA0, 0xBF)
  else if lead = 0xED then some (2, 0x80, 0x9F)
  else if 0xE1 ≤ lead && lead ≤ 0xEF then some (2, 0x80, 0xBF)
  else if lead = 0xF0 then some (3, 0x90, 0xBF)
  else if 0xF1 ≤ lead && lead ≤ 0xF3 then some (3, 0x80, 0xBF)
  else if lead = 0xF4 then some (3, 0x80, 0x8F)
  else none

/-- A character of which octets are still owed: its bits so far, how many are owed, and the range of
the next. -/
structure Partial where
  bits : Nat
  owed : Nat
  low : Nat
  high : Nat

/-- The bits that a leading octet of a character of `1 + owed` octets carries. -/
def leadBits (lead owed : Nat) : Nat :=
  if owed = 1 then lead - 0xC0 else if owed = 2 then lead - 0xE0 else lead - 0xF0

/-- An octet between characters: what it completes, and what it begins. -/
def beginChar (b : Nat) : List Char × Option Partial :=
  if b < 0x80 then ([Char.ofNat b], none)
  else match continuation? b with
    | some (owed, low, high) => ([], some ⟨leadBits b owed, owed, low, high⟩)
    | none => ([replacement], none)

def decodeFrom : Option Partial → List UInt8 → List Char
  | none, [] => []
  | some _, [] => [replacement]
  | none, b :: bs => (beginChar b.toNat).1 ++ decodeFrom (beginChar b.toNat).2 bs
  | some p, b :: bs =>
    if p.low ≤ b.toNat && b.toNat ≤ p.high then
      let bits := p.bits * 64 + (b.toNat - 0x80)
      if p.owed = 1 then Char.ofNat bits :: decodeFrom none bs
      else decodeFrom (some ⟨bits, p.owed - 1, 0x80, 0xBF⟩) bs
    else replacement :: (beginChar b.toNat).1 ++ decodeFrom (beginChar b.toNat).2 bs

def decodeLossy (bytes : List UInt8) : List Char := decodeFrom none bytes

end WireLayout.Text
