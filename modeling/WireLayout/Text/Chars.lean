import WireLayout.Text.WordTable

/-! The character classes that sources are read with. Blank space, words and digits are taken over all
of Unicode; identifiers and the trimming of declarations keep to ASCII. -/

namespace WireLayout.Text

def inRanges (ranges : List (Nat × Nat)) (n : Nat) : Bool :=
  ranges.any fun (first, last) => first ≤ n && n ≤ last

/-- White space of Unicode. -/
def isSpace (c : Char) : Bool :=
  let n := c.toNat
  (9 ≤ n && n ≤ 13) || n = 0x20 || n = 0x85 || n = 0xA0 || n = 0x1680 || (0x2000 ≤ n && n ≤ 0x200A) ||
    n = 0x2028 || n = 0x2029 || n = 0x202F || n = 0x205F || n = 0x3000

/-- White space of ASCII; a vertical tab is none. -/
def isAsciiSpace (c : Char) : Bool :=
  c = ' ' || c = '\t' || c = '\n' || c = '\x0c' || c = '\r'

def isAsciiDigit (c : Char) : Bool := '0' ≤ c && c ≤ '9'

def isAsciiUpper (c : Char) : Bool := 'A' ≤ c && c ≤ 'Z'

def isAsciiLower (c : Char) : Bool := 'a' ≤ c && c ≤ 'z'

def isAsciiLetter (c : Char) : Bool := isAsciiUpper c || isAsciiLower c

def isHexDigit (c : Char) : Bool :=
  isAsciiDigit c || ('A' ≤ c && c ≤ 'F') || ('a' ≤ c && c ≤ 'f')

def isIdent (c : Char) : Bool := isAsciiLetter c || isAsciiDigit c || c = '_' || c = '$'

def isDigit (c : Char) : Bool :=
  if c.toNat < 128 then isAsciiDigit c else inRanges digitRanges c.toNat

def isWord (c : Char) : Bool :=
  if c.toNat < 128 then isAsciiLetter c || isAsciiDigit c || c = '_' else inRanges wordRanges c.toNat

def isWordOrDollar (c : Char) : Bool := isWord c || c = '$'

/-- What the first character of a called or tested name can be. -/
def isNameStart (c : Char) : Bool := isAsciiLetter c || c = '_' || c = '$'

def asciiLower (c : Char) : Char :=
  if isAsciiUpper c then Char.ofNat (c.toNat + 32) else c

end WireLayout.Text
