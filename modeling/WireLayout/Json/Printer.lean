import WireLayout.Json.Basic

/-! The two texts of a JSON value: compact, and indented by two spaces. Strings escape quotes,
backslashes and control characters only; a double keeps a point or an exponent. -/

namespace WireLayout.Json

def hexDigit (n : Nat) : Char := Char.ofNat (if n < 10 then 48 + n else 87 + n)

def escapeChar (c : Char) : List Char :=
  if c = '"' then ['\\', '"']
  else if c = '\\' then ['\\', '\\']
  else if c = '\n' then ['\\', 'n']
  else if c = '\r' then ['\\', 'r']
  else if c = '\t' then ['\\', 't']
  else if c.toNat = 8 then ['\\', 'b']
  else if c.toNat = 12 then ['\\', 'f']
  else if c.toNat < 32 then ['\\', 'u', '0', '0', hexDigit (c.toNat / 16), hexDigit (c.toNat % 16)]
  else [c]

def quoted (text : String) : List Char := '"' :: text.toList.flatMap escapeChar ++ ['"']

def intText (n : Int) : List Char :=
  if n < 0 then '-' :: Nat.toDigits 10 n.natAbs else Nat.toDigits 10 n.natAbs

def exponentText (e : Int) : List Char := 'e' :: (if 0 ≤ e then '+' :: intText e else intText e)

/-- Positional from `1e-5` up to `1e16`, otherwise one digit before the point and an exponent. -/
def doubleText (x : Binary64) : List Char :=
  let sign := if x.negative then ['-'] else []
  if x.isZero then sign ++ ['0', '.', '0']
  else
    let (number, k) := x.shortest
    let digits := Nat.toDigits 10 number
    let point : Int := digits.length + k
    sign ++
      if 0 ≤ k && point ≤ 16 then digits ++ List.replicate k.toNat '0' ++ ['.', '0']
      else if 0 < point && point ≤ 16 then digits.take point.toNat ++ '.' :: digits.drop point.toNat
      else if -5 < point && point ≤ 0 then '0' :: '.' :: List.replicate (-point).toNat '0' ++ digits
      else
        let mantissa := if digits.length = 1 then digits else digits.take 1 ++ '.' :: digits.drop 1
        mantissa ++ exponentText (point - 1)

mutual

def chars : Json → List Char
  | null => ['n', 'u', 'l', 'l']
  | bool true => ['t', 'r', 'u', 'e']
  | bool false => ['f', 'a', 'l', 's', 'e']
  | int n => intText n
  | double x => doubleText x
  | str text => quoted text
  | arr items => '[' :: itemChars items ++ [']']
  | obj members => '{' :: memberChars members ++ ['}']

def itemChars : List Json → List Char
  | [] => []
  | [item] => chars item
  | item :: rest => chars item ++ ',' :: itemChars rest

def memberChars : List (String × Json) → List Char
  | [] => []
  | [(key, value)] => quoted key ++ ':' :: chars value
  | (key, value) :: rest => quoted key ++ ':' :: chars value ++ ',' :: memberChars rest

end

def compact (value : Json) : String := String.ofList value.chars

def newline (indent : Nat) : List Char := '\n' :: List.replicate (2 * indent) ' '

mutual

/-- The indented text of a value that stands at a depth. Empty arrays and objects stay closed. -/
def indented (depth : Nat) : Json → List Char
  | arr [] => ['[', ']']
  | arr (item :: rest) =>
    '[' :: newline (depth + 1) ++ indented (depth + 1) item ++ indentedItems (depth + 1) rest ++
      newline depth ++ [']']
  | obj [] => ['{', '}']
  | obj ((key, value) :: rest) =>
    '{' :: newline (depth + 1) ++ quoted key ++ ':' :: ' ' :: indented (depth + 1) value ++
      indentedMembers (depth + 1) rest ++ newline depth ++ ['}']
  | value => chars value

def indentedItems (depth : Nat) : List Json → List Char
  | [] => []
  | item :: rest => ',' :: newline depth ++ indented depth item ++ indentedItems depth rest

def indentedMembers (depth : Nat) : List (String × Json) → List Char
  | [] => []
  | (key, value) :: rest =>
    ',' :: newline depth ++ quoted key ++ ':' :: ' ' :: indented depth value ++
      indentedMembers depth rest

end

def pretty (value : Json) : String := String.ofList (value.indented 0)

end WireLayout.Json
