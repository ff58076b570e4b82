import WireLayout.Json.Basic
import WireLayout.SortedMap
import WireLayout.Text.Chars

/-! Reading JSON. The members of an object come out in the order of their keys, the last of equal keys
alone; values nest at most 127 deep. An integer that fits into 64 bits stays one, and every other
number is a double: the digits that fit into 64 bits are taken as they stand, and further ones only
shift the exponent. -/

namespace WireLayout.Json

open WireLayout.Text

def isJsonSpace (c : Char) : Bool := c = ' ' || c = '\n' || c = '\t' || c = '\r'

def skipBlank (cs : List Char) : List Char := cs.dropWhile isJsonSpace

def digitValue (c : Char) : Nat := c.toNat - 48

def natOfDigits (digits : List Char) : Nat := digits.foldl (fun n c => 10 * n + digitValue c) 0

def maxUnsigned : Nat := 0xFFFFFFFFFFFFFFFF

/-- Takes digits into the significand as long as it stays within 64 bits; gives it with the digits left
over. -/
def takeDigits (significand : Nat) : List Char → Nat × List Char
  | [] => (significand, [])
  | c :: cs =>
    let next := 10 * significand + digitValue c
    if maxUnsigned < next then (significand, c :: cs) else takeDigits next cs

/-- The largest exponent that is counted out. -/
def maxExponent : Nat := 0x7FFFFFFF

def finishDouble (negative : Bool) (significand : Nat) (exponent : Int) : Option Json :=
  (Binary64.ofDecimal significand exponent).map fun x => double (x.withSign negative)

def exponentPart (negative : Bool) (significand : Nat) (exponent : Int) (cs : List Char) :
    Option (Json × List Char) :=
  match cs with
  | e :: rest =>
    if e = 'e' || e = 'E' then
      let (down, rest) := match rest with
        | '+' :: r => (false, r)
        | '-' :: r => (true, r)
        | r => (false, r)
      let digits := rest.takeWhile isAsciiDigit
      let after := rest.dropWhile isAsciiDigit
      if digits.isEmpty then none
      else
        let n := natOfDigits digits
        if maxExponent < n then
          if significand ≠ 0 && !down then none
          else some (double (Binary64.zero.withSign negative), after)
        else
          let shift : Int := if down then exponent - n else exponent + n
          (finishDouble negative significand shift).map (·, after)
    else (finishDouble negative significand exponent).map (·, cs)
  | [] => (finishDouble negative significand exponent).map (·, cs)

/-- What follows the digits before the point; `dropped` of them did not fit. -/
def afterWhole (negative : Bool) (significand dropped : Nat) (cs : List Char) :
    Option (Json × List Char) :=
  match cs with
  | '.' :: rest =>
    let digits := rest.takeWhile isAsciiDigit
    let after := rest.dropWhile isAsciiDigit
    if digits.isEmpty then none
    else
      let (significand, left) := takeDigits significand digits
      exponentPart negative significand ((dropped : Int) - (digits.length - left.length : Nat)) after
  | c :: _ =>
    if c = 'e' || c = 'E' || dropped ≠ 0 then exponentPart negative significand dropped cs
    else whole cs
  | [] => if dropped ≠ 0 then exponentPart negative significand dropped cs else whole cs
where
  whole (cs : List Char) : Option (Json × List Char) :=
    if !negative then some (int significand, cs)
    else if significand = 0 || 0x8000000000000000 < significand then
      (finishDouble true significand 0).map (·, cs)
    else some (int (-significand), cs)

def number? (cs : List Char) : Option (Json × List Char) :=
  let (negative, cs) := match cs with
    | '-' :: r => (true, r)
    | r => (false, r)
  let digits := cs.takeWhile isAsciiDigit
  let after := cs.dropWhile isAsciiDigit
  if digits.isEmpty || (digits.head? = some '0' && digits.length ≠ 1) then none
  else
    let (significand, left) := takeDigits 0 digits
    afterWhole negative significand left.length after

def hexValue? (c : Char) : Option Nat :=
  if isAsciiDigit c then some (c.toNat - 48)
  else if 'a' ≤ c && c ≤ 'f' then some (c.toNat - 87)
  else if 'A' ≤ c && c ≤ 'F' then some (c.toNat - 55)
  else none

def unit? : List Char → Option (Nat × List Char)
  | a :: b :: c :: d :: rest => do
    some (((← hexValue? a) * 16 + (← hexValue? b)) * 256 + (← hexValue? c) * 16 + (← hexValue? d), rest)
  | _ => none

/-- The character that a `u` escape stands for: one unit, or a high surrogate with a low one. -/
def unicodeEscape? (cs : List Char) : Option (Char × List Char) := do
  let (high, rest) ← unit? cs
  if 0xD800 ≤ high && high ≤ 0xDBFF then
    match rest with
    | '\\' :: 'u' :: rest =>
      let (low, rest) ← unit? rest
      if 0xDC00 ≤ low && low ≤ 0xDFFF then
        some (Char.ofNat (0x10000 + (high - 0xD800) * 1024 + (low - 0xDC00)), rest)
      else none
    | _ => none
  else if 0xDC00 ≤ high && high ≤ 0xDFFF then none
  else some (Char.ofNat high, rest)

def escape? : List Char → Option (Char × List Char)
  | '"' :: rest => some ('"', rest)
  | '\\' :: rest => some ('\\', rest)
  | '/' :: rest => some ('/', rest)
  | 'b' :: rest => some (Char.ofNat 8, rest)
  | 'f' :: rest => some (Char.ofNat 12, rest)
  | 'n' :: rest => some ('\n', rest)
  | 'r' :: rest => some ('\r', rest)
  | 't' :: rest => some ('\t', rest)
  | 'u' :: rest => unicodeEscape? rest
  | _ => none

/-- The characters of a string up to its closing quote. The fuel is the length of the text. -/
def stringChars : Nat → List Char → Option (List Char × List Char)
  | 0, _ => none
  | _, [] => none
  | fuel + 1, c :: cs =>
    if c = '"' then some ([], cs)
    else if c = '\\' then do
      let (e, rest) ← escape? cs
      let (text, rest) ← stringChars fuel rest
      some (e :: text, rest)
    else if c.toNat < 32 then none
    else do
      let (text, rest) ← stringChars fuel cs
      some (c :: text, rest)

def string? (cs : List Char) : Option (String × List Char) :=
  match cs with
  | '"' :: rest => (stringChars (rest.length + 1) rest).map fun (text, rest) => (String.ofList text, rest)
  | _ => none

def keyword? (word : List Char) (value : Json) (cs : List Char) : Option (Json × List Char) :=
  if cs.take word.length = word then some (value, cs.drop word.length) else none

mutual

/-- A value that starts at the first character. `depth` counts how deep it may nest. -/
def value? (fuel depth : Nat) (cs : List Char) : Option (Json × List Char) :=
  match fuel with
  | 0 => none
  | fuel + 1 =>
    match cs with
    | [] => none
    | c :: rest =>
      if c = 'n' then keyword? ['n', 'u', 'l', 'l'] null cs
      else if c = 't' then keyword? ['t', 'r', 'u', 'e'] (bool true) cs
      else if c = 'f' then keyword? ['f', 'a', 'l', 's', 'e'] (bool false) cs
      else if c = '"' then (string? cs).map fun (text, rest) => (str text, rest)
      else if c = '[' then
        if depth ≤ 1 then none
        else match skipBlank rest with
          | ']' :: rest => some (arr [], rest)
          | rest => (items? fuel (depth - 1) rest).map fun (items, rest) => (arr items, rest)
      else if c = '{' then
        if depth ≤ 1 then none
        else match skipBlank rest with
          | '}' :: rest => some (obj [], rest)
          | rest => (members? fuel (depth - 1) rest).map fun (members, rest) =>
              (obj (SortedMap.ofList members).entries, rest)
      else number? cs

def items? (fuel depth : Nat) (cs : List Char) : Option (List Json × List Char) :=
  match fuel with
  | 0 => none
  | fuel + 1 => do
    let (item, rest) ← value? fuel depth (skipBlank cs)
    match skipBlank rest with
    | ',' :: rest =>
      let (items, rest) ← items? fuel depth rest
      some (item :: items, rest)
    | ']' :: rest => some ([item], rest)
    | _ => none

def members? (fuel depth : Nat) (cs : List Char) : Option (List (String × Json) × List Char) :=
  match fuel with
  | 0 => none
  | fuel + 1 => do
    let (key, rest) ← string? (skipBlank cs)
    match skipBlank rest with
    | ':' :: rest =>
      let (value, rest) ← value? fuel depth (skipBlank rest)
      match skipBlank rest with
      | ',' :: rest =>
        let (members, rest) ← members? fuel depth rest
        some ((key, value) :: members, rest)
      | '}' :: rest => some ([(key, value)], rest)
      | _ => none
    | _ => none

end

/-- Reads a whole text as one value. -/
def parse? (text : String) : Option Json := do
  let cs := skipBlank text.toList
  let (value, rest) ← value? (2 * cs.length + 2) 128 cs
  if (skipBlank rest).isEmpty then some value else none

end WireLayout.Json
