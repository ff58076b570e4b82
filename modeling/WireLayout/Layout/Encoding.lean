import WireLayout.Layout.IntLiteral

/-! The closed vocabulary of wire encodings, and their tags. -/

namespace WireLayout

open WireLayout.Text

inductive Encoding where
  | u8 | i8 | i16le | i32le | i64le | f32le | f64le | varInt | uuid
  | fixedAscii (length : Nat)
  | varAscii | varUtf8 | array | nested | offsetPointer
  deriving DecidableEq, Repr

inductive TagFault where
  | badLength (text : String)
  | unknownTag (text : String)
  deriving DecidableEq, Repr

def TagFault.message : TagFault → String
  | badLength text => s!"bad fixed ascii length in '{text}'"
  | unknownTag text => s!"unknown encoding tag '{text}'"

namespace Encoding

def fixedSize? : Encoding → Option Nat
  | u8 | i8 => some 1
  | i16le => some 2
  | i32le | f32le | offsetPointer => some 4
  | i64le | f64le => some 8
  | uuid => some 16
  | fixedAscii length => some length
  | varInt | varAscii | varUtf8 | array | nested => none

def tag : Encoding → String
  | u8 => "u8"
  | i8 => "i8"
  | i16le => "i16le"
  | i32le => "i32le"
  | i64le => "i64le"
  | f32le => "f32le"
  | f64le => "f64le"
  | varInt => "varint"
  | uuid => "uuid"
  | fixedAscii length => s!"ascii[{length}]"
  | varAscii => "varstring-ascii"
  | varUtf8 => "varstring-utf8"
  | array => "array"
  | nested => "nested"
  | offsetPointer => "offset-ptr"

def vocabulary : String :=
  "u8, i8, i16le, i32le, i64le, f32le, f64le, varint, uuid, ascii[N], " ++
    "varstring-ascii, varstring-utf8, array, nested, offset-ptr"

/-- Every tag but the ones with a length, other spellings included. -/
def spellings : List (String × Encoding) := [
  ("u8", u8), ("byte", u8), ("bool", u8), ("uint8", u8),
  ("i8", i8), ("sbyte", i8), ("signed-byte", i8), ("int8", i8),
  ("i16le", i16le), ("int16le", i16le), ("u16le", i16le),
  ("i32le", i32le), ("int32le", i32le), ("u32le", i32le),
  ("i64le", i64le), ("int64le", i64le), ("u64le", i64le),
  ("f32le", f32le), ("float32le", f32le),
  ("f64le", f64le), ("float64le", f64le),
  ("varint", varInt), ("uuid", uuid),
  ("varstring-ascii", varAscii), ("varascii", varAscii),
  ("varstring-utf8", varUtf8), ("varutf8", varUtf8), ("varstring", varUtf8),
  ("array", array), ("nested", nested), ("offset-ptr", offsetPointer), ("offsetptr", offsetPointer)]

/-- A tag trimmed, in lower case, with hyphens for underscores. -/
def canonicalTag (text : List Char) : List Char :=
  (trim isSpace text).map fun c => if c = '_' then '-' else asciiLower c

def lengthText? (tag : List Char) : Option (List Char) :=
  if tag.take 6 = ['a', 's', 'c', 'i', 'i', '['] then
    match (tag.drop 6).reverse with
    | ']' :: rest => some rest.reverse
    | _ => none
  else none

def ofTag (text : String) : Except TagFault Encoding :=
  let tag := canonicalTag text.toList
  match lengthText? tag with
  | some length =>
    match decimalWord? (trim isSpace length) with
    | some n => .ok (fixedAscii n)
    | none => .error (.badLength text)
  | none =>
    match spellings.lookup (String.ofList tag) with
    | some encoding => .ok encoding
    | none => .error (.unknownTag text)

end Encoding

end WireLayout
