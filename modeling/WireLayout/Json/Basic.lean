import WireLayout.Json.Binary64

/-! JSON values. A number is an integer or a double, and the two are told apart. An object lists its
members in the order in which they are written. -/

namespace WireLayout

inductive Json where
  | null
  | bool (value : Bool)
  | int (value : Int)
  | double (value : Binary64)
  | str (text : String)
  | arr (items : List Json)
  | obj (members : List (String × Json))
  deriving Repr, Inhabited

namespace Json

def member? (key : String) : Json → Option Json
  | obj members => members.lookup key
  | _ => none

def str? : Json → Option String
  | str text => some text
  | _ => none

def arr? : Json → Option (List Json)
  | arr items => some items
  | _ => none

def isObject : Json → Bool
  | obj _ => true
  | _ => false

def ofNat (n : Nat) : Json := int n

def ofStrings (texts : List String) : Json := arr (texts.map str)

def optional (key : String) (value : Option Json) : List (String × Json) :=
  match value with
  | some v => [(key, v)]
  | none => []

end Json

end WireLayout
