import WireLayout.Layout.Constants

/-! What an extraction knows of a protocol: who an entity is, the fields it declares, enumerations and data
types. -/

namespace WireLayout

structure EntityId where
  name : String
  package : String
  category : String
  sourcePath : String
  deriving DecidableEq, Repr

structure Field where
  name : String
  type : String
  nullable : Bool
  defaultValue : Option String := none
  maxLength : Option Nat := none
  deriving DecidableEq, Repr

structure EnumVariant where
  name : String
  value : Int
  deriving DecidableEq, Repr

structure Enumeration where
  id : EntityId
  variants : List EnumVariant
  deriving DecidableEq, Repr

structure DataType where
  id : EntityId
  fields : List Field
  imports : List String
  deriving DecidableEq, Repr

end WireLayout
