import MarkupEdit.Json.Number

/-!
Values of JSON. An object keeps its fields in the order in which they are written, and every
repetition of a field.
-/

namespace MarkupEdit.Json

inductive Value where
  | null
  | bool (b : Bool)
  | number (n : Number)
  | string (s : String)
  | array (items : List Value)
  | object (fields : List (String × Value))
  deriving Inhabited

namespace Value

def ofNat (n : Nat) : Value := number (.ofNat n)

def ofOption : Option String → Value
  | none => null
  | some s => string s

end Value

end MarkupEdit.Json
