import MarkupEdit.Json.Fault
import MarkupEdit.Json.Reader
import MarkupEdit.Mutation

/-!
Mutations as JSON, and scripts: one mutation or an array of them. A mutation is an object with
one field, named for the kind of mutation, that holds the details as an object or, in a fixed
order, as an array.
-/

namespace MarkupEdit

open Json (Value)

inductive Detail where
  | text (s : String)
  | absent
  | side (s : Side)

namespace Detail

inductive Kind where
  | text
  | optionalText
  | side
  deriving DecidableEq

def side? (name : String) : Option Side :=
  if name = "before" then some .before else if name = "after" then some .after else none

/-- The detail that a value is. A side may also be the only field of an object, which is null
then. -/
def ofJson? (kind : Kind) (v : Value) : Option Detail :=
  match kind, v with
  | .text, .string s | .optionalText, .string s => some (text s)
  | .optionalText, .null => some absent
  | .side, .string s | .side, .object [(s, .null)] => (side? s).map side
  | _, _ => none

/-- A detail as a value; an absent one is none. -/
def toJson? : Detail → Option Value
  | text s => some (.string s)
  | absent => none
  | side s => some (.string s.name)

def default? : Kind → Option Detail
  | .optionalText => some absent
  | _ => none

end Detail

abbrev Layout := List (String × Detail.Kind)

namespace Layout

/-- The value of a field, `none` if there is no such field; refused when there are several. -/
def field? (fields : List (String × Value)) (name : String) : Option (Option Value) :=
  match fields.filter (·.1 = name) with
  | [] => some none
  | [(_, v)] => some (some v)
  | _ => none

/-- The details in an object; fields that no detail is named for do not count. -/
def ofFields? (fields : List (String × Value)) : Layout → Option (List Detail)
  | [] => some []
  | (name, kind) :: rest => do
    let detail ←
      match ← field? fields name with
      | none => Detail.default? kind
      | some v => Detail.ofJson? kind v
    pure (detail :: (← ofFields? fields rest))

/-- The details in an array, which holds nothing else; those at its end may be left out. -/
def ofItems? : List Value → Layout → Option (List Detail)
  | [], [] => some []
  | _ :: _, [] => none
  | [], (_, kind) :: rest => do
    pure ((← Detail.default? kind) :: (← ofItems? [] rest))
  | v :: items, (_, kind) :: rest => do
    pure ((← Detail.ofJson? kind v) :: (← ofItems? items rest))

def toFields (layout : Layout) (details : List Detail) : List (String × Value) :=
  (layout.zip details).filterMap fun (field, detail) => detail.toJson?.map (field.1, ·)

def ofJson? (layout : Layout) : Value → Option (List Detail)
  | .object fields => layout.ofFields? fields
  | .array items => ofItems? items layout
  | _ => none

end Layout

namespace Mutation

inductive Kind where
  | replaceElement
  | insertAfter
  | insertBefore
  | removeElement
  | moveElement
  | updateClasses
  | addClass
  | removeClass
  | updateText
  | setAttribute
  | removeAttribute
  | setInlineStyle
  | removeInlineStyle
  deriving DecidableEq

namespace Kind

def name : Kind → String
  | replaceElement => "ReplaceElement"
  | insertAfter => "InsertAfter"
  | insertBefore => "InsertBefore"
  | removeElement => "RemoveElement"
  | moveElement => "MoveElement"
  | updateClasses => "UpdateClasses"
  | addClass => "AddClass"
  | removeClass => "RemoveClass"
  | updateText => "UpdateText"
  | setAttribute => "SetAttribute"
  | removeAttribute => "RemoveAttribute"
  | setInlineStyle => "SetInlineStyle"
  | removeInlineStyle => "RemoveInlineStyle"

def all : List Kind :=
  [replaceElement, insertAfter, insertBefore, removeElement, moveElement, updateClasses,
    addClass, removeClass, updateText, setAttribute, removeAttribute, setInlineStyle,
    removeInlineStyle]

def ofName? (name : String) : Option Kind := all.find? (·.name = name)

def ownLayout : Kind → Layout
  | replaceElement | insertAfter | insertBefore => [("markup", .text)]
  | removeElement => []
  | moveElement => [("target_id", .text), ("position", .side)]
  | updateClasses => [("classes", .text)]
  | addClass | removeClass => [("class_name", .text)]
  | updateText => [("text", .text), ("old_text", .optionalText)]
  | setAttribute => [("name", .text), ("value", .text)]
  | removeAttribute => [("name", .text)]
  | setInlineStyle => [("property", .text), ("value", .text)]
  | removeInlineStyle => [("property", .text)]

def layout (kind : Kind) : Layout := ("element_id", .text) :: kind.ownLayout

end Kind

def kind : Mutation → Kind
  | replaceElement .. => .replaceElement
  | insertAfter .. => .insertAfter
  | insertBefore .. => .insertBefore
  | removeElement .. => .removeElement
  | moveElement .. => .moveElement
  | updateClasses .. => .updateClasses
  | addClass .. => .addClass
  | removeClass .. => .removeClass
  | updateText .. => .updateText
  | setAttribute .. => .setAttribute
  | removeAttribute .. => .removeAttribute
  | setInlineStyle .. => .setInlineStyle
  | removeInlineStyle .. => .removeInlineStyle

def ownDetails : Mutation → List Detail
  | replaceElement _ s | insertAfter _ s | insertBefore _ s | updateClasses _ s | addClass _ s
  | removeClass _ s | removeAttribute _ s | removeInlineStyle _ s => [.text s]
  | removeElement _ => []
  | moveElement _ target side => [.text target, .side side]
  | updateText _ s none => [.text s, .absent]
  | updateText _ s (some old) => [.text s, .text old]
  | setAttribute _ s value | setInlineStyle _ s value => [.text s, .text value]

def details (m : Mutation) : List Detail := .text m.elementId :: m.ownDetails

def ofDetails? (kind : Kind) (details : List Detail) : Option Mutation :=
  match kind, details with
  | .replaceElement, [.text id, .text markup] => some (replaceElement id markup)
  | .insertAfter, [.text id, .text markup] => some (insertAfter id markup)
  | .insertBefore, [.text id, .text markup] => some (insertBefore id markup)
  | .removeElement, [.text id] => some (removeElement id)
  | .moveElement, [.text id, .text target, .side side] => some (moveElement id target side)
  | .updateClasses, [.text id, .text classes] => some (updateClasses id classes)
  | .addClass, [.text id, .text classes] => some (addClass id classes)
  | .removeClass, [.text id, .text classes] => some (removeClass id classes)
  | .updateText, [.text id, .text text, .text old] => some (updateText id text (some old))
  | .updateText, [.text id, .text text, .absent] => some (updateText id text none)
  | .setAttribute, [.text id, .text name, .text value] => some (setAttribute id name value)
  | .removeAttribute, [.text id, .text name] => some (removeAttribute id name)
  | .setInlineStyle, [.text id, .text property, .text value] =>
    some (setInlineStyle id property value)
  | .removeInlineStyle, [.text id, .text property] => some (removeInlineStyle id property)
  | _, _ => none

def ofJson? : Value → Option Mutation
  | .object [(name, v)] => do
    let kind ← Kind.ofName? name
    ofDetails? kind (← kind.layout.ofJson? v)
  | _ => none

/-- A mutation as a value. A detail that is absent is left out. -/
def toJson (m : Mutation) : Value :=
  .object [(m.kind.name, .object (m.kind.layout.toFields m.details))]

end Mutation

namespace Script

def ofJson? (v : Value) : Option (List Mutation) :=
  match Mutation.ofJson? v, v with
  | some m, _ => some [m]
  | none, .array items => items.mapM Mutation.ofJson?
  | none, _ => none

/-- The mutations of a script. A value that is no script is told before anything behind it is
read. -/
def parse (text : String) : Except Json.Fault (List Mutation) :=
  let tokens := Json.Token.ofChars text.toList
  match Json.Reader.read? .exact tokens with
  | none => .error .malformed
  | some (v, n) =>
    match ofJson? v with
    | none => .error .mismatched
    | some mutations => if (tokens.drop n).isEmpty then .ok mutations else .error .malformed

/-- What is said of a text that is no script; `malformed` is said of what is not JSON. -/
def message (malformed : String) (fault : Json.Fault) : String :=
  "Invalid mutation script: " ++
    match fault with
    | .malformed => malformed
    | .mismatched => "data did not match any variant of untagged enum Script"

end Script

end MarkupEdit
