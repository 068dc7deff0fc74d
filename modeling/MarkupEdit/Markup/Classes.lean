import MarkupEdit.Markup.Encoding

/-!
The class attribute of an opening tag. It has two names and several written forms; where a tag
has more than one of them, an order of forms decides which is meant.
-/

namespace MarkupEdit.Classes

/-- The attribute is called one way on plain elements and another way on components. -/
inductive AttributeName where
  | plain
  | component
  deriving DecidableEq

def AttributeName.bytes : AttributeName → Bytes
  | plain => utf8 "class"
  | component => utf8 "className"

abbrev Form := AttributeName × Encoding

def readOrder : List Form :=
  [(.plain, .doubleQuoted), (.plain, .singleQuoted), (.plain, .unquoted),
    (.component, .doubleQuoted), (.component, .singleQuoted), (.component, .bracedDouble),
    (.component, .bracedSingle), (.component, .bracedTemplate)]

def writeOrder : List Form :=
  [(.component, .doubleQuoted), (.component, .bracedSingle), (.component, .bracedTemplate),
    (.component, .bracedDouble), (.plain, .doubleQuoted), (.plain, .singleQuoted),
    (.component, .singleQuoted), (.plain, .unquoted)]

def isClassAttribute (a : Attribute) : Bool :=
  a.name = AttributeName.plain.bytes || a.name = AttributeName.component.bytes

def literalOf? (form : Form) (a : Attribute) : Option Bytes :=
  if a.name = form.1.bytes then
    match a.classify with
    | .literal encoding text => if encoding = form.2 then some text else none
    | _ => none
  else none

/-- The first attribute in the first form of `order` that some attribute is written in, and its
literal. -/
def choose? (order : List Form) (attributes : List Attribute) : Option (Attribute × Bytes) :=
  order.findSome? fun form => attributes.findSome? fun a => (literalOf? form a).map (a, ·)

def literal? (attributes : List Attribute) : Option Bytes :=
  (choose? readOrder attributes).map (·.2)

end MarkupEdit.Classes
