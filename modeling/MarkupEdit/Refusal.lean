import MarkupEdit.Text.Patch
import MarkupEdit.Text.Quoted

/-!
Why an edit leaves a document as it is.
-/

namespace MarkupEdit

inductive Refusal where
  | notFound (id : Bytes)
  | unbalanced (id : Bytes)
  | dynamicBinding (id name : Bytes)
  | ambiguousText (id : Bytes)
  | selfClosing (id : Bytes)
  | invalidMove (id target : Bytes)
  | reservedAttribute (name : Bytes)
  | invalidAttributeName (name : Bytes)
  | invalidStyleProperty (property : Bytes)
  deriving DecidableEq

def Refusal.message : Refusal → String
  | notFound id => s!"Element not found: {id.text}"
  | unbalanced id => s!"Element {id.text} has no balanced closing tag"
  | dynamicBinding id name =>
    s!"Attribute `{name.text}` on element {id.text} is bound to an expression"
  | ambiguousText id => s!"Text replacement in element {id.text} is ambiguous"
  | selfClosing id => s!"Element {id.text} is self-closing and has no content"
  | invalidMove id target => s!"Cannot move element {id.text} relative to {target.text}"
  | reservedAttribute name => s!"Attribute `{name.text}` is reserved for element identifiers"
  | invalidAttributeName name => "Invalid attribute name: " ++ Quoted.encode name.text
  | invalidStyleProperty property => "Invalid style property: " ++ Quoted.encode property.text

/-- The patches that an edit makes, in order, or why it is refused. -/
abbrev Plan := Except Refusal (List Patch)

end MarkupEdit
