import MarkupEdit.Edit.Attribute
import MarkupEdit.Edit.Classes
import MarkupEdit.Edit.Element
import MarkupEdit.Edit.Style
import MarkupEdit.Edit.Text

/-!
Mutations: the edits of a document as values, each on one marked element. A mutation either plans
all of its patches or is refused.
-/

namespace MarkupEdit

inductive Mutation where
  | replaceElement (id markup : String)
  | insertAfter (id markup : String)
  | insertBefore (id markup : String)
  | removeElement (id : String)
  | moveElement (id target : String) (side : Side)
  | updateClasses (id classes : String)
  | addClass (id classes : String)
  | removeClass (id classes : String)
  | updateText (id text : String) (old : Option String)
  | setAttribute (id name value : String)
  | removeAttribute (id name : String)
  | setInlineStyle (id property value : String)
  | removeInlineStyle (id property : String)
  deriving DecidableEq

def Side.name : Side → String
  | before => "before"
  | after => "after"

namespace Mutation

def elementId : Mutation → String
  | replaceElement id _ | insertAfter id _ | insertBefore id _ | removeElement id
  | moveElement id _ _ | updateClasses id _ | addClass id _ | removeClass id _
  | updateText id _ _ | setAttribute id _ _ | removeAttribute id _ | setInlineStyle id _ _
  | removeInlineStyle id _ => id

def description : Mutation → String
  | replaceElement id _ => s!"Replace {id}"
  | insertAfter id _ => s!"Insert after {id}"
  | insertBefore id _ => s!"Insert before {id}"
  | removeElement id => s!"Remove {id}"
  | moveElement id target side => s!"Move {id} {side.name} {target}"
  | updateClasses id _ => s!"Set classes of {id}"
  | addClass id classes => s!"Add class {classes} to {id}"
  | removeClass id classes => s!"Remove class {classes} from {id}"
  | updateText id _ _ => s!"Edit text of {id}"
  | setAttribute id name _ => s!"Set {name} on {id}"
  | removeAttribute id name => s!"Remove {name} from {id}"
  | setInlineStyle id property _ => s!"Set style {property} on {id}"
  | removeInlineStyle id property => s!"Remove style {property} from {id}"

def plan (text : Bytes) : Mutation → Plan
  | replaceElement id markup => Edit.replaceElement text (utf8 id) (utf8 markup)
  | insertAfter id markup => Edit.insertElement text (utf8 id) (utf8 markup) .after
  | insertBefore id markup => Edit.insertElement text (utf8 id) (utf8 markup) .before
  | removeElement id => Edit.removeElement text (utf8 id)
  | moveElement id target side => Edit.moveElement text (utf8 id) (utf8 target) side
  | updateClasses id classes => Edit.setClasses text (utf8 id) (utf8 classes)
  | addClass id classes => Edit.addClass text (utf8 id) (utf8 classes)
  | removeClass id classes => Edit.removeClass text (utf8 id) (utf8 classes)
  | updateText id new old => Edit.setText text (utf8 id) (utf8 new) (old.map utf8)
  | setAttribute id name value => Edit.setAttribute text (utf8 id) (utf8 name) (utf8 value)
  | removeAttribute id name => Edit.removeAttribute text (utf8 id) (utf8 name)
  | setInlineStyle id property value =>
    Edit.setStyle text (utf8 id) (utf8 property) (utf8 value)
  | removeInlineStyle id property => Edit.removeStyle text (utf8 id) (utf8 property)

def apply (text : Bytes) (m : Mutation) : Except Refusal Bytes := (m.plan text).map text.patch

/-- The text after a mutation; one that is refused leaves it as it is. -/
def applyOrKeep (text : Bytes) (m : Mutation) : Bytes :=
  match m.apply text with
  | .ok new => new
  | .error _ => text

end Mutation

end MarkupEdit
