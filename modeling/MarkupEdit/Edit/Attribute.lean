import MarkupEdit.Edit.Tag

/-!
Changes to a named attribute of an element. The marker of an element cannot be changed.
-/

namespace MarkupEdit.Edit

def isAttributeName (name : Bytes) : Bool := !name.isEmpty && name.all Encoding.isPlainByte

/-- Sets an attribute to a literal value, in the encoding that it has. -/
def setAttribute (text id name value : Bytes) : Plan :=
  if name = Marker.attributeName then .error (.reservedAttribute name)
  else if isAttributeName name = false then .error (.invalidAttributeName name)
  else do
    let tag ← findTag text id
    match tag.attribute? text name with
    | none => pure [tag.insertAttribute text (writeAttribute name value)]
    | some a =>
      match a.classify with
      | .literal encoding _ => pure [a.replaceValue (encoding.format value)]
      | .bare => pure [a.replaceValue (Encoding.doubleQuoted.format value)]
      | .binding _ => .error (.dynamicBinding id name)

def removeAttribute (text id name : Bytes) : Plan :=
  if name = Marker.attributeName then .error (.reservedAttribute name)
  else do
    let tag ← findTag text id
    match tag.attribute? text name with
    | none => pure []
    | some a =>
      match a.classify with
      | .binding _ => .error (.dynamicBinding id name)
      | _ => pure [tag.removeAttribute text a]

end MarkupEdit.Edit
