import MarkupEdit.Edit.Tag

/-!
Changes to the classes of an element. A class list is a text of words.
-/

namespace MarkupEdit.Edit

/-- The class attribute of a tag that has none yet: the one of components, where the tag is
one or the document uses that attribute anywhere. -/
def newClassName (text tagName : Bytes) : Classes.AttributeName :=
  if tagName.head?.any Byte.isUpper ∨ text.hasSubtext (utf8 "className=") then .component
  else .plain

def setClassesOf (text id : Bytes) (tag : OpenTag) (classes : Bytes) : Plan :=
  let attributes := tag.attributes text
  match Classes.choose? Classes.writeOrder attributes with
  | some (a, _) => .ok [a.replaceValue (Encoding.doubleQuoted.format classes)]
  | none =>
    match attributes.find? Classes.isClassAttribute with
    | some a => .error (.dynamicBinding id a.name)
    | none =>
      .ok [tag.insertAttribute text (writeAttribute (newClassName text tag.name).bytes classes)]

def setClasses (text id classes : Bytes) : Plan := do
  let tag ← findTag text id
  setClassesOf text id tag classes

/-- The class value of a tag, `none` when it has no class attribute; refused when it has some,
but none of them literal. -/
def currentClasses (text id : Bytes) (tag : OpenTag) : Except Refusal (Option Bytes) :=
  let attributes := tag.attributes text
  match Classes.literal? attributes with
  | some classes => .ok (some classes)
  | none =>
    match attributes.find? Classes.isClassAttribute with
    | some a => .error (.dynamicBinding id a.name)
    | none => .ok none

def distinct (classes : List Bytes) : List Bytes :=
  classes.foldl (fun seen c => if seen.contains c then seen else seen ++ [c]) []

def addClass (text id classes : Bytes) : Plan := do
  let tag ← findTag text id
  let current := ((← currentClasses text id tag).getD []).words
  if classes.words.all current.contains then pure []
  else setClassesOf text id tag (Bytes.unwords (distinct (current ++ classes.words)))

def removeClass (text id classes : Bytes) : Plan := do
  let tag ← findTag text id
  match ← currentClasses text id tag with
  | none => pure []
  | some current =>
    let removed := classes.words
    if current.words.any removed.contains then
      setClassesOf text id tag
        (Bytes.unwords (distinct (current.words.filter fun c => !removed.contains c)))
    else pure []

end MarkupEdit.Edit
