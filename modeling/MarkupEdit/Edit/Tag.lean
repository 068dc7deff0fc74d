import MarkupEdit.Markup.Location
import MarkupEdit.Refusal

/-!
Changes inside one opening tag. Only literal values are replaced: with a binding to an expression
what the expression computes would be lost.
-/

namespace MarkupEdit

def findTag (text id : Bytes) : Except Refusal OpenTag :=
  match locateTag? text id with
  | none => .error (.notFound id)
  | some tag => .ok tag

namespace OpenTag

def attribute? (text : Bytes) (tag : OpenTag) (name : Bytes) : Option Attribute :=
  (tag.attributes text).find? (·.name = name)

/-- Puts a new attribute right behind the marker, or at the end of a tag that has no marker. -/
def insertAttribute (text : Bytes) (tag : OpenTag) (addition : Bytes) : Patch :=
  let place := match tag.attribute? text Marker.attributeName with
    | none => tag.trimmedEnd text
    | some marker => marker.stop
  .insertion place (Byte.space :: addition)

/-- Takes an attribute of the tag away, and the white space in front of it. -/
def removeAttribute (text : Bytes) (tag : OpenTag) (a : Attribute) : Patch :=
  let gap := (text.slice tag.nameEnd a.start).reverse.takeWhile Byte.isBlank
  .removal (a.start - gap.length) a.stop

end OpenTag

def Attribute.replaceValue (a : Attribute) (raw : Bytes) : Patch :=
  match a.value with
  | none => .insertion a.nameEnd (Byte.equals :: raw)
  | some value => ⟨value.start, value.start + value.text.length, raw⟩

def writeAttribute (name value : Bytes) : Bytes :=
  name ++ Byte.equals :: Encoding.doubleQuoted.format value

end MarkupEdit
