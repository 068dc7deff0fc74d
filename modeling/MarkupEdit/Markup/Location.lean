import MarkupEdit.Text.Place
import MarkupEdit.Markup.Marker
import MarkupEdit.Markup.Classes

/-!
Where an element stands in a document. An element is named by the marker in its opening tag;
the tag that owns a marker is the nearest one before it that has an attribute starting there.
-/

namespace MarkupEdit

structure Location where
  start : Nat
  /-- The offset just past the element, or past its opening tag if that is never closed. -/
  stop : Nat
  openEnd : Nat
  outer : Bytes
  tag : Bytes
  classes : Option Bytes
  selfClosing : Bool
  /-- The element closes itself, or a closing tag for it was found. -/
  closed : Bool
  deriving DecidableEq

namespace Location

def openingTag (loc : Location) : Bytes := loc.outer.take (loc.openEnd - loc.start)

/-- The offsets between which the content of an element stands; an element that closes itself
or is never closed has none. -/
def innerRange? (loc : Location) : Option (Nat × Nat) :=
  if loc.selfClosing = true ∨ loc.closed = false then none
  else (loc.outer.lastIndex? (utf8 "</")).map fun close => (loc.openEnd, loc.start + close)

end Location

/-- The opening tag that starts at a place and reaches beyond `marker`, where one of its
attributes starts. -/
def ownerAt? (marker : Nat) (place : Place) : Option OpenTag :=
  match place.rest with
  | [] => none
  | c :: t =>
    if c = Byte.less then
      match Scan.openTag? place.offset t with
      | none => none
      | some tag =>
        if marker < tag.stop ∧ (tag.attributesIn (c :: t)).any (·.start = marker) then some tag
        else none
    else none

/-- The opening tag that a marker belongs to. A `<` nearer to the marker may be a comparison,
or markup inside an expression; such a one has no attribute there. -/
def owner? (text : Bytes) (marker : Nat) : Option OpenTag :=
  (Place.backward text marker).findSome? (ownerAt? marker)

def locateTag? (text id : Bytes) : Option OpenTag :=
  (Marker.offsets text id).findSome? (owner? text)

def OpenTag.location (text : Bytes) (tag : OpenTag) : Location :=
  let close := if tag.closesItself then some tag.stop else Units.contentEnd text tag.stop tag.name
  let stop := close.getD tag.stop
  { start := tag.start
    stop
    openEnd := tag.stop
    outer := text.slice tag.start stop
    tag := tag.name
    classes := Classes.literal? (tag.attributes text)
    selfClosing := tag.closesItself
    closed := close.isSome }

def locate? (text id : Bytes) : Option Location := (locateTag? text id).map (·.location text)

def readClasses? (text id : Bytes) : Option Bytes :=
  (locateTag? text id).bind fun tag => Classes.literal? (tag.attributes text)

def readAttribute? (text id name : Bytes) : Option AttributeValue :=
  (locateTag? text id).bind fun tag =>
    ((tag.attributes text).find? (·.name = name)).map (·.classify)

end MarkupEdit
