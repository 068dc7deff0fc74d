import MarkupEdit.Text.Search
import MarkupEdit.Markup.Attribute

/-!
Markers: the attribute `data-eid="id"` that names an element. A marker counts only where white
space stands in front of it.
-/

namespace MarkupEdit.Marker

def attributeName : Bytes := utf8 "data-eid"

def opening : Bytes := attributeName ++ utf8 "=\""

def ofId (id : Bytes) : Bytes := opening ++ id ++ [Byte.doubleQuote]

/-- White space stands in front of the offset. -/
def isFresh (text : Bytes) (offset : Nat) : Bool :=
  match offset with
  | 0 => false
  | before + 1 => (text.drop before).head?.any Byte.isBlank

def offsets (text : Bytes) (id : Bytes) : List Nat :=
  (text.occurrences (ofId id)).filter (isFresh text)

/-- The id of a marker at an offset; it runs up to the next quote. -/
def idAt? (text : Bytes) (offset : Nat) : Option Bytes :=
  let tail := text.drop (offset + opening.length)
  (tail.idxOf? Byte.doubleQuote).map fun width => tail.take width

def idsBetween (text : Bytes) (start stop : Nat) : List Bytes :=
  ((text.slice start stop).occurrences opening).filterMap fun width =>
    if isFresh text (start + width) then idAt? text (start + width) else none

/-- The id that an opening tag carries, where `s` is the text from the start of the tag on. -/
def idIn? (s : Bytes) (tag : OpenTag) : Option Bytes :=
  match (tag.attributesIn s).find? (·.name = attributeName) with
  | none => none
  | some a => (idsBetween s (a.start - tag.start) (a.stop - tag.start)).head?

end MarkupEdit.Marker
