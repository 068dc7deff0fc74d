import MarkupEdit.Text.Line
import MarkupEdit.Markup.Location
import MarkupEdit.Refusal

/-!
The neighbours of an element, found without a tree. The content of the parent is searched for
backward and forward from the element; the elements with a marker in it, on lines indented like
that of the element, are its siblings.
-/

namespace MarkupEdit

structure Siblings where
  previous : Option Bytes
  next : Option Bytes
  deriving DecidableEq

namespace Siblings

def alone : Siblings := ⟨none, none⟩

/-- The offset of the brace that opens the block which is still open when `depth` more blocks
are opened, going back from the given places. -/
def openingBrace? (depth : Nat) : List Place → Option Nat
  | [] => none
  | place :: rest =>
    match place.rest.head? with
    | none => openingBrace? depth rest
    | some c =>
      if c = Byte.closeBrace then openingBrace? (depth + 1) rest
      else if c = Byte.openBrace then
        if depth = 0 then some place.offset else openingBrace? (depth - 1) rest
      else openingBrace? depth rest

def standsAt (b : UInt8) (places : List Place) : Bool :=
  places.head?.any fun place => place.rest.head? == some b

/-- The offset of the comment that ends in a `>` which the given places stand before. -/
def commentStart? (places : List Place) : Option Nat :=
  if standsAt Byte.hyphen places ∧ standsAt Byte.hyphen (places.drop 1) then
    ((places.drop 3).find? fun place => (utf8 "<!--").isPrefixOf place.rest).map (·.offset)
  else none

inductive Turn where
  | opens (stop : Nat)
  | closes
  | neither

/-- Reads the tag at a `<` behind which `t` stands; a tag that reaches beyond `before` does not
count, nor does one that closes itself. -/
def turnAt (before start : Nat) (t : Bytes) : Turn :=
  if t.head? = some Byte.slash then
    match CloseTag.after? (start + 2) (t.drop 1) with
    | none => .neither
    | some close => if close.stop ≤ before then .closes else .neither
  else if t.head? = some Byte.greater then .opens (start + 2)
  else
    match Scan.openTag? start t with
    | none => .neither
    | some tag =>
      if tag.stop ≤ before ∧ tag.closesItself = false then .opens tag.stop else .neither

/-- The offset just past the nearest opening tag that `depth` closing tags passed so far leave
unmatched, going back from the given places. A comment or a block that ended is passed over; a
block that is still open is not seen. -/
def parentStart (before depth : Nat) : List Place → Nat
  | [] => 0
  | place :: rest =>
    match place.rest with
    | [] => parentStart before depth rest
    | c :: t =>
      if c = Byte.greater then
        match commentStart? rest with
        | none => parentStart before depth rest
        | some start => parentStart before depth (rest.drop (place.offset - start))
      else if c = Byte.closeBrace then
        match openingBrace? 0 rest with
        | none => 0
        | some start => parentStart before depth (rest.drop (place.offset - start))
      else if c = Byte.less then
        match turnAt before place.offset t with
        | .neither => parentStart before depth rest
        | .closes => parentStart before (depth + 1) rest
        | .opens stop => if depth = 0 then stop else parentStart before (depth - 1) rest
      else parentStart before depth rest
termination_by places => places.length
decreasing_by all_goals (simp only [List.length_cons, List.length_drop]; omega)

/-- The offset of the closing tag that leaves `depth` open elements behind, or where the text
ends, from offset `i` on. A block or declaration that never ends reaches to the end. -/
def parentEnd (i depth : Nat) : Bytes → Nat
  | [] => i
  | c :: t =>
    if c = Byte.openBrace then
      match Scan.blockEnd (i + 1) 0 t with
      | none => i + 1 + t.length
      | some j => parentEnd j depth (Scan.goOn (i + 1) j t)
    else if c = Byte.less then
      if t.head? = some Byte.slash then
        match CloseTag.after? (i + 2) (t.drop 1) with
        | none => parentEnd (i + 1) depth t
        | some close =>
          if depth = 0 then i
          else parentEnd close.stop (depth - 1) (Scan.goOn (i + 1) close.stop t)
      else if t.head? = some Byte.bang then
        match Scan.declarationEnd (i + 2) (t.drop 1) with
        | none => i + 1 + t.length
        | some j => parentEnd j depth (Scan.goOn (i + 1) j t)
      else if t.head? = some Byte.greater then parentEnd (i + 2) (depth + 1) (t.drop 1)
      else
        match Scan.openTag? i t with
        | none => parentEnd (i + 1) depth t
        | some tag =>
          parentEnd tag.stop (if tag.closesItself then depth else depth + 1)
            (Scan.goOn (i + 1) tag.stop t)
    else parentEnd (i + 1) depth t
termination_by s => s.length
decreasing_by all_goals (simp only [List.length_cons, List.length_drop]; omega)

structure Marked where
  start : Nat
  id : Bytes
  deriving DecidableEq

def marked (s : Bytes) (tag : OpenTag) : List Marked :=
  match Marker.idIn? s tag with
  | none => []
  | some id => [⟨tag.start, id⟩]

def elementStop (tag : OpenTag) (i : Nat) (t : Bytes) : Nat :=
  if tag.closesItself then tag.stop
  else (Scan.contentEnd tag.stop tag.name 0 (Scan.goOn i tag.stop t)).getD tag.stop

/-- The marked elements from offset `i` up to `stop` that are not inside another element. Blocks
are passed over, except one that holds the element at `target`. -/
def children (target stop i : Nat) : Bytes → List Marked
  | [] => []
  | c :: t =>
    if stop ≤ i then []
    else if c = Byte.openBrace then
      match Scan.blockEnd (i + 1) 0 t with
      | none => []
      | some j =>
        if i < target ∧ target < j then children target stop (i + 1) t
        else children target stop j (Scan.goOn (i + 1) j t)
    else if c = Byte.less then
      if t.head? = some Byte.bang then
        match Scan.declarationEnd (i + 2) (t.drop 1) with
        | none => []
        | some j => children target stop j (Scan.goOn (i + 1) j t)
      else if t.head? = some Byte.slash then
        match CloseTag.after? (i + 2) (t.drop 1) with
        | none => children target stop (i + 1) t
        | some close => children target stop close.stop (Scan.goOn (i + 1) close.stop t)
      else
        match Scan.openTag? i t with
        | none => children target stop (i + 1) t
        | some tag =>
          let j := elementStop tag (i + 1) t
          marked (c :: t) tag ++ children target stop j (Scan.goOn (i + 1) j t)
    else children target stop (i + 1) t
termination_by s => s.length
decreasing_by all_goals (simp only [List.length_cons, List.length_drop]; omega)

def around (target : Nat) (alike : Marked → Bool) (elements : List Marked) : Siblings :=
  match elements.dropWhile (·.start != target) with
  | [] => alone
  | _ :: later =>
    let earlier := elements.takeWhile (·.start != target)
    ⟨(earlier.reverse.find? alike).map (·.id), (later.find? alike).map (·.id)⟩

def ofLocation (text : Bytes) (loc : Location) : Siblings :=
  let start := parentStart loc.start 0 (Place.backward text loc.start)
  let stop := max (parentEnd loc.stop 0 (text.drop loc.stop)) loc.stop
  let indent := text.lineIndent loc.start
  around loc.start (fun x => text.lineIndent x.start == indent)
    (children loc.start stop start (text.drop start))

end Siblings

def siblings (text id : Bytes) : Except Refusal Siblings :=
  match locate? text id with
  | none => .error (.notFound id)
  | some loc => .ok (Siblings.ofLocation text loc)

def siblingsOrAlone (text id : Bytes) : Siblings := (siblings text id).toOption.getD Siblings.alone

end MarkupEdit
