import MarkupEdit.Text.Line
import MarkupEdit.Markup.Location
import MarkupEdit.Refusal

/-!
Replacing, inserting, removing and moving whole elements. Each element is located in the text
that an edit is given; a move locates its target again once the element is gone.
-/

namespace MarkupEdit

inductive Side where
  | before
  | after
  deriving DecidableEq, Repr

namespace Edit

def locateClosed (text id : Bytes) : Except Refusal Location :=
  match locate? text id with
  | none => .error (.notFound id)
  | some loc => if loc.closed then .ok loc else .error (.unbalanced id)

/-- Puts markup next to an element, on a line of its own that is indented like the line of the
element. -/
def insertBeside (text : Bytes) (loc : Location) (markup : Bytes) (side : Side) : Patch :=
  let lineBreak := Byte.lineFeed :: text.lineIndent loc.start
  match side with
  | .after => .insertion loc.stop (lineBreak ++ markup)
  | .before => .insertion loc.start (markup ++ lineBreak)

def replaceElement (text id markup : Bytes) : Plan := do
  let loc ← locateClosed text id
  pure [⟨loc.start, loc.stop, markup⟩]

def insertElement (text id markup : Bytes) (side : Side) : Plan := do
  let loc ← locateClosed text id
  pure [insertBeside text loc markup side]

/-- The width of the line break at the front of a text, if one is there or the text is over. -/
def lineBreakWidth? (text : Bytes) : Option Nat :=
  match text with
  | [] => some 0
  | c :: t =>
    if c = Byte.lineFeed then some 1
    else if c = Byte.carriageReturn ∧ t.head? = some Byte.lineFeed then some 2
    else none

/-- Takes an element away and, where it is alone on its lines, the indentation in front and the
line break behind. -/
def removeLocated (text : Bytes) (loc : Location) : Patch :=
  let line := text.lineStart loc.start
  let trailing := (text.drop loc.stop).takeWhile Byte.isIndent
  match lineBreakWidth? (text.drop (loc.stop + trailing.length)) with
  | none => .removal loc.start loc.stop
  | some width =>
    if (text.slice line loc.start).all Byte.isIndent then
      .removal line (loc.stop + trailing.length + width)
    else .removal loc.start loc.stop

def removeElement (text id : Bytes) : Plan := do
  let loc ← locateClosed text id
  pure [removeLocated text loc]

def moveElement (text id target : Bytes) (side : Side) : Plan := do
  let loc ← locateClosed text id
  match locate? text target with
  | none => .error (.notFound target)
  | some goal =>
    if loc.start ≤ goal.start ∧ goal.start < loc.stop then .error (.invalidMove id target)
    else
      let removal := removeLocated text loc
      let left := removal.apply text
      let goal ← locateClosed left target
      pure [removal, insertBeside left goal loc.outer side]

end Edit

end MarkupEdit
