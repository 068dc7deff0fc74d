import MarkupEdit.Markup.Content
import MarkupEdit.Edit.Tag

/-!
Replacing text of an element. Only the text directly inside the element changes; where other
things stand beside it, the text to replace has to be named.
-/

namespace MarkupEdit.Edit

/-- A byte of text, written so that it opens neither a tag nor a block nor a reference. -/
def escapeByte (b : UInt8) : Bytes :=
  if b = Byte.ampersand then utf8 "&amp;"
  else if b = Byte.less then utf8 "&lt;"
  else if b = Byte.greater then utf8 "&gt;"
  else if b = Byte.openBrace then utf8 "&#123;"
  else if b = Byte.closeBrace then utf8 "&#125;"
  else [b]

def escapeText (text : Bytes) : Bytes := text.flatMap escapeByte

def contentOf (text id : Bytes) : Except Refusal (Nat × Nat × Content) :=
  match locate? text id with
  | none => .error (.notFound id)
  | some loc =>
    if loc.selfClosing then .error (.selfClosing id)
    else
      match loc.innerRange? with
      | none => .error (.unbalanced id)
      | some (start, stop) =>
        match Content.between? text start stop with
        | none => .error (.unbalanced id)
        | some content => .ok (start, stop, content)

def findInRuns? (text old : Bytes) (runs : List (Nat × Nat)) : Option Nat :=
  runs.findSome? fun (start, stop) => ((text.slice start stop).index? old).map (start + ·)

/-- Replaces the text between two offsets; white space around it stays. -/
def replaceTrimmed (text : Bytes) (start stop : Nat) (replacement : Bytes) : Patch :=
  let inner := text.slice start stop
  let core := inner.trim
  if core.isEmpty then ⟨start, stop, replacement⟩
  else
    let first := start + (inner.length - inner.trimStart.length)
    ⟨first, first + core.length, replacement⟩

def setText (text id new : Bytes) (old : Option Bytes) : Plan := do
  let (start, stop, content) ← contentOf text id
  match old.filter (!·.isEmpty) with
  | some old =>
    match findInRuns? text old content.runs with
    | none => .error (.ambiguousText id)
    | some offset => pure [⟨offset, offset + old.length, escapeText new⟩]
  | none =>
    if content.nested then .error (.ambiguousText id)
    else pure [replaceTrimmed text start stop (escapeText new)]

end MarkupEdit.Edit
