import MarkupEdit.Text.Search

/-!
Lines of a text end at line feeds. The indentation of a line is its leading blanks and tabs.
-/

namespace MarkupEdit.Bytes

/-- The offset where the line holding `offset` starts. -/
def lineStart (text : Bytes) (offset : Nat) : Nat :=
  match Bytes.lastIndex? (text.take offset) [Byte.lineFeed] with
  | none => 0
  | some i => i + 1

def lineIndent (text : Bytes) (offset : Nat) : Bytes :=
  (text.drop (text.lineStart offset)).takeWhile Byte.isIndent

end MarkupEdit.Bytes
