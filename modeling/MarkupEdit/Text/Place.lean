import MarkupEdit.Text.Bytes

/-!
Places of a text, for searches that go back from an offset. Each place carries the text from
there on, so that what starts at it can be read at once.
-/

namespace MarkupEdit

structure Place where
  offset : Nat
  rest : Bytes

namespace Place

/-- The places before offset `stop`, the last one first, put in front of `later`. The scan
stands at offset `i`, and `s` is the text from there on. -/
def backwardFrom (stop i : Nat) (later : List Place) : Bytes → List Place
  | [] => later
  | c :: t => if i < stop then backwardFrom stop (i + 1) (⟨i, c :: t⟩ :: later) t else later

def backward (text : Bytes) (stop : Nat) : List Place := backwardFrom stop 0 [] text

end Place

end MarkupEdit
