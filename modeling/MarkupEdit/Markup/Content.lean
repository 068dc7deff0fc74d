import MarkupEdit.Markup.Units

/-!
The content of an element: runs of its own text between child elements, fragments, comments,
declarations and brace blocks.
-/

namespace MarkupEdit

inductive Child where
  | text
  /-- A unit that ends at the offset. -/
  | unit (stop : Nat)
  /-- A block or declaration that never ends. -/
  | unclosed
  deriving DecidableEq

namespace Child

def ofEnd (otherwise : Child) : Option Nat → Child
  | none => otherwise
  | some stop => unit stop

/-- What stands at offset `i`, where the document goes on as given. A `<` that opens no whole
element is text, and so is a closing tag. -/
def read (i : Nat) : Bytes → Child
  | [] => text
  | c :: t =>
    if c = Byte.openBrace then ofEnd unclosed (Scan.blockEnd (i + 1) 0 t)
    else if c = Byte.less then
      if t.head? = some Byte.bang then ofEnd unclosed (Scan.declarationEnd (i + 2) (t.drop 1))
      else ofEnd text (Scan.elementEnd i t)
    else text

end Child

structure Content where
  /-- Where the runs of text start and stop. -/
  runs : List (Nat × Nat)
  /-- There is something else than text. -/
  nested : Bool
  deriving DecidableEq

namespace Content

def run (start stop : Nat) : List (Nat × Nat) := if start < stop then [(start, stop)] else []

/-- The content from offset `i` up to `stop`, in a run of text that began at `start`. -/
def scan? (stop start i : Nat) : Bytes → Option Content
  | [] => some ⟨run start stop, false⟩
  | c :: t =>
    if stop ≤ i then some ⟨run start stop, false⟩
    else
      match Child.read i (c :: t) with
      | .unclosed => none
      | .text => scan? stop start (i + 1) t
      | .unit j =>
        match scan? stop j j (Scan.goOn (i + 1) j t) with
        | none => none
        | some later => some ⟨run start i ++ later.runs, true⟩
termination_by s => s.length
decreasing_by all_goals (simp only [List.length_cons, List.length_drop]; omega)

def between? (text : Bytes) (start stop : Nat) : Option Content :=
  scan? stop start start (text.drop start)

end Content

end MarkupEdit
