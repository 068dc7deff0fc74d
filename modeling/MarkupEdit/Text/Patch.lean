import MarkupEdit.Text.Bytes

/-!
Patches: what an edit does to a text, as data. A text changes nowhere but in the ranges of its
patches; those of one edit are applied in order, each to the text that the ones before it left.
-/

namespace MarkupEdit

/-- A replacement for the bytes from offset `start` up to `stop`. -/
structure Patch where
  start : Nat
  stop : Nat
  replacement : Bytes
  deriving DecidableEq

namespace Patch

def insertion (offset : Nat) (addition : Bytes) : Patch := ⟨offset, offset, addition⟩

def removal (start stop : Nat) : Patch := ⟨start, stop, []⟩

def apply (p : Patch) (text : Bytes) : Bytes := text.splice p.start p.stop p.replacement

end Patch

def Bytes.patch (text : Bytes) (patches : List Patch) : Bytes :=
  patches.foldl (fun text p => p.apply text) text

theorem patch_cons (text : Bytes) (p : Patch) (patches : List Patch) :
    text.patch (p :: patches) = (p.apply text).patch patches := rfl

end MarkupEdit
