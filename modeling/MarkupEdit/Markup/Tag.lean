import MarkupEdit.Text.Bytes

/-!
Tags: their names, what is known of an opening and of a closing tag, and the elements that are
no more than an opening tag.
-/

namespace MarkupEdit

/-- Letters, digits and the marks of dotted, qualified and hyphenated names. -/
def isNameByte (b : UInt8) : Bool :=
  Byte.isAlphanumeric b || b == Byte.underscore || b == Byte.hyphen || b == Byte.dot ||
    b == Byte.colon || b == Byte.dollar

def voidElements : List Bytes :=
  ["area", "base", "br", "col", "embed", "hr", "img", "input", "link", "meta", "param", "source",
    "track", "wbr"].map utf8

def isVoidElement (name : Bytes) : Bool := voidElements.contains name

structure OpenTag where
  start : Nat
  name : Bytes
  /-- Where the `>` or `/>` stands that ends the tag. -/
  bodyEnd : Nat
  slashed : Bool
  deriving DecidableEq

namespace OpenTag

def nameEnd (tag : OpenTag) : Nat := tag.start + 1 + tag.name.length

def stop (tag : OpenTag) : Nat := tag.bodyEnd + if tag.slashed then 2 else 1

/-- The element is no more than its opening tag. -/
def closesItself (tag : OpenTag) : Bool := tag.slashed || isVoidElement tag.name

end OpenTag

structure CloseTag where
  name : Bytes
  stop : Nat
  deriving DecidableEq

/-- The closing tag whose text behind `</` stands at offset `i`: a name, which is empty for a
fragment, white space and `>`. -/
def CloseTag.after? (i : Nat) (s : Bytes) : Option CloseTag :=
  let name := s.takeWhile isNameByte
  let tail := s.drop name.length
  let gap := tail.takeWhile Byte.isBlank
  match tail.drop gap.length with
  | [] => none
  | c :: _ => if c = Byte.greater then some ⟨name, i + name.length + gap.length + 1⟩ else none

end MarkupEdit
