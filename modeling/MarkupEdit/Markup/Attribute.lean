import MarkupEdit.Markup.Units

/-!
The attributes of an opening tag, in the order in which they are written. Spread blocks are
passed over, and so is a stray `=` or quote. Values are delimited as in `Scan`, which looks at
the text beyond the tag too; a value never reaches beyond the end of its tag.
-/

namespace MarkupEdit

/-- The value of an attribute as written, delimiters included. -/
structure RawValue where
  start : Nat
  text : Bytes
  deriving DecidableEq

structure Attribute where
  start : Nat
  name : Bytes
  value : Option RawValue
  deriving DecidableEq

namespace Attribute

def nameEnd (a : Attribute) : Nat := a.start + a.name.length

def stop (a : Attribute) : Nat :=
  match a.value with
  | none => a.nameEnd
  | some value => value.start + value.text.length

def raw (a : Attribute) : Option Bytes := a.value.map (·.text)

def isAttributeNameByte (b : UInt8) : Bool :=
  !(Byte.isBlank b || b == Byte.equals || b == Byte.slash || b == Byte.openBrace ||
    Byte.isQuote b || b == Byte.backtick)

/-- Past the value at offset `i`: a delimited unit, or bytes up to white space or `limit`. -/
def valueEnd (limit i : Nat) : Bytes → Option Nat
  | [] => some i
  | c :: t =>
    if Byte.isQuote c then Scan.quotedEnd c (i + 1) t
    else if c = Byte.backtick then Scan.templateEnd (i + 1) t
    else if c = Byte.openBrace then Scan.blockEnd (i + 1) 0 t
    else some (i + (((c :: t).take (limit - i)).takeWhile (!Byte.isBlank ·)).length)

def blankWidth (limit i : Nat) (s : Bytes) : Nat :=
  ((s.take (limit - i)).takeWhile Byte.isBlank).length

/-- The raw value of the attribute whose name ends at offset `i`, or `none` when no `=` follows.
The outer `none` stands for a value that is never closed. -/
def rawValue? (limit i : Nat) (s : Bytes) : Option (Option RawValue) :=
  let gap := blankWidth limit i s
  if i + gap < limit ∧ (s.drop gap).head? = some Byte.equals then
    let s := s.drop (gap + 1)
    let i := i + gap + 1
    let gap := blankWidth limit i s
    (valueEnd limit (i + gap) (s.drop gap)).map fun stop =>
      some ⟨i + gap, (s.drop gap).take (min stop limit - (i + gap))⟩
  else some none

/-- The attributes from offset `i` on, where the text goes on as given, in a tag whose body
ends at `limit`. The first value that is never closed ends the list. -/
def scan (limit i : Nat) : Bytes → List Attribute
  | [] => []
  | c :: t =>
    if limit ≤ i then []
    else if Byte.isBlank c ∨ c = Byte.slash then scan limit (i + 1) t
    else if c = Byte.openBrace then
      match Scan.blockEnd (i + 1) 0 t with
      | none => []
      | some j => scan limit j (Scan.goOn (i + 1) j t)
    else if isAttributeNameByte c then
      let tail := (t.take (limit - (i + 1))).takeWhile isAttributeNameByte
      match rawValue? limit (i + 1 + tail.length) (t.drop tail.length) with
      | none => []
      | some value =>
        let a : Attribute := ⟨i, c :: tail, value⟩
        a :: scan limit a.stop (Scan.goOn (i + 1) a.stop t)
    else scan limit (i + 1) t
termination_by s => s.length
decreasing_by all_goals (simp only [List.length_cons, List.length_drop]; omega)

end Attribute

def OpenTag.attributesIn (s : Bytes) (tag : OpenTag) : List Attribute :=
  Attribute.scan tag.bodyEnd tag.nameEnd (s.drop (tag.nameEnd - tag.start))

def OpenTag.attributes (text : Bytes) (tag : OpenTag) : List Attribute :=
  tag.attributesIn (text.drop tag.start)

/-- Where the body of a tag ends when the white space in front of `>` or `/>` is left out. -/
def OpenTag.trimmedEnd (text : Bytes) (tag : OpenTag) : Nat :=
  tag.bodyEnd -
    ((text.slice tag.nameEnd tag.bodyEnd).reverse.takeWhile Byte.isBlank).length

end MarkupEdit
