import MarkupEdit.Text.Search
import MarkupEdit.Text.Space

/-!
Inline styles: declarations `name: value` between semicolons. A piece without a colon is kept
as it is. White space around names, values and pieces does not count.
-/

namespace MarkupEdit.Style

inductive Declaration where
  | property (name value : Bytes)
  | other (piece : Bytes)
  deriving DecidableEq

namespace Declaration

/-- A declaration of the given property; the case of ASCII letters does not count. -/
def isOf (property : Bytes) : Declaration → Bool
  | .property name _ => name.sameIgnoringCase property
  | .other _ => false

/-- The declaration that a trimmed piece of a style is; the first colon ends the name. -/
def ofPiece (piece : Bytes) : Declaration :=
  match piece.idxOf? Byte.colon with
  | none => other piece
  | some width => property (Bytes.trim (piece.take width)) (Bytes.trim (piece.drop (width + 1)))

def format : Declaration → Bytes
  | .property name value => name ++ (utf8 ": " ++ value)
  | .other piece => piece

end Declaration

def parse (style : Bytes) : List Declaration :=
  (((style.pieces Byte.semicolon).map Bytes.trim).filter (!·.isEmpty)).map Declaration.ofPiece

def format (declarations : List Declaration) (closed : Bool) : Bytes :=
  let style := (utf8 "; ").intercalate (declarations.map Declaration.format)
  if closed && !style.isEmpty then style ++ [Byte.semicolon] else style

def isClosed (style : Bytes) : Bool := style.trimEnd.getLast? == some Byte.semicolon

/-- The declarations with a value for a property: the first declaration of it is changed, or a
new one stands last. -/
def set (property value : Bytes) : List Declaration → List Declaration
  | [] => [.property property value]
  | .property name old :: rest =>
    if name.sameIgnoringCase property then .property name value :: rest
    else .property name old :: set property value rest
  | .other piece :: rest => .other piece :: set property value rest

def remove (property : Bytes) (declarations : List Declaration) : List Declaration :=
  declarations.filter fun d => !d.isOf property

def isPropertyName (name : Bytes) : Bool :=
  !name.isEmpty &&
    name.all fun b => Byte.isAlphanumeric b || b == Byte.hyphen || b == Byte.underscore

end MarkupEdit.Style
