import MarkupEdit.Text.Search
import MarkupEdit.Markup.Tag

/-!
Where the units of markup end. Each function is given the offset `i` of a text `s`, or the offset
`start` of the `<` in front of it, and answers with the offset just past the unit that it reads, or
with nothing when the unit is never closed.
An element inside a brace block is read as a unit, and a brace block inside content is, so the
functions for templates, blocks, elements, tags and content call each other. Every call is on
a shorter text: whatever offset comes back, reading goes on in a tail of what was left.
-/

namespace MarkupEdit.Scan

abbrev goOn (i j : Nat) (s : Bytes) : Bytes := s.drop (j - i)

/-- Past the literal with the given quote whose opening quote was read. A backslash takes the
byte behind it along. -/
def quotedEnd (quote : UInt8) (i : Nat) : Bytes → Option Nat
  | [] => none
  | c :: t =>
    if c = Byte.backslash then
      match t with
      | [] => none
      | _ :: u => quotedEnd quote (i + 2) u
    else if c = quote then some (i + 1)
    else quotedEnd quote (i + 1) t

/-- Past the declaration whose `<!` was read: a comment runs to the next `-->`, any other
declaration to the next `>`. -/
def declarationEnd (i : Nat) (s : Bytes) : Option Nat :=
  if (utf8 "--").isPrefixOf s then
    (Bytes.indexFrom? (utf8 "-->") (i + 2) (s.drop 2)).map (· + 3)
  else (Bytes.indexFrom? [Byte.greater] i s).map (· + 1)

mutual

def templateEnd (i : Nat) : Bytes → Option Nat
  | [] => none
  | c :: t =>
    if c = Byte.backslash then templateEnd (i + 2) (t.drop 1)
    else if c = Byte.backtick then some (i + 1)
    else if c = Byte.dollar ∧ t.head? = some Byte.openBrace then
      match blockEnd (i + 2) 0 (t.drop 1) with
      | none => none
      | some j => templateEnd j (goOn (i + 1) j t)
    else templateEnd (i + 1) t
termination_by s => 2 * s.length
decreasing_by all_goals (simp only [List.length_cons, List.length_drop]; omega)

/-- Past the brace block that is still open when `depth` more braces are closed. A `<` that
starts no whole element is a comparison and stands for itself. -/
def blockEnd (i depth : Nat) : Bytes → Option Nat
  | [] => none
  | c :: t =>
    if c = Byte.openBrace then blockEnd (i + 1) (depth + 1) t
    else if c = Byte.closeBrace then
      if depth = 0 then some (i + 1) else blockEnd (i + 1) (depth - 1) t
    else if Byte.isQuote c then
      match quotedEnd c (i + 1) t with
      | none => none
      | some j => blockEnd j depth (goOn (i + 1) j t)
    else if c = Byte.backtick then
      match templateEnd (i + 1) t with
      | none => none
      | some j => blockEnd j depth (goOn (i + 1) j t)
    else if c = Byte.less then
      match elementEnd i t with
      | none => blockEnd (i + 1) depth t
      | some j => blockEnd j depth (goOn (i + 1) j t)
    else blockEnd (i + 1) depth t
termination_by s => 2 * s.length
decreasing_by all_goals (simp only [List.length_cons, List.length_drop]; omega)

def elementEnd (start : Nat) : Bytes → Option Nat
  | [] => none
  | c :: t =>
    if c = Byte.greater then contentEnd (start + 2) [] 0 t
    else
      match openTag? start (c :: t) with
      | none => none
      | some tag =>
        if tag.closesItself then some tag.stop
        else contentEnd tag.stop tag.name 0 (goOn (start + 2) tag.stop t)
termination_by s => 2 * s.length + 1
decreasing_by all_goals (simp only [List.length_cons, List.length_drop]; omega)

def openTag? (start : Nat) : Bytes → Option OpenTag
  | [] => none
  | c :: t =>
    if Byte.isLetter c then
      let tail := t.takeWhile isNameByte
      match bodyEnd? (start + 2 + tail.length) (t.drop tail.length) with
      | none => none
      | some (bodyEnd, slashed) => some ⟨start, c :: tail, bodyEnd, slashed⟩
    else none
termination_by s => 2 * s.length
decreasing_by simp only [List.length_cons, List.length_drop]; omega

/-- The offset of the `>` or `/>` that ends the tag whose name was read, and whether it is
`/>`. A `<` that no quote or brace holds shows that this was no tag. -/
def bodyEnd? (i : Nat) : Bytes → Option (Nat × Bool)
  | [] => none
  | c :: t =>
    if Byte.isQuote c then
      match quotedEnd c (i + 1) t with
      | none => none
      | some j => bodyEnd? j (goOn (i + 1) j t)
    else if c = Byte.backtick then
      match templateEnd (i + 1) t with
      | none => none
      | some j => bodyEnd? j (goOn (i + 1) j t)
    else if c = Byte.openBrace then
      match blockEnd (i + 1) 0 t with
      | none => none
      | some j => bodyEnd? j (goOn (i + 1) j t)
    else if c = Byte.slash ∧ t.head? = some Byte.greater then some (i, true)
    else if c = Byte.greater then some (i, false)
    else if c = Byte.less then none
    else bodyEnd? (i + 1) t
termination_by s => 2 * s.length
decreasing_by all_goals (simp only [List.length_cons, List.length_drop]; omega)

/-- Past the closing tag `</name>` that leaves `depth` open elements of that name behind. The
empty name stands for fragments. -/
def contentEnd (i : Nat) (name : Bytes) (depth : Nat) : Bytes → Option Nat
  | [] => none
  | c :: t =>
    if c = Byte.openBrace then
      match blockEnd (i + 1) 0 t with
      | none => none
      | some j => contentEnd j name depth (goOn (i + 1) j t)
    else if c = Byte.less then
      if t.head? = some Byte.slash then
        match CloseTag.after? (i + 2) (t.drop 1) with
        | none => contentEnd (i + 1) name depth t
        | some close =>
          if close.name = name ∧ depth = 0 then some close.stop
          else
            contentEnd close.stop name (if close.name = name then depth - 1 else depth)
              (goOn (i + 1) close.stop t)
      else if t.head? = some Byte.bang then
        match declarationEnd (i + 2) (t.drop 1) with
        | none => none
        | some j => contentEnd j name depth (goOn (i + 1) j t)
      else if t.head? = some Byte.greater then
        contentEnd (i + 2) name (if name = [] then depth + 1 else depth) (t.drop 1)
      else
        match openTag? i t with
        | none => contentEnd (i + 1) name depth t
        | some tag =>
          contentEnd tag.stop name
            (if tag.name = name ∧ tag.closesItself = false then depth + 1 else depth)
            (goOn (i + 1) tag.stop t)
    else contentEnd (i + 1) name depth t
termination_by s => 2 * s.length
decreasing_by all_goals (simp only [List.length_cons, List.length_drop]; omega)

end

end MarkupEdit.Scan
