import MarkupEdit.Text.Bytes

/-!
White space in the sense of Unicode, recognised in UTF-8: the 25 characters with the property
`White_Space`. No such character is encoded inside another one, so a text that is valid UTF-8
can be trimmed and cut into words bytewise.
-/

namespace MarkupEdit.Bytes

def spaceChars : List Char :=
  ['\t', '\n', '\x0b', '\x0c', '\r', ' ', '\u0085', '\u00a0', '\u1680', '\u2000', '\u2001',
    '\u2002', '\u2003', '\u2004', '\u2005', '\u2006', '\u2007', '\u2008', '\u2009', '\u200a',
    '\u2028', '\u2029', '\u202f', '\u205f', '\u3000']

def spaceForms : List Bytes := spaceChars.map fun c => utf8 c.toString

/-- The number of bytes of the white space character that the text begins with, or 0. -/
def spaceWidth (text : Bytes) : Nat :=
  match spaceForms.find? (·.isPrefixOf text) with
  | none => 0
  | some form => form.length

def trimStart : Bytes → Bytes
  | [] => []
  | c :: t =>
    match spaceWidth (c :: t) with
    | 0 => c :: t
    | n + 1 => trimStart (t.drop n)
termination_by s => s.length
decreasing_by simp only [List.length_cons, List.length_drop]; omega

/-- The offset just past the last byte that is no white space; `i` is the offset of the given
bytes, and `last` the answer for those before. -/
def inkEnd (i last : Nat) : Bytes → Nat
  | [] => last
  | c :: t =>
    match spaceWidth (c :: t) with
    | 0 => inkEnd (i + 1) (i + 1) t
    | n + 1 => inkEnd (i + 1 + n) last (t.drop n)
termination_by s => s.length
decreasing_by all_goals (simp only [List.length_cons, List.length_drop]; omega)

def trimEnd (text : Bytes) : Bytes := text.take (inkEnd 0 0 text)

def trim (text : Bytes) : Bytes := text.trimStart.trimEnd

def consWord (word : Bytes) (words : List Bytes) : List Bytes :=
  if word.isEmpty then words else word :: words

/-- The words of a text; `word` holds the bytes of the word begun so far, the last one first. -/
def wordsFrom (word : Bytes) : Bytes → List Bytes
  | [] => consWord word.reverse []
  | c :: t =>
    match spaceWidth (c :: t) with
    | 0 => wordsFrom (c :: word) t
    | n + 1 => consWord word.reverse (wordsFrom [] (t.drop n))
termination_by s => s.length
decreasing_by all_goals (simp only [List.length_cons, List.length_drop]; omega)

def words (text : Bytes) : List Bytes := wordsFrom [] text

def unwords (words : List Bytes) : Bytes := [Byte.space].intercalate words

end MarkupEdit.Bytes
