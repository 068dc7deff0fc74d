/-!
Texts as lists of bytes in UTF-8. Every mark that delimits markup is one ASCII byte, so
documents are scanned, cut and joined bytewise; offsets count bytes from the start of a text.
A string and its bytes determine each other, and a splice changes nothing outside its range.
-/

namespace MarkupEdit

abbrev Bytes := List UInt8

def utf8 (s : String) : Bytes := s.toByteArray.data.toList

/-- The string whose UTF-8 form the bytes are, if they are one. -/
def Bytes.text? (b : Bytes) : Option String := String.fromUTF8? ⟨b.toArray⟩

/-- The text of bytes that were cut from a string; bytes that are no text have none. -/
def Bytes.text (b : Bytes) : String := b.text?.getD ""

theorem text?_utf8 (s : String) : (utf8 s).text? = some s := by
  have whole : (⟨(utf8 s).toArray⟩ : ByteArray) = s.toByteArray := rfl
  rw [Bytes.text?, whole, String.fromUTF8?, dif_pos s.isValidUTF8]
  rfl

theorem eq_utf8_of_text? {b : Bytes} {s : String} (h : b.text? = some s) : b = utf8 s := by
  rw [Bytes.text?, String.fromUTF8?] at h
  split at h
  next valid =>
    cases h
    rfl
  next => simp at h

theorem text?_eq_some_iff {b : Bytes} {s : String} : b.text? = some s ↔ b = utf8 s :=
  ⟨eq_utf8_of_text?, fun h => h ▸ text?_utf8 s⟩

theorem text_utf8 (s : String) : (utf8 s).text = s := by
  rw [Bytes.text, text?_utf8]
  rfl

theorem utf8_append (s t : String) : utf8 (s ++ t) = utf8 s ++ utf8 t := by
  simp [utf8]

namespace Byte

abbrev tab : UInt8 := 0x09
abbrev lineFeed : UInt8 := 0x0A
abbrev formFeed : UInt8 := 0x0C
abbrev carriageReturn : UInt8 := 0x0D
abbrev space : UInt8 := 0x20
abbrev bang : UInt8 := 0x21
abbrev doubleQuote : UInt8 := 0x22
abbrev dollar : UInt8 := 0x24
abbrev ampersand : UInt8 := 0x26
abbrev singleQuote : UInt8 := 0x27
abbrev hyphen : UInt8 := 0x2D
abbrev dot : UInt8 := 0x2E
abbrev slash : UInt8 := 0x2F
abbrev colon : UInt8 := 0x3A
abbrev semicolon : UInt8 := 0x3B
abbrev less : UInt8 := 0x3C
abbrev equals : UInt8 := 0x3D
abbrev greater : UInt8 := 0x3E
abbrev backslash : UInt8 := 0x5C
abbrev underscore : UInt8 := 0x5F
abbrev backtick : UInt8 := 0x60
abbrev openBrace : UInt8 := 0x7B
abbrev closeBrace : UInt8 := 0x7D

/-- White space between the parts of a tag: blank, tab, line feed, form feed, carriage return. -/
def isBlank (b : UInt8) : Bool :=
  b == space || b == tab || b == lineFeed || b == formFeed || b == carriageReturn

/-- White space that may indent a line. -/
def isIndent (b : UInt8) : Bool := b == space || b == tab

def isUpper (b : UInt8) : Bool := 0x41 ≤ b && b ≤ 0x5A

def isLower (b : UInt8) : Bool := 0x61 ≤ b && b ≤ 0x7A

def isLetter (b : UInt8) : Bool := isUpper b || isLower b

def isDigit (b : UInt8) : Bool := 0x30 ≤ b && b ≤ 0x39

def isAlphanumeric (b : UInt8) : Bool := isLetter b || isDigit b

def isQuote (b : UInt8) : Bool := b == doubleQuote || b == singleQuote

/-- The small form of an ASCII letter; any other byte is its own. -/
def lower (b : UInt8) : UInt8 := if isUpper b then b + 0x20 else b

end Byte

namespace Bytes

def slice (text : Bytes) (start stop : Nat) : Bytes := (text.take stop).drop start

/-- The text with the bytes from `start` up to `stop` replaced. -/
def splice (text : Bytes) (start stop : Nat) (replacement : Bytes) : Bytes :=
  text.take start ++ (replacement ++ text.drop stop)

theorem length_slice {text : Bytes} {start stop : Nat} (h : stop ≤ text.length) :
    (text.slice start stop).length = stop - start := by
  simp [slice, Nat.min_eq_left h]

theorem take_append_slice {text : Bytes} {start stop : Nat} (h : start ≤ stop) :
    text.take start ++ text.slice start stop = text.take stop := by
  have front : text.take start = (text.take stop).take start := by
    rw [List.take_take, Nat.min_eq_left h]
  rw [slice, front, List.take_append_drop]

theorem slice_append_drop {text : Bytes} {start stop : Nat} (h : start ≤ stop) :
    text.slice start stop ++ text.drop stop = text.drop start := by
  have behind : text.drop stop = (text.drop start).drop (stop - start) := by
    rw [List.drop_drop, Nat.add_sub_cancel' h]
  rw [slice, List.drop_take, behind, List.take_append_drop]

/-- What is cut out and put back leaves the text as it was. -/
theorem splice_slice {text : Bytes} {start stop : Nat} (h : start ≤ stop) :
    text.splice start stop (text.slice start stop) = text := by
  rw [splice, slice_append_drop h, List.take_append_drop]

/-- A part is the two parts that an offset in it divides it into. -/
theorem slice_append_slice {text : Bytes} {start mid stop : Nat} (h : start ≤ mid)
    (h' : mid ≤ stop) (inside : mid ≤ text.length) :
    text.slice start mid ++ text.slice mid stop = text.slice start stop := by
  have front : text.take mid = (text.take stop).take mid := by
    rw [List.take_take, Nat.min_eq_left h']
  have bound : start ≤ ((text.take stop).take mid).length := by
    rw [← front, List.length_take, Nat.min_eq_left inside]
    exact h
  rw [slice, slice, slice, front, ← List.drop_append_of_le_length bound, List.take_append_drop]

theorem take_splice {text : Bytes} {start stop : Nat} {replacement : Bytes}
    (h : start ≤ text.length) :
    (text.splice start stop replacement).take start = text.take start := by
  have width : (text.take start).length = start := by rw [List.length_take, Nat.min_eq_left h]
  rw [splice, List.take_append_of_le_length (by omega), List.take_take, Nat.min_self]

theorem drop_splice {text : Bytes} {start stop : Nat} {replacement : Bytes}
    (h : start ≤ text.length) :
    (text.splice start stop replacement).drop (start + replacement.length) = text.drop stop := by
  have width : (text.take start).length = start := by rw [List.length_take, Nat.min_eq_left h]
  rw [splice, ← List.append_assoc]
  exact List.drop_left' (by rw [List.length_append, width])

/-- Equality up to the case of ASCII letters. -/
def sameIgnoringCase (a b : Bytes) : Bool := a.map Byte.lower == b.map Byte.lower

end Bytes

end MarkupEdit
