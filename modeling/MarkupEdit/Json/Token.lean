import MarkupEdit.Json.Number

/-!
Tokens of JSON text. A text is cut into tokens up to its end or up to a fault, which then is
the last token; so a reader that stops early never learns of a fault further on.
-/

namespace MarkupEdit.Json

inductive Token where
  | openBracket
  | closeBracket
  | openBrace
  | closeBrace
  | colon
  | comma
  | null
  | bool (b : Bool)
  | number (n : Number)
  | string (s : String)
  /-- A string with an escape that stands for half a surrogate pair. -/
  | brokenString
  | fault
  deriving DecidableEq

namespace Token

def isSpace (c : Char) : Bool := c == ' ' || c == '\n' || c == '\t' || c == '\r'

def digit? (c : Char) : Option Nat := if c.isDigit then some (c.toNat - '0'.toNat) else none

def hexDigit? (c : Char) : Option Nat :=
  if c.isDigit then some (c.toNat - '0'.toNat)
  else if 'a' ≤ c ∧ c ≤ 'f' then some (c.toNat - 'a'.toNat + 10)
  else if 'A' ≤ c ∧ c ≤ 'F' then some (c.toNat - 'A'.toNat + 10)
  else none

def hex4? (a b c d : Char) : Option Nat := do
  let high := (← hexDigit? a) * 16 + (← hexDigit? b)
  let low := (← hexDigit? c) * 16 + (← hexDigit? d)
  pure (high * 256 + low)

def escape? (c : Char) : Option Char :=
  match c with
  | '"' | '\\' | '/' => some c
  | 'b' => some '\x08'
  | 'f' => some '\x0c'
  | 'n' => some '\n'
  | 'r' => some '\r'
  | 't' => some '\t'
  | _ => none

/-- The units of the string whose opening quote was read, and the number of characters up to
its closing quote. Only an escape yields a unit that is half of a surrogate pair. `n` characters
were read so far, and `units` are theirs, the last one first. -/
def readUnits (n : Nat) (units : List Nat) : List Char → Option (List Nat × Nat)
  | '"' :: _ => some (units.reverse, n + 1)
  | '\\' :: 'u' :: a :: b :: c :: d :: rest =>
    match hex4? a b c d with
    | none => none
    | some unit => readUnits (n + 6) (unit :: units) rest
  | '\\' :: c :: rest =>
    match escape? c with
    | none => none
    | some c => readUnits (n + 2) (c.toNat :: units) rest
  | c :: rest => if c.toNat < 0x20 then none else readUnits (n + 1) (c.toNat :: units) rest
  | [] => none

def isHighSurrogate (unit : Nat) : Bool := 0xD800 ≤ unit && unit < 0xDC00

def isLowSurrogate (unit : Nat) : Bool := 0xDC00 ≤ unit && unit < 0xE000

/-- The characters of units, where each surrogate must be part of a pair. `chars` holds those
read so far, the last one first. -/
def joinUnits (chars : List Char) : List Nat → Option (List Char)
  | [] => some chars.reverse
  | high :: low :: rest =>
    if isHighSurrogate high then
      if isLowSurrogate low then
        joinUnits (Char.ofNat (0x10000 + (high - 0xD800) * 0x400 + (low - 0xDC00)) :: chars) rest
      else none
    else if isLowSurrogate high then none
    else joinUnits (Char.ofNat high :: chars) (low :: rest)
  | [unit] =>
    if isHighSurrogate unit || isLowSurrogate unit then none
    else some (Char.ofNat unit :: chars).reverse

def ofUnits (units : List Nat) : Token :=
  match joinUnits [] units with
  | none => brokenString
  | some chars => string (String.ofList chars)

def digits (s : List Char) : List Nat := (s.takeWhile Char.isDigit).filterMap digit?

/-- The digits behind a point, and the number of characters read; none when no point follows. -/
def readFraction (s : List Char) : Option (List Nat × Nat) :=
  match s with
  | '.' :: t => if (digits t).isEmpty then none else some (digits t, (digits t).length + 1)
  | _ => some ([], 0)

def readSign (s : List Char) : Bool × Nat :=
  match s with
  | '-' :: _ => (true, 1)
  | '+' :: _ => (false, 1)
  | _ => (false, 0)

def readExponent (s : List Char) : Option (Option (Bool × List Nat) × Nat) :=
  match s with
  | c :: t =>
    if c = 'e' ∨ c = 'E' then
      let (negative, width) := readSign t
      let ds := digits (t.drop width)
      if ds.isEmpty then none else some (some (negative, ds), 1 + width + ds.length)
    else some (none, 0)
  | [] => some (none, 0)

/-- The number without sign at the front of a text, and the number of characters read. A zero
in front of other digits is a fault. -/
def readUnsigned (negative : Bool) (s : List Char) : Option (Number × Nat) := do
  let whole := digits s
  if whole.isEmpty ∨ (whole.head? = some 0 ∧ 1 < whole.length) then none
  else
    let (fraction, n) ← readFraction (s.drop whole.length)
    let (exponent, m) ← readExponent (s.drop (whole.length + n))
    pure (⟨negative, whole, fraction, exponent⟩, whole.length + n + m)

def readWord (word : List Char) (token : Token) (s : List Char) : Token × Nat :=
  if word.isPrefixOf s then (token, word.length) else (fault, 0)

/-- The token at the front of a text that is not empty, and the number of characters it has
behind the first. -/
def readFirst (c : Char) (t : List Char) : Token × Nat :=
  match c with
  | '[' => (openBracket, 0)
  | ']' => (closeBracket, 0)
  | '\x7b' => (openBrace, 0)
  | '\x7d' => (closeBrace, 0)
  | ':' => (colon, 0)
  | ',' => (comma, 0)
  | 'n' => readWord ['u', 'l', 'l'] null t
  | 't' => readWord ['r', 'u', 'e'] (bool true) t
  | 'f' => readWord ['a', 'l', 's', 'e'] (bool false) t
  | '"' =>
    match readUnits 0 [] t with
    | none => (fault, 0)
    | some (units, n) => (ofUnits units, n)
  | '-' =>
    match readUnsigned true t with
    | none => (fault, 0)
    | some (value, n) => (number value, n)
  | _ =>
    match readUnsigned false (c :: t) with
    | none => (fault, 0)
    | some (value, n) => (number value, n - 1)

def ofChars : List Char → List Token
  | [] => []
  | c :: t =>
    if isSpace c then ofChars t
    else
      let (token, n) := readFirst c t
      if token = fault then [fault] else token :: ofChars (t.drop n)
termination_by s => s.length
decreasing_by all_goals (simp only [List.length_cons, List.length_drop]; omega)

end Token

end MarkupEdit.Json
