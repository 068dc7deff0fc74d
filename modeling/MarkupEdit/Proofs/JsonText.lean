import MarkupEdit.Json.Token
import MarkupEdit.Json.Value

/-!
The texts of a value of JSON, as its grammar derives them: white space between the tokens, every
character of a string plain or escaped in one of several ways, and the digits of numbers as they
stand. A text of a value is cut into the tokens of the value and nothing else.
-/

namespace MarkupEdit.Json

def Blank (w : List Char) : Prop := ∀ c ∈ w, c = ' ' ∨ c = '\n' ∨ c = '\t' ∨ c = '\r'

theorem Blank.nil : Blank [] := nofun

def IsDigits (ds : List Nat) : Prop := ds ≠ [] ∧ ∀ d ∈ ds, d < 10

def digitChars (ds : List Nat) : List Char := ds.map Nat.digitChar

inductive FractionText : List Nat → List Char → Prop where
  | none : FractionText [] []
  | digits {ds : List Nat} (isDigits : IsDigits ds) : FractionText ds ('.' :: digitChars ds)

inductive SignText : Bool → List Char → Prop where
  | none : SignText false []
  | plus : SignText false ['+']
  | minus : SignText true ['-']

inductive ExponentText : Option (Bool × List Nat) → List Char → Prop where
  | none : ExponentText none []
  | digits {mark : Char} {negative : Bool} {sign : List Char} {ds : List Nat}
      (isMark : mark = 'e' ∨ mark = 'E') (signed : SignText negative sign)
      (isDigits : IsDigits ds) :
      ExponentText (some (negative, ds)) (mark :: (sign ++ digitChars ds))

/-- A number as it is written. A zero stands in front of no other digit. -/
inductive NumberText (n : Number) : List Char → Prop where
  | mk {f e : List Char} (whole : IsDigits n.whole)
      (leading : n.whole.head? = some 0 → n.whole = [0])
      (fraction : FractionText n.fraction f) (exponent : ExponentText n.exponent e) :
      NumberText n ((if n.negative then ['-'] else []) ++ (digitChars n.whole ++ (f ++ e)))

/-- A hexadecimal digit in either case. -/
def IsHex (c : Char) (n : Nat) : Prop := n < 16 ∧ (c = n.digitChar ∨ c = n.digitChar.toUpper)

/-- A unit of sixteen bits behind `\u`. -/
inductive UnitText : Nat → List Char → Prop where
  | mk {a b c d : Char} {i j k l : Nat} (ha : IsHex a i) (hb : IsHex b j) (hc : IsHex c k)
      (hd : IsHex d l) : UnitText (((i * 16 + j) * 16 + k) * 16 + l) ['\\', 'u', a, b, c, d]

/-- The letters of the short escapes, with the characters that they stand for. -/
def shortEscapes : List (Char × Char) :=
  [('"', '"'), ('\\', '\\'), ('/', '/'), ('b', '\x08'), ('f', '\x0c'), ('n', '\n'), ('r', '\r'),
    ('t', '\t')]

/-- A character of a string as it is written. An escape of half a surrogate pair alone writes no
character, so a text with such an escape is the text of no value. -/
inductive CharText : Char → List Char → Prop where
  | plain {c : Char} (printable : 0x20 ≤ c.toNat) (noQuote : c ≠ '"') (noEscape : c ≠ '\\') :
      CharText c [c]
  | short {letter c : Char} (escape : (letter, c) ∈ shortEscapes) : CharText c ['\\', letter]
  | unit {c : Char} {cs : List Char} (written : UnitText c.toNat cs) : CharText c cs
  /-- A surrogate pair. -/
  | pair {high low : Nat} {c : Char} {cs ds : List Char} (first : UnitText (0xD800 + high) cs)
      (second : UnitText (0xDC00 + low) ds) (highRoom : high < 0x400) (lowRoom : low < 0x400)
      (stands : c.toNat = 0x10000 + high * 0x400 + low) : CharText c (cs ++ ds)

inductive StringText : List Char → List Char → Prop where
  | nil : StringText [] []
  | cons {c : Char} {s cs ds : List Char} (first : CharText c cs) (rest : StringText s ds) :
      StringText (c :: s) (cs ++ ds)

inductive Shape where
  | value (v : Value)
  /-- A value with white space around it. -/
  | padded (v : Value)
  /-- Items of an array behind the first. -/
  | moreItems (items : List Value)
  | field (key : String) (v : Value)
  /-- Fields of an object behind the first. -/
  | moreFields (fields : List (String × Value))

inductive Text : Shape → List Char → Prop where
  | null : Text (.value .null) ['n', 'u', 'l', 'l']
  | true : Text (.value (.bool true)) ['t', 'r', 'u', 'e']
  | false : Text (.value (.bool false)) ['f', 'a', 'l', 's', 'e']
  | number {n : Number} {cs : List Char} (written : NumberText n cs) : Text (.value (.number n)) cs
  | string {s : String} {cs : List Char} (written : StringText s.toList cs) :
      Text (.value (.string s)) ('"' :: (cs ++ ['"']))
  | emptyArray {w : List Char} (blank : Blank w) : Text (.value (.array [])) ('[' :: (w ++ [']']))
  | array {v : Value} {items : List Value} {cs ds : List Char} (first : Text (.padded v) cs)
      (more : Text (.moreItems items) ds) :
      Text (.value (.array (v :: items))) ('[' :: (cs ++ (ds ++ [']'])))
  | emptyObject {w : List Char} (blank : Blank w) :
      Text (.value (.object [])) ('\x7b' :: (w ++ ['\x7d']))
  | object {key : String} {v : Value} {fields : List (String × Value)} {cs ds : List Char}
      (first : Text (.field key v) cs) (more : Text (.moreFields fields) ds) :
      Text (.value (.object ((key, v) :: fields))) ('\x7b' :: (cs ++ (ds ++ ['\x7d'])))
  | padded {v : Value} {w w' cs : List Char} (front : Blank w) (inner : Text (.value v) cs)
      (back : Blank w') : Text (.padded v) (w ++ (cs ++ w'))
  | noItems : Text (.moreItems []) []
  | nextItem {v : Value} {items : List Value} {cs ds : List Char} (first : Text (.padded v) cs)
      (more : Text (.moreItems items) ds) : Text (.moreItems (v :: items)) (',' :: (cs ++ ds))
  | field {key : String} {v : Value} {w w' ks cs : List Char} (front : Blank w)
      (written : StringText key.toList ks) (back : Blank w') (inner : Text (.padded v) cs) :
      Text (.field key v) (w ++ '"' :: (ks ++ '"' :: (w' ++ ':' :: cs)))
  | noFields : Text (.moreFields []) []
  | nextField {key : String} {v : Value} {fields : List (String × Value)} {cs ds : List Char}
      (first : Text (.field key v) cs) (more : Text (.moreFields fields) ds) :
      Text (.moreFields ((key, v) :: fields)) (',' :: (cs ++ ds))

/-- The string is a text of the value, with nothing but white space around it. -/
def Writes (v : Value) (s : String) : Prop := Text (.padded v) s.toList

mutual

def Value.tokens : Value → List Token
  | .null => [.null]
  | .bool b => [.bool b]
  | .number n => [.number n]
  | .string s => [.string s]
  | .array [] => [.openBracket, .closeBracket]
  | .array (v :: items) =>
    .openBracket :: (v.tokens ++ (Value.moreItems items ++ [.closeBracket]))
  | .object [] => [.openBrace, .closeBrace]
  | .object ((key, v) :: fields) =>
    .openBrace :: .string key :: .colon :: (v.tokens ++ (Value.moreFields fields ++ [.closeBrace]))

def Value.moreItems : List Value → List Token
  | [] => []
  | v :: items => .comma :: (v.tokens ++ Value.moreItems items)

def Value.moreFields : List (String × Value) → List Token
  | [] => []
  | (key, v) :: fields =>
    .comma :: .string key :: .colon :: (v.tokens ++ Value.moreFields fields)

end

def Shape.tokens : Shape → List Token
  | value v | padded v => v.tokens
  | moreItems items => Value.moreItems items
  | field key v => .string key :: .colon :: v.tokens
  | moreFields fields => Value.moreFields fields

namespace Token

/-- What stands behind a number does not go on with it. -/
def Stops (s : List Char) : Prop :=
  ∀ c, s.head? = some c → c.isDigit = false ∧ c ≠ '.' ∧ c ≠ 'e' ∧ c ≠ 'E'

theorem ofChars_first {c : Char} {t : List Char} {token : Token} {n : Nat}
    (solid : isSpace c = false) (read : readFirst c t = (token, n)) (sound : token ≠ fault) :
    ofChars (c :: t) = token :: ofChars (t.drop n) := by
  rw [ofChars, if_neg (by simp [solid]), read]
  dsimp only
  rw [if_neg sound]

theorem ofChars_blank {w : List Char} (blank : Blank w) (s : List Char) :
    ofChars (w ++ s) = ofChars s := by
  induction w with
  | nil => rfl
  | cons c w ih =>
      have isSpace : isSpace c = true := by
        rcases blank c List.mem_cons_self with rfl | rfl | rfl | rfl <;> decide
      rw [List.cons_append, ofChars, if_pos isSpace]
      exact ih fun d mem => blank d (List.mem_cons_of_mem c mem)

theorem hexDigit?_isHex {c : Char} {n : Nat} (isHex : IsHex c n) : hexDigit? c = some n := by
  have all : ∀ n < 16, hexDigit? n.digitChar = some n ∧ hexDigit? n.digitChar.toUpper = some n := by
    decide
  obtain ⟨low, rfl | rfl⟩ := isHex
  · exact (all n low).1
  · exact (all n low).2

theorem escape?_short {letter c : Char} (escape : (letter, c) ∈ shortEscapes) :
    letter ≠ 'u' ∧ escape? letter = some c := by
  have all : ∀ e ∈ shortEscapes, e.1 ≠ 'u' ∧ escape? e.1 = some e.2 := by decide
  exact all _ escape

/-- How a character of a string is read: as these units, which are joined to the character. -/
structure ReadsChar (c : Char) (cs : List Char) (units : List Nat) : Prop where
  read : ∀ n done rest, readUnits n done (cs ++ rest) =
    readUnits (n + cs.length) (units.reverse ++ done) rest
  join : ∀ done later, joinUnits done (units ++ later) = joinUnits (c :: done) later

theorem readUnits_unit {unit : Nat} {cs : List Char} (written : UnitText unit cs) (n : Nat)
    (done : List Nat) (rest : List Char) :
    readUnits n done (cs ++ rest) = readUnits (n + cs.length) (unit :: done) rest := by
  obtain ⟨ha, hb, hc, hd⟩ := written
  rename_i a b c d i j k l
  have unit : hex4? a b c d = some (((i * 16 + j) * 16 + k) * 16 + l) := by
    simp only [hex4?, hexDigit?_isHex ha, hexDigit?_isHex hb, hexDigit?_isHex hc,
      hexDigit?_isHex hd]
    refine congrArg some ?_
    omega
  change readUnits n done ('\\' :: 'u' :: a :: b :: c :: d :: rest) = _
  rw [readUnits, unit]
  rfl

/-- A character is no half of a surrogate pair. -/
theorem noSurrogate (c : Char) :
    isHighSurrogate c.toNat = false ∧ isLowSurrogate c.toNat = false := by
  have valid : c.toNat < 0xD800 ∨ (0xDFFF < c.toNat ∧ c.toNat < 0x110000) := c.valid
  simp only [isHighSurrogate, isLowSurrogate, Bool.and_eq_false_iff, decide_eq_false_iff_not]
  omega

theorem joinUnits_char (c : Char) (done : List Char) (later : List Nat) :
    joinUnits done (c.toNat :: later) = joinUnits (c :: done) later := by
  obtain ⟨high, low⟩ := noSurrogate c
  cases later with
  | nil => simp [joinUnits, high, low]
  | cons unit later => simp [joinUnits, high, low]

theorem joinUnits_pair {high low : Nat} {c : Char} (highRoom : high < 0x400)
    (lowRoom : low < 0x400) (stands : c.toNat = 0x10000 + high * 0x400 + low)
    (done : List Char) (later : List Nat) :
    joinUnits done ((0xD800 + high) :: (0xDC00 + low) :: later) = joinUnits (c :: done) later := by
  have isHigh : isHighSurrogate (0xD800 + high) = true := by
    simp only [isHighSurrogate, Bool.and_eq_true, decide_eq_true_eq]
    omega
  have isLow : isLowSurrogate (0xDC00 + low) = true := by
    simp only [isLowSurrogate, Bool.and_eq_true, decide_eq_true_eq]
    omega
  rw [joinUnits, if_pos isHigh, if_pos isLow, Nat.add_sub_cancel_left, Nat.add_sub_cancel_left,
    ← stands, Char.ofNat_toNat]

theorem readsChar {c : Char} {cs : List Char} (written : CharText c cs) :
    ∃ units, ReadsChar c cs units := by
  cases written with
  | plain printable noQuote noEscape =>
      refine ⟨[c.toNat], fun n done rest => ?_, fun done later => joinUnits_char c done later⟩
      have noControl : ¬ c.toNat < 0x20 := Nat.not_lt.2 printable
      rw [List.singleton_append, readUnits, if_neg noControl]
      · rfl
      · exact noQuote
      · exact fun _ _ _ _ _ same => absurd same noEscape
      · exact fun _ _ same => absurd same noEscape
  | short escape =>
      obtain ⟨noUnit, stands⟩ := escape?_short escape
      refine ⟨[c.toNat], fun n done rest => ?_, fun done later => joinUnits_char c done later⟩
      rw [List.cons_append, List.singleton_append, readUnits, stands]
      · rfl
      · exact fun _ _ _ _ _ same => absurd same noUnit
  | unit written =>
      exact ⟨[c.toNat], fun n done rest => readUnits_unit written n done rest,
        fun done later => joinUnits_char c done later⟩
  | @pair high low _ cs ds first second highRoom lowRoom stands =>
      refine ⟨[0xD800 + high, 0xDC00 + low], fun n done rest => ?_,
        fun done later => joinUnits_pair highRoom lowRoom stands done later⟩
      rw [List.append_assoc, readUnits_unit first, readUnits_unit second, List.length_append,
        Nat.add_assoc]
      rfl

theorem readUnits_string {s cs : List Char} (written : StringText s cs) :
    ∃ units, (∀ n done rest, readUnits n done (cs ++ '"' :: rest) =
      some (done.reverse ++ units, n + cs.length + 1)) ∧
      ∀ done, joinUnits done units = some (done.reverse ++ s) := by
  induction written with
  | nil =>
      refine ⟨[], fun n done rest => ?_, fun done => ?_⟩
      · rw [List.nil_append, readUnits, List.append_nil]
        rfl
      · rw [joinUnits, List.append_nil]
  | @cons c s cs ds first rest ih =>
      obtain ⟨units, read, join⟩ := readsChar first
      obtain ⟨later, readLater, joinLater⟩ := ih
      refine ⟨units ++ later, fun n done rest => ?_, fun done => ?_⟩
      · rw [List.append_assoc, read, readLater]
        simp only [List.reverse_append, List.reverse_reverse, List.append_assoc,
          List.length_append, Nat.add_assoc]
      · rw [join, joinLater, List.reverse_cons, List.append_assoc, List.singleton_append]

theorem ofChars_string {s : String} {cs : List Char} (written : StringText s.toList cs)
    (rest : List Char) :
    ofChars ('"' :: (cs ++ '"' :: rest)) = string s :: ofChars rest := by
  obtain ⟨units, read, join⟩ := readUnits_string written
  have first : readFirst '"' (cs ++ '"' :: rest) = (string s, cs.length + 1) := by
    simp only [readFirst, read 0 [] rest, ofUnits, List.reverse_nil, List.nil_append, join,
      String.ofList_toList, Nat.zero_add]
  rw [ofChars_first (by decide) first (by simp), List.append_cons, List.drop_left' (by simp)]

theorem digit_digitChar {d : Nat} (small : d < 10) :
    d.digitChar.isDigit = true ∧ digit? d.digitChar = some d := by
  have all : ∀ d < 10, d.digitChar.isDigit = true ∧ digit? d.digitChar = some d := by decide
  exact all d small

/-- The digits at the front of a text, when no other digit follows. -/
theorem digits_digitChars {ds : List Nat} (small : ∀ d ∈ ds, d < 10) {s : List Char}
    (apart : ∀ c, s.head? = some c → c.isDigit = false) : digits (digitChars ds ++ s) = ds := by
  induction ds with
  | nil =>
      cases s with
      | nil => rfl
      | cons c s => simp [digits, digitChars, apart c rfl]
  | cons d ds ih =>
      obtain ⟨isDigit, value⟩ := digit_digitChar (small d List.mem_cons_self)
      have rest := ih fun e mem => small e (List.mem_cons_of_mem d mem)
      rw [digits] at rest ⊢
      rw [digitChars, List.map_cons, List.cons_append, List.takeWhile_cons_of_pos isDigit,
        List.filterMap_cons_some value, ← digitChars, rest]

@[simp]
theorem length_digitChars (ds : List Nat) : (digitChars ds).length = ds.length := List.length_map _

theorem isDigit_head {ds : List Nat} (isDigits : IsDigits ds) (s : List Char) :
    ∃ c t, digitChars ds ++ s = c :: t ∧ c.isDigit = true := by
  obtain ⟨some', small⟩ := isDigits
  cases ds with
  | nil => exact absurd rfl some'
  | cons d ds => exact ⟨_, _, rfl, (digit_digitChar (small d List.mem_cons_self)).1⟩

theorem readSign_text {negative : Bool} {sign : List Char} (signed : SignText negative sign)
    {c : Char} (isDigit : c.isDigit = true) (t : List Char) :
    readSign (sign ++ c :: t) = (negative, sign.length) := by
  cases signed with
  | none =>
      rw [List.nil_append, readSign.eq_def]
      split
      next same => cases same; exact absurd isDigit (by decide)
      next same => cases same; exact absurd isDigit (by decide)
      next => rfl
  | plus => rfl
  | minus => rfl

theorem readExponent_text {e : Option (Bool × List Nat)} {cs : List Char}
    (written : ExponentText e cs) {rest : List Char} (stops : Stops rest) :
    readExponent (cs ++ rest) = some (e, cs.length) ∧
      ∀ c, (cs ++ rest).head? = some c → c.isDigit = false ∧ c ≠ '.' := by
  cases written with
  | none =>
      refine ⟨?_, fun c first => ⟨(stops c first).1, (stops c first).2.1⟩⟩
      cases rest with
      | nil => rfl
      | cons c rest =>
          obtain ⟨-, -, noLower, noUpper⟩ := stops c rfl
          simp [readExponent, noLower, noUpper]
  | @digits mark negative sign ds isMark signed isDigits =>
      refine ⟨?_, fun c first => ?_⟩
      · obtain ⟨c, t, split, isDigit⟩ := isDigit_head isDigits rest
        have width : digits ((sign ++ (digitChars ds ++ rest)).drop sign.length) = ds := by
          rw [List.drop_left, digits_digitChars isDigits.2 fun c first => (stops c first).1]
        have signs := readSign_text signed isDigit t
        rw [← split] at signs
        rw [List.cons_append, List.append_assoc, readExponent, if_pos isMark, signs]
        simp only [width, List.isEmpty_iff, isDigits.1, if_false, List.length_cons,
          List.length_append, length_digitChars]
        rw [Nat.add_comm 1, Nat.add_right_comm]
      · cases first
        rcases isMark with rfl | rfl <;> decide

theorem readFraction_text {f : List Nat} {cs : List Char} (written : FractionText f cs)
    {rest : List Char} (apart : ∀ c, rest.head? = some c → c.isDigit = false ∧ c ≠ '.') :
    readFraction (cs ++ rest) = some (f, cs.length) ∧
      ∀ c, (cs ++ rest).head? = some c → c.isDigit = false := by
  cases written with
  | none =>
      refine ⟨?_, fun c first => (apart c first).1⟩
      rw [List.nil_append, readFraction.eq_def]
      split
      next => exact absurd rfl (apart '.' rfl).2
      next => rfl
  | digits isDigits =>
      refine ⟨?_, fun c first => ?_⟩
      · rw [List.cons_append, readFraction,
          digits_digitChars isDigits.2 fun c first => (apart c first).1]
        simp [isDigits.1]
      · cases first
        decide

theorem readUnsigned_text (negative : Bool) {whole fraction : List Nat}
    {exponent : Option (Bool × List Nat)} {f e : List Char} (isDigits : IsDigits whole)
    (leading : whole.head? = some 0 → whole = [0]) (behind : FractionText fraction f)
    (power : ExponentText exponent e) {rest : List Char} (stops : Stops rest) :
    readUnsigned negative (digitChars whole ++ (f ++ (e ++ rest))) =
      some (⟨negative, whole, fraction, exponent⟩, whole.length + f.length + e.length) := by
  obtain ⟨readPower, apart⟩ := readExponent_text power stops
  obtain ⟨readBehind, noDigit⟩ := readFraction_text behind apart
  have run : digits (digitChars whole ++ (f ++ (e ++ rest))) = whole :=
    digits_digitChars isDigits.2 noDigit
  have proper : ¬ (whole.isEmpty = true ∨ (whole.head? = some 0 ∧ 1 < whole.length)) := by
    rintro (none' | ⟨zero, long⟩)
    · exact isDigits.1 (List.isEmpty_iff.1 none')
    · rw [leading zero] at long
      exact absurd long (by decide)
  have toFraction : (digitChars whole ++ (f ++ (e ++ rest))).drop whole.length = f ++ (e ++ rest) :=
    List.drop_left' (length_digitChars whole)
  have toExponent : (digitChars whole ++ (f ++ (e ++ rest))).drop (whole.length + f.length) =
      e ++ rest := by
    rw [← List.drop_drop, toFraction, List.drop_left]
  rw [readUnsigned]
  dsimp only
  rw [run, if_neg proper, toFraction, readBehind]
  simp only [Option.bind_eq_bind, Option.bind_some, toExponent, readPower, Option.pure_def]

theorem readFirst_digit {c : Char} (isDigit : c.isDigit = true) (t : List Char) :
    readFirst c t =
      match readUnsigned false (c :: t) with
      | none => (fault, 0)
      | some (value, n) => (number value, n - 1) := by
  rw [readFirst.eq_def]
  split <;> first | rfl | exact absurd isDigit (by decide)

theorem isSpace_digit {c : Char} (isDigit : c.isDigit = true) : isSpace c = false := by
  rw [Bool.eq_false_iff]
  intro space
  simp only [isSpace, Bool.or_eq_true, beq_iff_eq] at space
  rcases space with ((rfl | rfl) | rfl) | rfl <;> exact absurd isDigit (by decide)

theorem ofChars_number {n : Number} {cs : List Char} (written : NumberText n cs)
    {rest : List Char} (stops : Stops rest) :
    ofChars (cs ++ rest) = number n :: ofChars rest := by
  obtain ⟨negative, whole, fraction, exponent⟩ := n
  obtain ⟨isDigits, leading, behind, power⟩ := written
  rename_i f e
  have read := readUnsigned_text negative isDigits leading behind power stops
  have width : (digitChars whole ++ (f ++ (e ++ rest))).drop (whole.length + f.length + e.length) =
      rest := by
    rw [Nat.add_assoc, ← List.append_assoc f, ← List.append_assoc]
    exact List.drop_left' (by simp)
  cases negative with
  | true =>
      have text : (if true = true then ['-'] else []) ++ (digitChars whole ++ (f ++ e)) ++ rest =
          '-' :: (digitChars whole ++ (f ++ (e ++ rest))) := by simp
      have first : readFirst '-' (digitChars whole ++ (f ++ (e ++ rest))) =
          (number ⟨true, whole, fraction, exponent⟩, whole.length + f.length + e.length) := by
        simp only [readFirst, read]
      rw [text, ofChars_first (by decide) first (by simp), width]
  | false =>
      obtain ⟨c, t, split, isDigit⟩ := isDigit_head isDigits (f ++ (e ++ rest))
      have text : (if false = true then ['-'] else []) ++ (digitChars whole ++ (f ++ e)) ++ rest =
          c :: t := by simp [← split]
      have first : readFirst c t =
          (number ⟨false, whole, fraction, exponent⟩, whole.length + f.length + e.length - 1) := by
        rw [readFirst_digit isDigit, ← split, read]
      have some' : 0 < whole.length := List.length_pos_iff.2 isDigits.1
      obtain ⟨k, place⟩ : ∃ k, whole.length + f.length + e.length = k + 1 :=
        Nat.exists_eq_add_of_le' (by omega)
      rw [place, Nat.add_sub_cancel] at first
      rw [split, place, List.drop_succ_cons] at width
      rw [text, ofChars_first (isSpace_digit isDigit) first (by simp), width]

theorem ofChars_word (word : List Char) {token : Token} {c : Char}
    (solid : isSpace c = false) (sound : token ≠ fault)
    (read : ∀ t, readFirst c t = readWord word token t) (rest : List Char) :
    ofChars (c :: (word ++ rest)) = token :: ofChars rest := by
  have first : readFirst c (word ++ rest) = (token, word.length) := by
    rw [read, readWord, if_pos (List.isPrefixOf_iff_prefix.2 (List.prefix_append _ _))]
  rw [ofChars_first solid first sound, List.drop_left]

/-- The characters that are tokens themselves. -/
def marks : List (Char × Token) :=
  [('[', openBracket), (']', closeBracket), ('\x7b', openBrace), ('\x7d', closeBrace),
    (':', colon), (',', comma)]

theorem ofChars_mark (token : Token) {c : Char} (mark : (c, token) ∈ marks) (t : List Char) :
    ofChars (c :: t) = token :: ofChars t := by
  have all : ∀ m ∈ marks, isSpace m.1 = false ∧ m.2 ≠ fault := by decide
  obtain ⟨solid, sound⟩ := all _ mark
  have first : readFirst c t = (token, 0) := by
    simp only [marks, List.mem_cons, Prod.mk.injEq, List.not_mem_nil, or_false] at mark
    rcases mark with ⟨rfl, rfl⟩ | ⟨rfl, rfl⟩ | ⟨rfl, rfl⟩ | ⟨rfl, rfl⟩ | ⟨rfl, rfl⟩ | ⟨rfl, rfl⟩ <;>
      rfl
  rw [ofChars_first solid first sound, List.drop_zero]

theorem stops_blank {w s : List Char} (blank : Blank w) (stops : Stops s) : Stops (w ++ s) := by
  intro c first
  cases w with
  | nil => exact stops c first
  | cons d w =>
      cases first
      rcases blank c List.mem_cons_self with rfl | rfl | rfl | rfl <;> decide

theorem stops_cons {c : Char} (mark : c = ',' ∨ c = ']' ∨ c = '\x7d') (s : List Char) :
    Stops (c :: s) := by
  intro d first
  cases first
  rcases mark with rfl | rfl | rfl <;> decide

theorem stops_moreItems {items : List Value} {cs s : List Char}
    (more : Text (.moreItems items) cs) (stops : Stops s) : Stops (cs ++ s) := by
  cases more with
  | noItems => exact stops
  | nextItem => exact stops_cons (.inl rfl) _

theorem stops_moreFields {fields : List (String × Value)} {cs s : List Char}
    (more : Text (.moreFields fields) cs) (stops : Stops s) : Stops (cs ++ s) := by
  cases more with
  | noFields => exact stops
  | nextField => exact stops_cons (.inl rfl) _

theorem ofChars_text {shape : Shape} {cs : List Char} (text : Text shape cs) (rest : List Char)
    (stops : Stops rest) : ofChars (cs ++ rest) = shape.tokens ++ ofChars rest := by
  induction text generalizing rest with
  | null => exact ofChars_word ['u', 'l', 'l'] (by decide) (by simp) (fun _ => rfl) rest
  | true => exact ofChars_word ['r', 'u', 'e'] (by decide) (by simp) (fun _ => rfl) rest
  | false =>
      exact ofChars_word ['a', 'l', 's', 'e'] (by decide) (by simp) (fun _ => rfl) rest
  | number written => exact ofChars_number written stops
  | string written =>
      rw [List.cons_append, List.append_assoc, List.singleton_append, ofChars_string written]
      rfl
  | emptyArray blank =>
      rw [List.cons_append, List.append_assoc, List.singleton_append,
        ofChars_mark openBracket (by decide), ofChars_blank blank,
        ofChars_mark closeBracket (by decide)]
      rfl
  | array first more ihFirst ihMore =>
      have closes := stops_cons (.inr (.inl rfl)) rest
      rw [List.cons_append, List.append_assoc, List.append_assoc, List.singleton_append,
        ofChars_mark openBracket (by decide), ihFirst _ (stops_moreItems more closes),
        ihMore _ closes, ofChars_mark closeBracket (by decide)]
      simp [Shape.tokens, Value.tokens]
  | emptyObject blank =>
      rw [List.cons_append, List.append_assoc, List.singleton_append,
        ofChars_mark openBrace (by decide), ofChars_blank blank,
        ofChars_mark closeBrace (by decide)]
      rfl
  | object first more ihFirst ihMore =>
      have closes := stops_cons (.inr (.inr rfl)) rest
      rw [List.cons_append, List.append_assoc, List.append_assoc, List.singleton_append,
        ofChars_mark openBrace (by decide), ihFirst _ (stops_moreFields more closes),
        ihMore _ closes, ofChars_mark closeBrace (by decide)]
      simp [Shape.tokens, Value.tokens]
  | padded front inner back ih =>
      rw [List.append_assoc, List.append_assoc, ofChars_blank front,
        ih _ (stops_blank back stops), ofChars_blank back]
      rfl
  | noItems => rfl
  | nextItem first more ihFirst ihMore =>
      rw [List.cons_append, List.append_assoc, ofChars_mark comma (by decide),
        ihFirst _ (stops_moreItems more stops), ihMore _ stops]
      simp [Shape.tokens, Value.moreItems]
  | field front written back inner ih =>
      rw [List.append_assoc, List.cons_append, List.append_assoc, List.cons_append,
        List.append_assoc, List.cons_append, ofChars_blank front, ofChars_string written,
        ofChars_blank back, ofChars_mark colon (by decide), ih _ stops]
      rfl
  | noFields => rfl
  | nextField first more ihFirst ihMore =>
      rw [List.cons_append, List.append_assoc, ofChars_mark comma (by decide),
        ihFirst _ (stops_moreFields more stops), ihMore _ stops]
      simp [Shape.tokens, Value.moreFields]

/-- A text of a value is cut into the tokens of the value. -/
theorem ofChars_writes {v : Value} {s : String} (writes : Writes v s) :
    ofChars s.toList = v.tokens := by
  have cut := ofChars_text writes [] nofun
  rwa [List.append_nil, ofChars, List.append_nil] at cut

end Token

end MarkupEdit.Json
