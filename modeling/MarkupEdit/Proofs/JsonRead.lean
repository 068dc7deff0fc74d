import Mathlib.Logic.Basic
import MarkupEdit.Json.Reader
import MarkupEdit.Json.Writer
import MarkupEdit.Proofs.JsonText

/-!
Reading a value from its tokens. An exact reader gives the value back unless it nests too many
arrays and objects or holds a number that is too great; how the text writes the value makes no
difference.
-/

namespace MarkupEdit.Json

open Reader

mutual

/-- An exact reader accepts the value inside of `level` arrays and objects. -/
def Value.fits (level : Nat) : Value → Bool
  | .null | .bool _ | .string _ => true
  | .number n => n.isFinite
  | .array items => level + 1 < depthLimit && Value.itemsFit (level + 1) items
  | .object fields => level + 1 < depthLimit && Value.fieldsFit (level + 1) fields

def Value.itemsFit (level : Nat) : List Value → Bool
  | [] => true
  | v :: items => v.fits level && Value.itemsFit level items

def Value.fieldsFit (level : Nat) : List (String × Value) → Bool
  | [] => true
  | (_, v) :: fields => v.fits level && Value.fieldsFit level fields

end

theorem Value.itemsFit_of {level : Nat} {items : List Value}
    (fit : ∀ v ∈ items, v.fits level = true) : Value.itemsFit level items = true := by
  induction items with
  | nil => rfl
  | cons v items ih =>
      rw [itemsFit, fit v List.mem_cons_self, Bool.true_and]
      exact ih fun w mem => fit w (List.mem_cons_of_mem v mem)

theorem Value.fieldsFit_of {level : Nat} {fields : List (String × Value)}
    (fit : ∀ f ∈ fields, f.2.fits level = true) : Value.fieldsFit level fields = true := by
  induction fields with
  | nil => rfl
  | cons f fields ih =>
      rw [fieldsFit, fit f List.mem_cons_self, Bool.true_and]
      exact ih fun g mem => fit g (List.mem_cons_of_mem f mem)

namespace Reader

/-- What comes of a step when `n` tokens have been read. -/
def proceed (n : Nat) (rest : List Token) : Step → Option (Value × Nat)
  | .fault => none
  | .done v => some (v, n)
  | .more stack mode => run .exact n stack mode rest

theorem run_cons (n : Nat) (stack : List Frame) (mode : Mode) (token : Token)
    (rest : List Token) :
    run .exact n stack mode (token :: rest) =
      proceed (n + 1) rest (step .exact stack mode token) := by
  rw [run]
  cases step .exact stack mode token <;> rfl

theorem proceed_enter (n : Nat) (rest : List Token) (stack : List Frame) (mode : Mode) :
    proceed n rest (enter .exact stack mode) =
      if stack.length + 1 < depthLimit then run .exact n stack mode rest else none := by
  rw [enter]
  by_cases deep : depthLimit ≤ stack.length + 1
  · rw [if_pos ⟨rfl, deep⟩, if_neg (Nat.not_lt.2 deep)]
    rfl
  · rw [if_neg fun h => deep h.2, if_pos (Nat.not_le.1 deep)]
    rfl

/-- No value starts with a closing bracket. -/
theorem run_firstItem (n : Nat) (stack : List Frame) (v : Value) (rest : List Token) :
    run .exact n stack .firstItem (v.tokens ++ rest) =
      run .exact n (.item [] :: stack) .value (v.tokens ++ rest) := by
  obtain ⟨token, t, split, opens⟩ : ∃ token t, v.tokens = token :: t ∧ token ≠ .closeBracket := by
    cases v with
    | array items => cases items <;> exact ⟨_, _, rfl, by simp⟩
    | object fields => cases fields <;> exact ⟨_, _, rfl, by simp⟩
    | _ => exact ⟨_, _, rfl, by simp⟩
  rw [split, List.cons_append, run_cons, run_cons]
  simp only [step, if_neg opens]

theorem proceed_item (n : Nat) (rest : List Token) (v : Value) (done : List Value)
    (stack : List Frame) :
    proceed n rest (complete v (.item done :: stack)) =
      run .exact n stack (.afterItem (v :: done)) rest := rfl

theorem proceed_field (n : Nat) (rest : List Token) (v : Value) (done : List (String × Value))
    (key : String) (stack : List Frame) :
    proceed n rest (complete v (.field done key :: stack)) =
      run .exact n stack (.afterField ((key, v) :: done)) rest := rfl

mutual

theorem run_value (n : Nat) (stack : List Frame) (rest : List Token) :
    (v : Value) → run .exact n stack .value (v.tokens ++ rest) =
      if v.fits stack.length then proceed (n + v.tokens.length) rest (complete v stack) else none
  | .null => rfl
  | .bool b => rfl
  | .number k => by
      rw [Value.tokens, List.singleton_append, run_cons, Value.fits]
      simp only [step, start]
      by_cases finite : k.isFinite = true
      · rw [if_pos (.inr finite), if_pos finite]
        rfl
      · rw [if_neg (by simp [finite]), if_neg finite]
        rfl
  | .string s => rfl
  | .array [] => by
      rw [Value.tokens, List.cons_append, run_cons]
      simp only [step, start, proceed_enter, Value.fits, Value.itemsFit, Bool.and_true,
        decide_eq_true_eq]
      rfl
  | .array (v :: items) => by
      have first := run_value (n + 1) (.item [] :: stack)
        (Value.moreItems items ++ .closeBracket :: rest) v
      have more := run_moreItems (n + 1 + v.tokens.length) stack rest [v] items
      have width : n + 1 + v.tokens.length + (Value.moreItems items).length + 1 =
          n + (Value.array (v :: items)).tokens.length := by
        simp only [Value.tokens, List.length_cons, List.length_append, List.length_nil]
        omega
      have text : (Value.array (v :: items)).tokens ++ rest =
          .openBracket :: (v.tokens ++ (Value.moreItems items ++ .closeBracket :: rest)) := by
        simp [Value.tokens]
      rw [width] at more
      rw [text, run_cons]
      simp only [step, start, proceed_enter, run_firstItem, first, proceed_item, more, Value.fits,
        Value.itemsFit, Bool.and_eq_true, decide_eq_true_eq, ite_and, List.length_cons,
        List.reverse_singleton, List.singleton_append]
  | .object [] => by
      rw [Value.tokens, List.cons_append, run_cons]
      simp only [step, start, proceed_enter, Value.fits, Value.fieldsFit, Bool.and_true,
        decide_eq_true_eq]
      rfl
  | .object ((key, v) :: fields) => by
      have first := run_value (n + 3) (.field [] key :: stack)
        (Value.moreFields fields ++ .closeBrace :: rest) v
      have more := run_moreFields (n + 3 + v.tokens.length) stack rest [(key, v)] fields
      have width : n + 3 + v.tokens.length + (Value.moreFields fields).length + 1 =
          n + (Value.object ((key, v) :: fields)).tokens.length := by
        simp only [Value.tokens, List.length_cons, List.length_append, List.length_nil]
        omega
      have named : run .exact (n + 1) stack .firstKey (.string key :: .colon ::
          (v.tokens ++ (Value.moreFields fields ++ .closeBrace :: rest))) =
          run .exact (n + 3) (.field [] key :: stack) .value
            (v.tokens ++ (Value.moreFields fields ++ .closeBrace :: rest)) := rfl
      have text : (Value.object ((key, v) :: fields)).tokens ++ rest =
          .openBrace :: .string key :: .colon ::
            (v.tokens ++ (Value.moreFields fields ++ .closeBrace :: rest)) := by
        simp [Value.tokens]
      rw [width] at more
      rw [text, run_cons]
      simp only [step, start, proceed_enter, named, first, proceed_field, more, Value.fits,
        Value.fieldsFit, Bool.and_eq_true, decide_eq_true_eq, ite_and, List.length_cons,
        List.reverse_singleton, List.singleton_append]

theorem run_moreItems (n : Nat) (stack : List Frame) (rest : List Token) (done : List Value) :
    (items : List Value) →
      run .exact n stack (.afterItem done) (Value.moreItems items ++ .closeBracket :: rest) =
        if Value.itemsFit (stack.length + 1) items then
          proceed (n + (Value.moreItems items).length + 1) rest
            (complete (.array (done.reverse ++ items)) stack)
        else none
  | [] => by
      rw [Value.moreItems, List.nil_append, run_cons, List.append_nil]
      rfl
  | v :: items => by
      have first := run_value (n + 1) (.item done :: stack)
        (Value.moreItems items ++ .closeBracket :: rest) v
      have more := run_moreItems (n + 1 + v.tokens.length) stack rest (v :: done) items
      have width : n + 1 + v.tokens.length + (Value.moreItems items).length + 1 =
          n + (Value.moreItems (v :: items)).length + 1 := by
        simp only [Value.moreItems, List.length_cons, List.length_append]
        omega
      have next : run .exact n stack (.afterItem done) (.comma ::
          (v.tokens ++ (Value.moreItems items ++ .closeBracket :: rest))) =
          run .exact (n + 1) (.item done :: stack) .value
            (v.tokens ++ (Value.moreItems items ++ .closeBracket :: rest)) := rfl
      rw [width, List.reverse_cons, List.append_assoc, List.singleton_append] at more
      have text : Value.moreItems (v :: items) ++ .closeBracket :: rest =
          .comma :: (v.tokens ++ (Value.moreItems items ++ .closeBracket :: rest)) := by
        simp [Value.moreItems]
      rw [text, next, first]
      simp only [proceed_item, more, Value.itemsFit, Bool.and_eq_true, ite_and, List.length_cons]

theorem run_moreFields (n : Nat) (stack : List Frame) (rest : List Token)
    (done : List (String × Value)) : (fields : List (String × Value)) →
      run .exact n stack (.afterField done) (Value.moreFields fields ++ .closeBrace :: rest) =
        if Value.fieldsFit (stack.length + 1) fields then
          proceed (n + (Value.moreFields fields).length + 1) rest
            (complete (.object (done.reverse ++ fields)) stack)
        else none
  | [] => by
      rw [Value.moreFields, List.nil_append, run_cons, List.append_nil]
      rfl
  | (key, v) :: fields => by
      have first := run_value (n + 3) (.field done key :: stack)
        (Value.moreFields fields ++ .closeBrace :: rest) v
      have more := run_moreFields (n + 3 + v.tokens.length) stack rest ((key, v) :: done) fields
      have width : n + 3 + v.tokens.length + (Value.moreFields fields).length + 1 =
          n + (Value.moreFields ((key, v) :: fields)).length + 1 := by
        simp only [Value.moreFields, List.length_cons, List.length_append]
        omega
      have next : run .exact n stack (.afterField done) (.comma :: .string key :: .colon ::
          (v.tokens ++ (Value.moreFields fields ++ .closeBrace :: rest))) =
          run .exact (n + 3) (.field done key :: stack) .value
            (v.tokens ++ (Value.moreFields fields ++ .closeBrace :: rest)) := rfl
      rw [width, List.reverse_cons, List.append_assoc, List.singleton_append] at more
      have text : Value.moreFields ((key, v) :: fields) ++ .closeBrace :: rest =
          .comma :: .string key :: .colon ::
            (v.tokens ++ (Value.moreFields fields ++ .closeBrace :: rest)) := by
        simp [Value.moreFields]
      rw [text, next, first]
      simp only [proceed_field, more, Value.fieldsFit, Bool.and_eq_true, ite_and, List.length_cons]

end

theorem read?_tokens (v : Value) :
    read? .exact v.tokens = if v.fits 0 then some (v, v.tokens.length) else none := by
  have whole := run_value 0 [] [] v
  rw [List.append_nil, Nat.zero_add] at whole
  exact whole

end Reader

/-- What a text writes is read from it, if the reader takes it at all. -/
theorem parse?_writes {v : Value} {s : String} (writes : Writes v s) :
    parse? s = if v.fits 0 then some v else none := by
  simp only [parse?, Token.ofChars_writes writes, read?_tokens]
  cases v.fits 0 <;> simp

/-- A control character is written with the two lower digits of its unit. -/
theorem charText_control {c : Char} (control : c.toNat < 0x20) :
    CharText c
      ['\\', 'u', '0', '0', Nat.digitChar (c.toNat / 16), Nat.digitChar (c.toNat % 16)] := by
  have zero : IsHex '0' 0 := ⟨by decide, .inl rfl⟩
  have high : IsHex (Nat.digitChar (c.toNat / 16)) (c.toNat / 16) := ⟨by omega, .inl rfl⟩
  have low : IsHex (Nat.digitChar (c.toNat % 16)) (c.toNat % 16) := ⟨by omega, .inl rfl⟩
  have unit := UnitText.mk zero zero high low
  have place : ((0 * 16 + 0) * 16 + c.toNat / 16) * 16 + c.toNat % 16 = c.toNat := by omega
  rw [place] at unit
  exact .unit unit

theorem charText_escape (c : Char) : CharText c (escapeChar c).toList := by
  rw [escapeChar.eq_def]
  split
  case h_8 noQuote noEscape _ _ _ _ _ =>
    split
    case isTrue control => simpa using charText_control control
    case isFalse printable =>
      rw [Char.toString_eq_singleton, String.toList_singleton]
      exact .plain (Nat.not_lt.1 printable) noQuote noEscape
  all_goals exact .short (by decide)

theorem stringText_escape (s : List Char) :
    StringText s (s.flatMap fun c => (escapeChar c).toList) := by
  induction s with
  | nil => exact .nil
  | cons c s ih => exact .cons (charText_escape c) ih

theorem toList_quote (s : String) :
    (quote s).toList = '"' :: (s.toList.flatMap (fun c => (escapeChar c).toList) ++ ['"']) := by
  simp [quote, String.toList_join, List.flatMap_map]

theorem text_string (s : String) : Text (.value (.string s)) (Value.string s).compact.toList := by
  rw [Value.compact, toList_quote]
  exact .string (stringText_escape s.toList)

theorem text_padded {v : Value} {cs : List Char} (text : Text (.value v) cs) :
    Text (.padded v) cs := by
  simpa using Text.padded .nil text .nil

theorem text_compactItems {v : Value} {items : List Value}
    (text : ∀ w ∈ v :: items, Text (.value w) w.compact.toList) :
    ∃ cs ds, (",".intercalate (Value.compactItems (v :: items))).toList = cs ++ ds ∧
      Text (.padded v) cs ∧ Text (.moreItems items) ds := by
  have first := text_padded (text v List.mem_cons_self)
  induction items generalizing v with
  | nil => exact ⟨_, [], by simp [Value.compactItems], first, .noItems⟩
  | cons w items ih =>
      have rest := fun u mem => text u (List.mem_cons_of_mem v mem)
      obtain ⟨cs, ds, split, next, more⟩ := ih rest (text_padded (rest w List.mem_cons_self))
      refine ⟨_, ',' :: (cs ++ ds), ?_, first, .nextItem next more⟩
      rw [← split]
      simp [Value.compactItems, String.intercalate_cons_cons]

theorem text_array {items : List Value}
    (text : ∀ v ∈ items, Text (.value v) v.compact.toList) :
    Text (.value (.array items)) (Value.array items).compact.toList := by
  cases items with
  | nil => exact .emptyArray .nil
  | cons v items =>
      obtain ⟨cs, ds, split, first, more⟩ := text_compactItems text
      have whole := Text.array first more
      rw [← List.append_assoc, ← split] at whole
      simpa [Value.compact] using whole

theorem text_compactField {key : String} {v : Value}
    (text : Text (.value v) v.compact.toList) :
    Text (.field key v) (quote key ++ ":" ++ v.compact).toList := by
  have named := Text.field .nil (stringText_escape key.toList) .nil
    (text_padded text)
  simpa [toList_quote] using named

theorem text_compactFields {key : String} {v : Value} {fields : List (String × Value)}
    (text : ∀ f ∈ (key, v) :: fields, Text (.value f.2) f.2.compact.toList) :
    ∃ cs ds, (",".intercalate (Value.compactFields ((key, v) :: fields))).toList = cs ++ ds ∧
      Text (.field key v) cs ∧ Text (.moreFields fields) ds := by
  have first : Text (.field key v) _ := text_compactField (text (key, v) List.mem_cons_self)
  induction fields generalizing key v with
  | nil => exact ⟨_, [], by simp [Value.compactFields], first, .noFields⟩
  | cons f fields ih =>
      obtain ⟨key', w⟩ := f
      have rest := fun u mem => text u (List.mem_cons_of_mem (key, v) mem)
      obtain ⟨cs, ds, split, next, more⟩ :=
        ih rest (text_compactField (rest (key', w) List.mem_cons_self))
      refine ⟨_, ',' :: (cs ++ ds), ?_, first, .nextField next more⟩
      rw [← split]
      simp [Value.compactFields, String.intercalate_cons_cons]

theorem text_object {fields : List (String × Value)}
    (text : ∀ f ∈ fields, Text (.value f.2) f.2.compact.toList) :
    Text (.value (.object fields)) (Value.object fields).compact.toList := by
  cases fields with
  | nil => exact .emptyObject .nil
  | cons f fields =>
      obtain ⟨cs, ds, split, first, more⟩ := text_compactFields text
      have whole := Text.object first more
      rw [← List.append_assoc, ← split] at whole
      simpa [Value.compact] using whole

end MarkupEdit.Json
