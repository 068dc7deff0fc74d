import Mathlib.Data.List.Forall2
import Mathlib.Data.List.Perm.Basic
import MarkupEdit.Mutation.Script
import MarkupEdit.Proofs.JsonRead

/-!
Scripts give back the mutations that are written to them. The details of a mutation are found by
name, so the order of the fields does not count, nor do fields of other names; what these hold is
read all the same and has to stay within the limits of the reader.
-/

namespace MarkupEdit

open Json (Value Writes)

namespace Detail

/-- The details that a field of each kind may stand for. -/
inductive Suits : Kind → Detail → Prop where
  | text (s : String) : Suits .text (.text s)
  | given (s : String) : Suits .optionalText (.text s)
  | leftOut : Suits .optionalText .absent
  | side (s : Side) : Suits .side (.side s)

theorem side?_name (s : Side) : side? s.name = some s := by
  cases s with
  | before => rfl
  | after => rfl

theorem Suits.ofJson? {kind : Kind} {detail : Detail} (suits : Suits kind detail) {v : Value}
    (written : detail.toJson? = some v) : Detail.ofJson? kind v = some detail := by
  cases suits with
  | text s => cases written; rfl
  | given s => cases written; rfl
  | leftOut => cases written
  | side s =>
      cases written
      rw [Detail.ofJson?, side?_name, Option.map_some]

theorem Suits.default? {kind : Kind} {detail : Detail} (suits : Suits kind detail)
    (absent : detail.toJson? = none) : Detail.default? kind = some detail := by
  cases suits with
  | leftOut => rfl
  | text | given | side => cases absent

/-- Nothing but strings is written for a detail. -/
theorem toJson?_string {detail : Detail} {v : Value} (written : detail.toJson? = some v) :
    ∃ s, v = .string s := by
  cases detail with
  | text s => cases written; exact ⟨s, rfl⟩
  | absent => cases written
  | side s => cases written; exact ⟨s.name, rfl⟩

end Detail

namespace Layout

def names (layout : Layout) : List String := layout.map Prod.fst

theorem toFields_cons (field : String × Detail.Kind) (layout : Layout) (first : Detail)
    (details : List Detail) :
    toFields (field :: layout) (first :: details) =
      (first.toJson?.map fun v => (field.1, v)).toList ++ toFields layout details := by
  rw [toFields, List.zip_cons_cons, List.filterMap_cons]
  dsimp only
  cases first.toJson? <;> rfl

theorem name_of_toFields {layout : Layout} {details : List Detail} {f : String × Value}
    (mem : f ∈ layout.toFields details) : f.1 ∈ layout.names := by
  obtain ⟨⟨field, detail⟩, slot, written⟩ := List.mem_filterMap.1 mem
  obtain ⟨v, -, rfl⟩ := Option.map_eq_some_iff.1 written
  exact List.mem_map_of_mem (List.of_mem_zip slot).1

theorem filter_of_name (name : String) {fields : List (String × Value)}
    (other : ∀ f ∈ fields, f.1 ≠ name) : fields.filter (·.1 = name) = [] :=
  List.filter_eq_nil_iff.2 fun f mem same => other f mem (of_decide_eq_true same)

/-- The field of a detail is the only one of its name. -/
theorem filter_toFields {layout : Layout} {details : List Detail} (distinct : layout.names.Nodup)
    {name : String} {kind : Detail.Kind} {detail : Detail}
    (mem : ((name, kind), detail) ∈ layout.zip details) :
    (layout.toFields details).filter (·.1 = name) =
      (detail.toJson?.map fun v => (name, v)).toList := by
  induction layout generalizing details with
  | nil => cases mem
  | cons field layout ih =>
      cases details with
      | nil => cases mem
      | cons first details =>
          obtain ⟨fresh, distinct⟩ := List.nodup_cons.1 distinct
          rw [List.zip_cons_cons, List.mem_cons] at mem
          rw [toFields_cons, List.filter_append]
          cases mem with
          | inl same =>
              cases same
              have noOther : (toFields layout details).filter (·.1 = name) = [] :=
                filter_of_name name fun f mem same => fresh (same ▸ name_of_toFields mem)
              rw [noOther, List.append_nil]
              cases detail.toJson? <;> simp
          | inr later =>
              have isName : name ∈ names layout := List.mem_map_of_mem (List.of_mem_zip later).1
              rw [ih distinct later, filter_of_name name fun f mem same => ?_,
                List.nil_append]
              obtain ⟨v, -, rfl⟩ := Option.map_eq_some_iff.1 (Option.mem_toList.1 mem)
              rw [← same] at isName
              exact fresh isName

/-- A field is found by its name, in whatever order the fields are written and whatever other
fields stand between them. -/
theorem field?_written {layout : Layout} {details : List Detail}
    {fields extra : List (String × Value)}
    (distinct : layout.names.Nodup) (order : fields.Perm (layout.toFields details ++ extra))
    (unknown : ∀ f ∈ extra, f.1 ∉ layout.names) {name : String} {kind : Detail.Kind}
    {detail : Detail} (mem : ((name, kind), detail) ∈ layout.zip details) :
    field? fields name = some detail.toJson? := by
  have isName : name ∈ layout.names := List.mem_map_of_mem (List.of_mem_zip mem).1
  have noOther : extra.filter (·.1 = name) = [] :=
    filter_of_name name fun f other same => unknown f other (same ▸ isName)
  have found :
      (fields.filter (·.1 = name)).Perm (detail.toJson?.map fun v => (name, v)).toList := by
    have kept := order.filter (·.1 = name)
    rwa [List.filter_append, noOther, List.append_nil, filter_toFields distinct mem] at kept
  rw [field?]
  cases written : detail.toJson? with
  | none =>
      rw [written] at found
      rw [List.perm_nil.1 found]
  | some v =>
      rw [written] at found
      rw [List.perm_singleton.1 found]

theorem ofFields?_written {fields : List (String × Value)} {layout : Layout}
    {details : List Detail} (found : List.Forall₂ (fun field detail =>
      Detail.Suits field.2 detail ∧ field? fields field.1 = some detail.toJson?) layout details) :
    ofFields? fields layout = some details := by
  induction found with
  | nil => rfl
  | @cons field detail layout details first _ ih =>
      obtain ⟨suits, found⟩ := first
      rw [ofFields?, found, ih]
      cases written : detail.toJson? with
      | none =>
          simp [suits.default? written]
      | some v =>
          simp [suits.ofJson? written]

end Layout

namespace Mutation

theorem ofName?_name (kind : Kind) : Kind.ofName? kind.name = some kind := by
  cases kind <;> decide

theorem names_distinct (kind : Kind) : kind.layout.names.Nodup := by
  cases kind <;> decide

theorem details_suit (m : Mutation) :
    List.Forall₂ (fun field detail => Detail.Suits field.2 detail) m.kind.layout m.details := by
  cases m with
  | updateText id s old => cases old <;> repeat constructor
  | _ => repeat constructor

theorem ofDetails?_details (m : Mutation) : ofDetails? m.kind m.details = some m := by
  cases m with
  | updateText id s old => cases old <;> rfl
  | _ => rfl

/-- The objects that stand for a mutation: under the name of its kind, the fields of its details
in any order, next to fields of other names. -/
inductive Form (m : Mutation) : Value → Prop where
  | mk {fields : List (String × Value)} (extra : List (String × Value))
      (order : fields.Perm (m.kind.layout.toFields m.details ++ extra))
      (unknown : ∀ f ∈ extra, f.1 ∉ m.kind.layout.names) :
      Form m (.object [(m.kind.name, .object fields)])

theorem form_toJson (m : Mutation) : Form m m.toJson :=
  .mk [] (by rw [List.append_nil]) nofun

theorem ofJson?_form {m : Mutation} {v : Value} (form : Form m v) : ofJson? v = some m := by
  obtain ⟨extra, order, unknown⟩ := form
  rename_i fields
  have suits := details_suit m
  have read : m.kind.layout.ofFields? fields = some m.details := by
    refine Layout.ofFields?_written
      (List.forall₂_iff_zip.2 ⟨suits.length_eq, fun {field detail} mem => ?_⟩)
    refine ⟨(List.forall₂_iff_zip.1 suits).2 mem, ?_⟩
    exact Layout.field?_written (names_distinct m.kind) order unknown mem
  rw [ofJson?, ofName?_name]
  simp only [Option.bind_eq_bind, Option.bind_some, Layout.ofJson?, read, ofDetails?_details]

/-- Only strings are written for the details of a mutation. -/
theorem string_of_toFields {layout : Layout} {details : List Detail} {f : String × Value}
    (mem : f ∈ layout.toFields details) : ∃ s, f.2 = .string s := by
  obtain ⟨⟨field, detail⟩, -, written⟩ := List.mem_filterMap.1 mem
  obtain ⟨v, some', rfl⟩ := Option.map_eq_some_iff.1 written
  exact Detail.toJson?_string some'

end Mutation

theorem text_toJson (m : Mutation) : Json.Text (.value m.toJson) m.toJson.compact.toList := by
  refine Json.text_object fun f mem => ?_
  rw [List.mem_singleton.1 mem]
  refine Json.text_object fun f mem => ?_
  obtain ⟨s, string⟩ := Mutation.string_of_toFields mem
  rw [string]
  exact Json.text_string s

theorem fits_toJson {level : Nat} (room : level + 2 < Json.Reader.depthLimit) (m : Mutation) :
    m.toJson.fits level = true := by
  have inner : Value.fits (level + 1) (.object (m.kind.layout.toFields m.details)) = true := by
    rw [Value.fits, decide_eq_true room, Bool.true_and]
    refine Value.fieldsFit_of fun f mem => ?_
    obtain ⟨s, string⟩ := Mutation.string_of_toFields mem
    rw [string, Value.fits]
  have outer : level + 1 < Json.Reader.depthLimit := by omega
  rw [Mutation.toJson, Value.fits, decide_eq_true outer, Bool.true_and]
  exact Value.fieldsFit_of fun f mem => by rwa [List.mem_singleton.1 mem]

namespace Script

theorem ofJson?_form {m : Mutation} {v : Value} (form : m.Form v) : ofJson? v = some [m] := by
  rw [ofJson?.eq_def, Mutation.ofJson?_form form]

theorem ofJson?_forms {ms : List Mutation} {vs : List Value}
    (forms : List.Forall₂ Mutation.Form ms vs) : ofJson? (.array vs) = some ms := by
  have read : vs.mapM Mutation.ofJson? = some ms := by
    induction forms with
    | nil => rfl
    | cons form _ ih => simp [Mutation.ofJson?_form form, ih]
  exact read

/-- A script is accepted exactly if it is the text of a value that stands for its mutations. -/
theorem parse_ok_iff {s : String} {ms : List Mutation} :
    parse s = .ok ms ↔ ∃ v, Json.parse? s = some v ∧ ofJson? v = some ms := by
  simp only [parse, Json.parse?]
  cases Json.Reader.read? .exact (Json.Token.ofChars s.toList) with
  | none => simp
  | some read =>
      obtain ⟨v, n⟩ := read
      by_cases whole : ((Json.Token.ofChars s.toList).drop n).isEmpty = true
      · simp only [if_pos whole, Option.some.injEq, exists_eq_left']
        cases ofJson? v <;> simp
      · simp only [if_neg whole]
        cases ofJson? v <;> simp

/-- A text of a value that stands for mutations is refused only for the limits of the reader. -/
theorem parse_writes {v : Value} {s : String} {ms : List Mutation} (writes : Writes v s)
    (read : ofJson? v = some ms) :
    parse s = if v.fits 0 then .ok ms else .error .malformed := by
  have text := Json.parse?_writes writes
  by_cases fits : v.fits 0 = true
  · rw [if_pos fits] at text ⊢
    exact parse_ok_iff.2 ⟨v, text, read⟩
  · simp only [parse, Json.Token.ofChars_writes writes, Json.Reader.read?_tokens, if_neg fits]

end Script

/-- A script gives back the mutation, or the list of mutations, that is written to it. Any text of
an object that stands for a mutation, with its fields in any order and fields of other names
between them, is read as that mutation if it is within the limits of the reader, and an array of
such objects as the list. -/
theorem scripts_read_back :
    (∀ m : Mutation, Script.parse m.toJson.compact = .ok [m]) ∧
    (∀ ms : List Mutation,
      Script.parse (Value.array (ms.map Mutation.toJson)).compact = .ok ms) ∧
    (∀ (m : Mutation) v s, m.Form v → Writes v s →
      Script.parse s = if v.fits 0 then .ok [m] else .error .malformed) ∧
    ∀ ms vs s, List.Forall₂ Mutation.Form ms vs → Writes (.array vs) s →
      Script.parse s = if (Value.array vs).fits 0 then .ok ms else .error .malformed := by
  refine ⟨fun m => ?_, fun ms => ?_, fun m v s form writes => ?_, fun ms vs s forms writes => ?_⟩
  · have writes : Writes m.toJson m.toJson.compact := Json.text_padded (text_toJson m)
    rw [Script.parse_writes writes (Script.ofJson?_form m.form_toJson),
      if_pos (fits_toJson (by decide) m)]
  · have forms : List.Forall₂ Mutation.Form ms (ms.map Mutation.toJson) :=
      List.forall₂_map_right_iff.2 (List.forall₂_same.2 fun m _ => m.form_toJson)
    have writes : Writes (.array (ms.map Mutation.toJson))
        (Value.array (ms.map Mutation.toJson)).compact := by
      refine Json.text_padded (Json.text_array fun v mem => ?_)
      obtain ⟨m, -, rfl⟩ := List.mem_map.1 mem
      exact text_toJson m
    have fit : (Value.array (ms.map Mutation.toJson)).fits 0 = true := by
      refine Value.itemsFit_of fun v mem => ?_
      obtain ⟨m, -, rfl⟩ := List.mem_map.1 mem
      exact fits_toJson (by decide) m
    rw [Script.parse_writes writes (Script.ofJson?_forms forms), if_pos fit]
  · exact Script.parse_writes writes (Script.ofJson?_form form)
  · exact Script.parse_writes writes (Script.ofJson?_forms forms)

def noteField : String × Value := ("note", .array [.number ⟨true, [1], [5], some (false, [3])⟩])

def shuffledValue : Value :=
  .object [("SetAttribute", .object
    [noteField, ("value", .string "é"), ("name", .string "title"), ("element_id", .string "a")])]

/-- The fields in another order, with white space, an escape and a field of another name. -/
def shuffledText : String :=
  " \x7b\"SetAttribute\" : \x7b\"note\":[-1.5e+3],\"value\":\"\\u00e9\",\"name\":\"title\"," ++
    "\"element_id\":\"a\"\x7d\x7d"

theorem shuffledValue_form : (Mutation.setAttribute "a" "title" "é").Form shuffledValue := by
  refine .mk [noteField] (List.reverse_perm [("element_id", Value.string "a"),
    ("name", Value.string "title"), ("value", Value.string "é"), noteField]) fun f mem => ?_
  rw [List.mem_singleton.1 mem]
  decide

theorem shuffledText_writes : Writes shuffledValue shuffledText := by
  have blank : Json.Blank [' '] := by simp [Json.Blank]
  have number : Json.NumberText ⟨true, [1], [5], some (false, [3])⟩ "-1.5e+3".toList :=
    .mk (n := ⟨true, [1], [5], some (false, [3])⟩) (f := ['.', '5']) (e := ['e', '+', '3'])
      ⟨by decide, by decide⟩ (by decide) (.digits ⟨by decide, by decide⟩)
      (.digits (.inl rfl) .plus ⟨by decide, by decide⟩)
  have unit : Json.UnitText 'é'.toNat "\\u00e9".toList :=
    .mk (i := 0) (j := 0) (k := 14) (l := 9) ⟨by decide, .inl rfl⟩ ⟨by decide, .inl rfl⟩
      ⟨by decide, .inl rfl⟩ ⟨by decide, .inl rfl⟩
  have accent : Json.StringText "é".toList "\\u00e9".toList := .cons (.unit unit) .nil
  have note : Json.Text (.field noteField.1 noteField.2) "\"note\":[-1.5e+3]".toList :=
    .field .nil (Json.stringText_escape "note".toList) .nil
      (Json.text_padded (.array (Json.text_padded (.number number)) .noItems))
  have value : Json.Text (.field "value" (.string "é")) "\"value\":\"\\u00e9\"".toList :=
    .field .nil (Json.stringText_escape "value".toList) .nil
      (Json.text_padded (.string accent))
  have name : Json.Text (.field "name" (.string "title")) "\"name\":\"title\"".toList :=
    Json.text_compactField (Json.text_string "title")
  have id : Json.Text (.field "element_id" (.string "a")) "\"element_id\":\"a\"".toList :=
    Json.text_compactField (Json.text_string "a")
  have details := Json.Text.object note
    (.nextField value (.nextField name (.nextField id .noFields)))
  have mutation := Json.Text.field .nil
    (Json.stringText_escape "SetAttribute".toList) blank (.padded blank details .nil)
  exact .padded blank (.object mutation .noFields) .nil

theorem shuffled_scripts_read_back :
    Script.parse shuffledText = .ok [.setAttribute "a" "title" "é"] ∧
    Script.parse ("[" ++ shuffledText ++ "]") = .ok [.setAttribute "a" "title" "é"] := by
  obtain ⟨-, -, one, many⟩ := scripts_read_back
  have forms := List.Forall₂.cons shuffledValue_form .nil
  have listed : Writes (.array [shuffledValue]) ("[" ++ shuffledText ++ "]") := by
    have array := Json.text_padded (.array shuffledText_writes .noItems)
    simpa [Writes] using array
  have fit : shuffledValue.fits 0 = true := by decide +kernel
  have fitListed : (Value.array [shuffledValue]).fits 0 = true := by decide +kernel
  exact ⟨(one _ _ _ shuffledValue_form shuffledText_writes).trans (if_pos fit),
    (many _ _ _ forms listed).trans (if_pos fitListed)⟩

def nested : Nat → Value
  | 0 => .array []
  | n + 1 => .array [nested n]

/-- The removal of an element, with a field of another name that holds a value. -/
def removalWith (v : Value) : Value :=
  .object [("RemoveElement", .object [("element_id", .string "a"), ("x", v)])]

theorem text_nested (n : Nat) : Json.Text (.value (nested n)) (nested n).compact.toList := by
  induction n with
  | zero => exact Json.text_array nofun
  | succ n ih => exact Json.text_array fun v mem => by rwa [List.mem_singleton.1 mem]

theorem parse_removalWith {v : Value} (text : Json.Text (.value v) v.compact.toList) :
    Script.parse (removalWith v).compact =
      if (removalWith v).fits 0 then .ok [.removeElement "a"] else .error .malformed := by
  have form : (Mutation.removeElement "a").Form (removalWith v) := by
    have other : "x" ∉ (Mutation.removeElement "a").kind.layout.names := by decide
    refine .mk [("x", v)] (.refl _) fun f mem => ?_
    rwa [List.mem_singleton.1 mem]
  have writes : Writes (removalWith v) (removalWith v).compact := by
    refine Json.text_padded (Json.text_object fun f mem => ?_)
    rw [List.mem_singleton.1 mem]
    refine Json.text_object fun f mem => ?_
    obtain rfl | mem := List.mem_cons.1 mem
    · exact Json.text_string "a"
    · rwa [List.mem_singleton.1 mem]
  exact Script.parse_writes writes (Script.ofJson?_form form)

/-- What a field holds that no detail is named for decides whether the script is read. -/
theorem unknown_field_refused :
    Script.parse "\x7b\"RemoveElement\":\x7b\"element_id\":\"a\",\"x\":1e300\x7d\x7d" =
      .ok [.removeElement "a"] ∧
    Script.parse "\x7b\"RemoveElement\":\x7b\"element_id\":\"a\",\"x\":1e400\x7d\x7d" =
      .error .malformed ∧
    Script.parse (removalWith (nested 124)).compact = .ok [.removeElement "a"] ∧
    Script.parse (removalWith (nested 125)).compact = .error .malformed := by
  have shallow : (removalWith (nested 124)).fits 0 = true := by decide +kernel
  have deep : (removalWith (nested 125)).fits 0 = false := by decide +kernel
  refine ⟨by decide +kernel, by decide +kernel, ?_, ?_⟩
  · rw [parse_removalWith (text_nested 124), if_pos shallow]
  · rw [parse_removalWith (text_nested 125), deep]
    rfl

end MarkupEdit
