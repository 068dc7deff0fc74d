import MarkupEdit.Proofs.StyleEdits

/-!
Styles as a browser reads them. A semicolon between quotes or parentheses separates nothing, nor
does the one that ends a character reference, and the last declaration of a property is the one
that counts. Setting a property splits the style at each semicolon and changes the first
declaration; so what a browser reads changes as it should only where both readings agree.
-/

namespace MarkupEdit

open Bytes

namespace Style

/-- Where in a style the next byte stands. -/
structure Reader where
  /-- The quote that ends the string that is open. -/
  quote : Option UInt8
  /-- The number of parentheses that are open. -/
  depth : Nat
  /-- What stands behind the last `&`, as long as it may be the name of a character. -/
  reference : Option Bytes
  /-- The byte in front is a backslash that takes along this one. -/
  escaped : Bool
  deriving DecidableEq

namespace Reader

def start : Reader := ⟨none, 0, none, false⟩

/-- A quote opens a string, or closes the one that it opened. -/
def passQuote (r : Reader) (mark : UInt8) : Reader :=
  if r.quote = none then { r with quote := some mark }
  else if r.quote = some mark then { r with quote := none }
  else r

def passByte (r : Reader) (c : UInt8) : Reader :=
  let r := { r with reference := none }
  if c = Byte.backslash then { r with escaped := true }
  else if Byte.isQuote c then r.passQuote c
  else if r.quote.isSome then r
  else if [c] = utf8 "(" then { r with depth := r.depth + 1 }
  else if [c] = utf8 ")" then { r with depth := r.depth - 1 }
  else r

/-- A reference to a quote stands for the quote. -/
def passReference (r : Reader) (name : Bytes) : Reader :=
  let r := { r with reference := none }
  if name = utf8 "quot" ∨ name = utf8 "#34" then r.passQuote Byte.doubleQuote
  else if name = utf8 "apos" ∨ name = utf8 "#39" then r.passQuote Byte.singleQuote
  else r

def step (r : Reader) (c : UInt8) : Reader :=
  if r.escaped then { r with reference := none, escaped := false }
  else if c = Byte.ampersand then { r with reference := some [] }
  else
    match r.reference with
    | none => r.passByte c
    | some name =>
      if c = Byte.semicolon ∧ name ≠ [] then r.passReference name
      else if Byte.isAlphanumeric c ∨ [c] = utf8 "#" then { r with reference := some (name ++ [c]) }
      else r.passByte c

/-- A semicolon separates two declarations here. -/
def separates (r : Reader) : Bool :=
  r.quote.isNone && r.depth == 0 && !r.escaped && !r.reference.any (!·.isEmpty)

theorem step_separates {r : Reader} (separates : r.separates = true) :
    r.step Byte.semicolon = start := by
  obtain ⟨quote, depth, reference, escaped⟩ := r
  simp only [Reader.separates, Bool.and_eq_true, Option.isNone_iff_eq_none, beq_iff_eq,
    Bool.not_eq_true'] at separates
  obtain ⟨⟨⟨rfl, rfl⟩, rfl⟩, none⟩ := separates
  cases reference with
  | none => rfl
  | some name =>
      obtain rfl : name = [] := by simpa using none
      rfl

end Reader

/-- The pieces of a style between the semicolons that separate. -/
def readPieces (r : Reader) : Bytes → List Bytes
  | [] => [[]]
  | c :: t =>
    if c = Byte.semicolon ∧ r.separates = true then [] :: readPieces (r.step c) t
    else consByte c (readPieces (r.step c) t)

def read (style : Bytes) : List Declaration := ofPieces (readPieces .start style)

/-- A text at the end of which a semicolon separates. -/
def StandsAlone (text : Bytes) : Prop := (text.foldl Reader.step .start).separates = true

instance (text : Bytes) : Decidable (StandsAlone text) :=
  inferInstanceAs (Decidable ((text.foldl Reader.step .start).separates = true))

theorem readPieces_ne_nil (r : Reader) (t : Bytes) : readPieces r t ≠ [] := by
  cases t with
  | nil => exact List.cons_ne_nil _ _
  | cons c t =>
      rw [readPieces]
      split
      · exact List.cons_ne_nil _ _
      · exact consByte_ne_nil c _

theorem readPieces_of_notMem {t : Bytes} (none : Byte.semicolon ∉ t) (r : Reader) :
    readPieces r t = [t] := by
  induction t generalizing r with
  | nil => rfl
  | cons c t ih =>
      obtain ⟨ne, later⟩ := not_or.1 (mt List.mem_cons.2 none)
      rw [readPieces, if_neg (fun here => ne here.1.symm), ih later]
      rfl

/-- A text that is one piece ends at a semicolon that separates, and behind it the reader begins
anew. -/
theorem readPieces_append {t : Bytes} {r : Reader} (whole : readPieces r t = [t])
    (separates : (t.foldl Reader.step r).separates = true) (u : Bytes) :
    readPieces r (t ++ Byte.semicolon :: u) = t :: readPieces .start u := by
  induction t generalizing r with
  | nil =>
      have here : r.separates = true := separates
      rw [List.nil_append, readPieces, if_pos ⟨rfl, here⟩, Reader.step_separates here]
  | cons c t ih =>
      rw [readPieces] at whole
      split at whole
      next => cases whole
      next within =>
        have rest : readPieces (r.step c) t = [t] := by
          cases split : readPieces (r.step c) t with
          | nil => exact absurd split (readPieces_ne_nil _ t)
          | cons piece rest =>
              rw [split] at whole
              cases whole
              rfl
        rw [List.cons_append, readPieces, if_neg within, ih rest separates]
        rfl

theorem read_append {t : Bytes} (whole : readPieces .start t = [t]) (alone : StandsAlone t)
    (u : Bytes) : read (t ++ Byte.semicolon :: u) = ofPieces [t] ++ read u := by
  rw [read, readPieces_append whole alone, ← List.singleton_append, ofPieces_append, read]

theorem read_space (u : Bytes) : read (Byte.space :: u) = read u := by
  have here : ¬ (Byte.space = Byte.semicolon ∧ Reader.start.separates = true) :=
    fun here => absurd here.1 (by decide)
  have stays : Reader.start.step Byte.space = .start := by decide
  rw [read, readPieces, if_neg here, stays, ofPieces_consByte (readPieces_ne_nil _ _), read]

theorem read_nil : read [] = [] := by
  simp [read, readPieces, ofPieces, show trim [] = [] from trimmed_nil]

/-- Declarations that are read as one when they are written behind each other. -/
structure IsBlock (declarations : List Declaration) : Prop where
  ne_nil : declarations ≠ []
  whole : readPieces .start (joined declarations) = [joined declarations]
  alone : StandsAlone (joined declarations)

theorem joined_append {front back : List Declaration} (hfront : front ≠ []) (hback : back ≠ []) :
    joined (front ++ back) = joined front ++ Byte.semicolon :: Byte.space :: joined back := by
  induction front with
  | nil => exact absurd rfl hfront
  | cons d rest ih =>
      cases rest with
      | nil =>
          obtain ⟨e, back, rfl⟩ := List.exists_cons_of_ne_nil hback
          rw [List.singleton_append, joined_cons_cons, joined_singleton]
      | cons e rest =>
          rw [List.cons_append, List.cons_append, joined_cons_cons, ← List.cons_append,
            ih (List.cons_ne_nil e rest), joined_cons_cons, List.append_assoc, List.cons_append,
            List.cons_append]

section

variable {blocks : List (List Declaration)} (isBlock : ∀ block ∈ blocks, IsBlock block)

include isBlock

/-- Blocks are read one by one, with or without a semicolon behind them. -/
theorem read_joined (ne : blocks ≠ []) :
    read (joined blocks.flatten) = blocks.flatMap (fun block => ofPieces [joined block]) ∧
      read (joined blocks.flatten ++ [Byte.semicolon]) =
        blocks.flatMap (fun block => ofPieces [joined block]) := by
  induction blocks with
  | nil => exact absurd rfl ne
  | cons block rest ih =>
      obtain ⟨⟨full, whole, alone⟩, later⟩ := List.forall_mem_cons.1 isBlock
      rw [List.flatten_cons, List.flatMap_cons]
      cases rest with
      | nil =>
          rw [List.flatten_nil, List.append_nil, List.flatMap_nil, List.append_nil,
            read_append whole alone, read_nil, List.append_nil, read, whole]
          exact ⟨rfl, rfl⟩
      | cons next rest =>
          obtain ⟨open', closed⟩ := ih later (List.cons_ne_nil next rest)
          have behind : (next :: rest).flatten ≠ [] := by
            rw [List.flatten_cons]
            exact List.append_ne_nil_of_left_ne_nil (later next List.mem_cons_self).ne_nil _
          rw [joined_append full behind, List.append_assoc, List.cons_append, List.cons_append,
            read_append whole alone, read_append whole alone, read_space, read_space, open', closed]
          exact ⟨rfl, rfl⟩

theorem read_format (closed : Bool) :
    read (format blocks.flatten closed) =
      blocks.flatMap fun block => ofPieces [joined block] := by
  cases blocks with
  | nil =>
      cases closed with
      | false => exact read_nil
      | true => exact read_nil
  | cons block rest =>
      obtain ⟨open', ended⟩ := read_joined isBlock (List.cons_ne_nil block rest)
      rw [format_eq]
      split
      · exact ended
      · exact open'

end

/-- A piece of a style, as it is read, that stays what it is when it is split at each semicolon and
written anew. One that has to do with the property holds no semicolon. -/
structure PieceKept (property piece : Bytes) : Prop where
  whole : readPieces .start (joined (parse piece)) = [joined (parse piece)]
  alone : StandsAlone (joined (parse piece))
  same : ofPieces [joined (parse piece)] = ofPieces [piece]
  plain : (∃ d ∈ parse piece ++ ofPieces [piece], d.isOf property = true) →
    Byte.semicolon ∉ piece

instance (property piece : Bytes) : Decidable (PieceKept property piece) :=
  decidable_of_iff
    (readPieces .start (joined (parse piece)) = [joined (parse piece)] ∧
      StandsAlone (joined (parse piece)) ∧ ofPieces [joined (parse piece)] = ofPieces [piece] ∧
      ((∃ d ∈ parse piece ++ ofPieces [piece], d.isOf property = true) →
        Byte.semicolon ∉ piece))
    ⟨fun h => ⟨h.1, h.2.1, h.2.2.1, h.2.2.2⟩, fun h => ⟨h.whole, h.alone, h.same, h.plain⟩⟩

/-- All pieces of a style, as it is read, stay what they are. -/
def AllKept (property style : Bytes) : Prop :=
  ∀ piece ∈ readPieces .start style, PieceKept property piece

instance (property style : Bytes) : Decidable (AllKept property style) :=
  inferInstanceAs (Decidable (∀ piece ∈ readPieces .start style, PieceKept property piece))

theorem ofPieces_cons (piece : Bytes) (rest : List Bytes) :
    ofPieces (piece :: rest) = ofPieces [piece] ++ ofPieces rest :=
  ofPieces_append [piece] rest

theorem ofPieces_of_mem {piece : Bytes} {d : Declaration} (mem : d ∈ ofPieces [piece]) :
    ofPieces [piece] = [d] := by
  by_cases empty : piece.trim.isEmpty = true
  · simp [ofPieces, empty] at mem
  · simp only [ofPieces, List.map_cons, List.map_nil, List.filter_cons, empty, Bool.not_false,
      if_true, List.filter_nil, List.mem_singleton] at mem ⊢
    rw [mem]

theorem property_of_isOf {property : Bytes} {d : Declaration} (isOf : d.isOf property = true) :
    ∃ name value, d = .property name value ∧ name.sameIgnoringCase property = true := by
  cases d with
  | property name value => exact ⟨name, value, rfl, isOf⟩
  | other piece => cases isOf

theorem set_append {property : Bytes} {front : List Declaration}
    (none : ∀ d ∈ front, d.isOf property = false) (value : Bytes) (back : List Declaration) :
    set property value (front ++ back) = front ++ set property value back := by
  induction front with
  | nil => rfl
  | cons d front ih =>
      obtain ⟨other, later⟩ := List.forall_mem_cons.1 none
      cases d with
      | property name old =>
          have other : ¬ name.sameIgnoringCase property = true := by
            simpa [Declaration.isOf] using other
          rw [List.cons_append, set, if_neg other, ih later, List.cons_append]
      | other piece => rw [List.cons_append, set, ih later, List.cons_append]

section

variable {property : Bytes} {pieces : List Bytes}

theorem exists_kept_blocks (kept : ∀ piece ∈ pieces, PieceKept property piece) :
    ∃ blocks : List (List Declaration), (∀ block ∈ blocks, IsBlock block) ∧
      blocks.flatten = pieces.flatMap parse ∧
      blocks.flatMap (fun block => ofPieces [joined block]) = ofPieces pieces := by
  induction pieces with
  | nil => exact ⟨[], List.forall_mem_nil _, rfl, rfl⟩
  | cons piece rest ih =>
      obtain ⟨⟨whole, alone, same, -⟩, later⟩ := List.forall_mem_cons.1 kept
      obtain ⟨blocks, isBlock, flat, reads⟩ := ih later
      rw [List.flatMap_cons, ofPieces_cons]
      by_cases empty : parse piece = []
      · have blank : ofPieces [piece] = [] := by
          rw [← same, empty]
          exact read_nil
        rw [empty, blank]
        exact ⟨blocks, isBlock, flat, reads⟩
      · refine ⟨parse piece :: blocks, List.forall_mem_cons.2 ⟨⟨empty, whole, alone⟩, isBlock⟩, ?_,
          ?_⟩
        · rw [List.flatten_cons, flat]
        · rw [List.flatMap_cons, reads, same]

/-- Setting a property among pieces that are kept changes the first declaration of it, or adds one
behind the others. -/
theorem exists_set_blocks {value : Bytes}
    (written : ∀ name : Bytes, name.sameIgnoringCase property = true →
      IsBlock [.property name value] ∧
        ofPieces [joined [.property name value]] = [.property name value])
    (kept : ∀ piece ∈ pieces, PieceKept property piece) :
    ∃ blocks : List (List Declaration), (∀ block ∈ blocks, IsBlock block) ∧
      blocks.flatten = set property value (pieces.flatMap parse) ∧
      blocks.flatMap (fun block => ofPieces [joined block]) =
        set property value (ofPieces pieces) := by
  induction pieces with
  | nil =>
      obtain ⟨isBlock, reads⟩ := written property (sameIgnoringCase_self property)
      refine ⟨[[.property property value]], List.forall_mem_singleton.2 isBlock, rfl, ?_⟩
      rw [List.flatMap_singleton, reads]
      rfl
  | cons piece rest ih =>
      obtain ⟨here, later⟩ := List.forall_mem_cons.1 kept
      rw [List.flatMap_cons, ofPieces_cons]
      by_cases touched : ∃ d ∈ parse piece ++ ofPieces [piece], d.isOf property = true
      · -- The piece holds no semicolon, so it is one declaration in both readings.
        have single : parse piece = ofPieces [piece] := by
          rw [parse_eq, pieces_of_notMem (here.plain touched)]
        obtain ⟨d, mem, isOf⟩ := touched
        rw [single, List.mem_append, or_self] at mem
        obtain ⟨name, old, rfl, same⟩ := property_of_isOf isOf
        have one := ofPieces_of_mem mem
        obtain ⟨isBlock, reads⟩ := written name same
        obtain ⟨blocks, areBlocks, flat, reads'⟩ := exists_kept_blocks later
        refine ⟨[.property name value] :: blocks, List.forall_mem_cons.2 ⟨isBlock, areBlocks⟩, ?_,
          ?_⟩
        · rw [List.flatten_cons, flat, single, one, List.singleton_append, List.singleton_append,
            set, if_pos same]
        · rw [List.flatMap_cons, reads, reads', one, List.singleton_append, List.singleton_append,
            set, if_pos same]
      · have none : ∀ d ∈ parse piece ++ ofPieces [piece], d.isOf property = false := by
          intro d mem
          rw [← Bool.not_eq_true]
          exact fun isOf => touched ⟨d, mem, isOf⟩
        obtain ⟨front, behind⟩ := List.forall_mem_append.1 none
        obtain ⟨blocks, isBlock, flat, reads⟩ := ih later
        obtain ⟨own, ownBlocks, ownFlat, ownReads⟩ :=
          exists_kept_blocks (List.forall_mem_singleton.2 here)
        refine ⟨own ++ blocks, List.forall_mem_append.2 ⟨ownBlocks, isBlock⟩, ?_, ?_⟩
        · rw [List.flatten_append, ownFlat, flat, List.flatMap_singleton, set_append front]
        · rw [List.flatMap_append, ownReads, reads, set_append behind]

end

/-- The text that pieces make up with a semicolon between each two. -/
def rejoined (pieces : List Bytes) : Bytes := [Byte.semicolon].intercalate pieces

theorem rejoined_cons {rest : List Bytes} (ne : rest ≠ []) (piece : Bytes) :
    rejoined (piece :: rest) = piece ++ Byte.semicolon :: rejoined rest := by
  obtain ⟨next, rest, rfl⟩ := List.exists_cons_of_ne_nil ne
  simp [rejoined, List.intercalate_cons_cons]

theorem rejoined_readPieces (r : Reader) (t : Bytes) : rejoined (readPieces r t) = t := by
  induction t generalizing r with
  | nil => rfl
  | cons c t ih =>
      have ne := readPieces_ne_nil (r.step c) t
      rw [readPieces]
      split
      next here => rw [rejoined_cons ne, ih, here.1, List.nil_append]
      next =>
        have rest := ih (r.step c)
        obtain ⟨piece, later, split⟩ := List.exists_cons_of_ne_nil ne
        rw [split] at rest ⊢
        rw [consByte]
        cases later with
        | nil =>
            rw [rejoined, List.intercalate_singleton] at rest ⊢
            rw [rest]
        | cons next later =>
            rw [rejoined_cons (List.cons_ne_nil _ _)] at rest ⊢
            rw [List.cons_append, rest]

theorem parse_rejoined (pieces : List Bytes) : parse (rejoined pieces) = pieces.flatMap parse := by
  induction pieces with
  | nil => exact parse_nil
  | cons piece rest ih =>
      cases rest with
      | nil => rw [rejoined, List.intercalate_singleton, List.flatMap_singleton]
      | cons next rest => rw [rejoined_cons (List.cons_ne_nil _ _), parse_append, ih]; rfl

def isPropertyByte (c : UInt8) : Bool :=
  Byte.isAlphanumeric c || c == Byte.hyphen || c == Byte.underscore

theorem isPropertyByte_lower (c : UInt8) : isPropertyByte (Byte.lower c) = isPropertyByte c := by
  have all : ∀ n < 256, isPropertyByte (Byte.lower (UInt8.ofNat n)) =
      isPropertyByte (UInt8.ofNat n) := by decide +kernel
  have here := all c.toNat c.toNat_lt
  rwa [UInt8.ofNat_toNat] at here

theorem step_isPropertyByte {c : UInt8} (h : isPropertyByte c = true) :
    Reader.start.step c = .start := by
  have all : ∀ n < 256, isPropertyByte (UInt8.ofNat n) = true →
      Reader.start.step (UInt8.ofNat n) = .start := by decide +kernel
  have here := all c.toNat c.toNat_lt
  rw [UInt8.ofNat_toNat] at here
  exact here h

theorem isPropertyName_of_same {name property : Bytes}
    (same : name.sameIgnoringCase property = true) (valid : isPropertyName property = true) :
    isPropertyName name = true := by
  have bytes : name.map Byte.lower = property.map Byte.lower := by
    simpa [sameIgnoringCase] using same
  have all (t : Bytes) : (t.map Byte.lower).all isPropertyByte = t.all isPropertyByte := by
    rw [List.all_map]
    exact List.all_congr rfl isPropertyByte_lower
  have form (t : Bytes) : isPropertyName t = (!t.isEmpty && t.all isPropertyByte) := rfl
  have empty : name.isEmpty = property.isEmpty := by
    have width := congrArg List.length bytes
    rw [List.length_map, List.length_map] at width
    rw [Bool.eq_iff_iff, List.isEmpty_iff_length_eq_zero, List.isEmpty_iff_length_eq_zero, width]
  rw [form] at valid ⊢
  rwa [empty, ← all name, bytes, all property]

theorem standsAlone_property {name : Bytes} (valid : isPropertyName name = true) (value : Bytes) :
    StandsAlone (Declaration.property name value).format ↔ StandsAlone value := by
  have bytes : ∀ c ∈ name, isPropertyByte c = true := by
    have all : name.all isPropertyByte = true := (Bool.and_eq_true _ _ ▸ valid).2
    exact List.all_eq_true.1 all
  have passed : name.foldl Reader.step .start = .start := by
    clear valid
    induction name with
    | nil => rfl
    | cons c t ih =>
        obtain ⟨first, later⟩ := List.forall_mem_cons.1 bytes
        rw [List.foldl_cons, step_isPropertyByte first, ih later]
  have mark : (utf8 ": ").foldl Reader.step .start = .start := by decide +kernel
  rw [StandsAlone, Declaration.format, List.foldl_append, List.foldl_append, passed, mark,
    StandsAlone]

section

variable {property value style : Bytes} (valid : isPropertyName property = true)
  (trimmed : Trimmed value) (plain : Byte.semicolon ∉ value) (alone : StandsAlone value)

include valid trimmed plain alone

/-- What a browser reads in the new style, if the pieces of the old one stay what they are. -/
theorem read_withProperty (kept : AllKept property style) :
    read (withProperty property value style) = set property value (read style) := by
  have written (name : Bytes) (same : name.sameIgnoringCase property = true) :
      IsBlock [.property name value] ∧
        ofPieces [joined [.property name value]] = [.property name value] := by
    have named := isPropertyName_of_same same valid
    have tidy := tidy_property named trimmed plain
    rw [joined_singleton]
    refine ⟨⟨List.cons_ne_nil _ _, ?_, ?_⟩, tidy.ofPieces_format⟩
    · rw [joined_singleton]
      exact readPieces_of_notMem tidy.semicolon_notMem _
    · rw [joined_singleton]
      exact (standsAlone_property named value).2 alone
  obtain ⟨blocks, isBlock, flat, reads⟩ := exists_set_blocks written kept
  rw [← parse_rejoined, rejoined_readPieces] at flat
  rw [withProperty, ← flat, read_format isBlock, reads, read]

end

/-- The last declaration of the property has the value, and those of other properties are as they
were. -/
structure SetsProperty (property value : Bytes) (old new : List Declaration) : Prop where
  last : ∃ name, (new.filter (·.isOf property)).getLast? = some (.property name value)
  others : new.filter (!·.isOf property) = old.filter (!·.isOf property)

/-- The first declaration of a property is the last one, or the last one has the value already. -/
def Settled (property value : Bytes) (declarations : List Declaration) : Prop :=
  (declarations.filter (·.isOf property)).length ≤ 1 ∨
    ∃ name, (declarations.filter (·.isOf property)).getLast? = some (.property name value)

theorem SetsFirst.setsProperty_iff {property value : Bytes} {old new : List Declaration}
    (sets : SetsFirst property value old new) :
    SetsProperty property value old new ↔ Settled property value old := by
  have none_of {declarations : List Declaration}
      (none : ∀ d ∈ declarations, d.isOf property = false) :
      declarations.filter (·.isOf property) = [] := by
    simpa [List.filter_eq_nil_iff] using none
  cases sets with
  | @changed earlier later name old none same =>
      have own (text : Bytes) : (Declaration.property name text).isOf property = true := same
      have among (text : Bytes) :
          (earlier ++ .property name text :: later).filter (·.isOf property) =
            .property name text :: later.filter (·.isOf property) := by
        rw [List.filter_append, none_of none, List.nil_append, List.filter_cons_of_pos (own text)]
      have others : (earlier ++ .property name value :: later).filter (!·.isOf property) =
          (earlier ++ .property name old :: later).filter (!·.isOf property) := by
        rw [List.filter_append, List.filter_append, List.filter_cons_of_neg (by simp [own]),
          List.filter_cons_of_neg (by simp [own])]
      rw [Settled, among old]
      cases behind : later.filter (·.isOf property) with
      | nil =>
          refine iff_of_true ⟨⟨name, ?_⟩, others⟩ (.inl (Nat.le_refl 1))
          rw [among value, behind]
          rfl
      | cons d rest =>
          have more : ¬ (Declaration.property name old :: d :: rest).length ≤ 1 := by
            simp only [List.length_cons]
            omega
          rw [or_iff_right more, List.getLast?_cons_cons]
          refine ⟨fun h => ?_, fun last => ⟨?_, others⟩⟩
          · have last := h.last
            rwa [among value, behind, List.getLast?_cons_cons] at last
          · rwa [among value, behind, List.getLast?_cons_cons]
  | added none =>
      have own : (Declaration.property property value).isOf property = true :=
        sameIgnoringCase_self property
      refine iff_of_true ⟨⟨property, ?_⟩, ?_⟩ (.inl ?_)
      · rw [List.filter_append, none_of none, List.filter_cons_of_pos own]
        rfl
      · rw [List.filter_append, List.filter_cons_of_neg (by simp [own]), List.filter_nil,
          List.append_nil]
      · rw [none_of none]
        exact Nat.zero_le 1

end Style

end MarkupEdit
