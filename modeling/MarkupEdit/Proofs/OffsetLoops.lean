import MarkupEdit.Proofs.AttributeOrder
import MarkupEdit.Proofs.ElementSeams
import MarkupEdit.Proofs.OffsetScan
import MarkupEdit.Proofs.SiblingWalk

/-!
The loops that read a text by its units, round by round. A round leads to a state that is lower
by some measure and still has the same answer, or to the answer; so more rounds than the measure
of the first state are never needed. Forward the measure is what is left in front of a limit,
backward it is the offset.
-/

namespace MarkupEdit

/-- What a round of a loop leads to. -/
inductive Round (σ α : Type) where
  | next (s : σ)
  | done (a : α)

namespace Round

variable {σ α : Type}

/-- At most `n` rounds of a loop. -/
def run (round : σ → Round σ α) : Nat → σ → Option α
  | 0, _ => none
  | n + 1, s =>
    match round s with
    | .next s' => run round n s'
    | .done a => some a

/-- The round leads on to a state below the measure with the given answer, or to that answer. -/
def Leads (measure : σ → Nat) (answer : σ → α) (m : Nat) (a : α) : Round σ α → Prop
  | .next s => measure s < m ∧ answer s = a
  | .done b => b = a

variable {measure : σ → Nat} {answer : σ → α}

theorem leads_next {m : Nat} {a : α} {s : σ} :
    (next s).Leads measure answer m a ↔ measure s < m ∧ answer s = a :=
  Iff.rfl

theorem leads_done {m : Nat} {a b : α} : (done b).Leads measure answer m a ↔ b = a := Iff.rfl

/-- A loop each round of which leads on ends within as many rounds as its measure allows. -/
theorem run_eq {round : σ → Round σ α}
    (leads : ∀ s, (round s).Leads measure answer (measure s) (answer s)) {n : Nat} {s : σ}
    (enough : measure s < n) : run round n s = some (answer s) := by
  induction n generalizing s with
  | zero => cases enough
  | succ n ih =>
      have led := leads s
      rw [run]
      cases step : round s with
      | next s' =>
          rw [step, leads_next] at led
          dsimp only
          rw [ih (by omega), led.2]
      | done a =>
          rw [step, leads_done] at led
          exact congrArg some led

end Round

/-- All of the content, this being what was found before the rest. -/
def Content.before (found later : Content) : Content :=
  ⟨found.runs ++ later.runs, found.nested || later.nested⟩

namespace OffsetScan

/-- The walk over the attributes of a tag, at offset `i` and behind those found. -/
def attributesRound (text : Bytes) (limit : Nat) :
    Nat × List Attribute → Round (Nat × List Attribute) (List Attribute)
  | (i, found) =>
    if limit ≤ i then .done found
    else
      match text[i]? with
      | none => .done found
      | some c =>
        if Byte.isBlank c ∨ c = Byte.slash then .next (i + 1, found)
        else if c = Byte.openBrace then
          match Units.blockEnd text i with
          | none => .done found
          | some j => .next (j, found)
        else if Attribute.isAttributeNameByte c then
          let tail := ((text.drop (i + 1)).take (limit - (i + 1))).takeWhile
            Attribute.isAttributeNameByte
          let nameEnd := i + 1 + tail.length
          match Attribute.rawValue? limit nameEnd (text.drop nameEnd) with
          | none => .done found
          | some value =>
            let a : Attribute := ⟨i, c :: tail, value⟩
            .next (a.stop, found ++ [a])
        else .next (i + 1, found)

/-- The walk over the content of an element up to `stop`, at offset `i` in a run of text that
began at `start`. -/
def contentRound (text : Bytes) (stop : Nat) :
    Nat × Nat × Content → Round (Nat × Nat × Content) (Option Content)
  | (i, start, found) =>
    if stop ≤ i ∨ text.length ≤ i then
      .done (some (found.before ⟨Content.run start stop, false⟩))
    else
      match Child.read i (text.drop i) with
      | .unclosed => .done none
      | .text => .next (i + 1, start, found)
      | .unit j => .next (j, j, found.before ⟨Content.run start i, true⟩)

/-- The search for the closing tag of the parent, at offset `i` with `depth` elements open. -/
def parentEndRound (text : Bytes) : Nat × Nat → Round (Nat × Nat) Nat
  | (i, depth) =>
    match text[i]? with
    | none => .done text.length
    | some c =>
      if c = Byte.openBrace then .next ((Units.blockEnd text i).getD text.length, depth)
      else if c = Byte.less then
        if text[i + 1]? = some Byte.slash then
          match CloseTag.after? (i + 2) (text.drop (i + 2)) with
          | none => .next (i + 1, depth)
          | some close => if depth = 0 then .done i else .next (close.stop, depth - 1)
        else if text[i + 1]? = some Byte.bang then
          .next ((Scan.declarationEnd (i + 2) (text.drop (i + 2))).getD text.length, depth)
        else if text[i + 1]? = some Byte.greater then .next (i + 2, depth + 1)
        else
          match Units.openTag? text i with
          | none => .next (i + 1, depth)
          | some tag => .next (tag.stop, if tag.closesItself then depth else depth + 1)
      else .next (i + 1, depth)

/-- The walk over the children of the parent, at offset `i` and behind those found. -/
def childrenRound (text : Bytes) (target stop : Nat) :
    Nat × List Siblings.Marked → Round (Nat × List Siblings.Marked) (List Siblings.Marked)
  | (i, found) =>
    if stop ≤ i then .done found
    else
      match Siblings.step target i (text.drop i) with
      | none => .done found
      | some (here, j) => .next (j, found ++ here)

variable {text : Bytes}

theorem blockEnd_at {i : Nat} (h : text[i]? = some Byte.openBrace) :
    Units.blockEnd text i = Scan.blockEnd (i + 1) 0 (text.drop (i + 1)) := by
  rw [Units.blockEnd, (drop_of_some h).1]
  exact if_pos rfl

theorem attributesRound_leads (text : Bytes) (limit : Nat) (s : Nat × List Attribute) :
    (attributesRound text limit s).Leads (fun s => limit - s.1)
      (fun s => s.2 ++ Attribute.scan limit s.1 (text.drop s.1)) (limit - s.1)
      (s.2 ++ Attribute.scan limit s.1 (text.drop s.1)) := by
  obtain ⟨i, found⟩ := s
  rw [attributesRound]
  dsimp only
  by_cases reached : limit ≤ i
  · have nothing : Attribute.scan limit i (text.drop i) = [] := by
      cases text.drop i with
      | nil => rw [Attribute.scan]
      | cons c t => rw [Attribute.scan, if_pos reached]
    rw [if_pos reached, Round.leads_done, nothing, List.append_nil]
  · rw [if_neg reached]
    cases stands : text[i]? with
    | none => rw [Round.leads_done, drop_of_none stands, Attribute.scan, List.append_nil]
    | some c =>
        rw [(drop_of_some stands).1, Attribute.scan, if_neg reached]
        dsimp only
        by_cases blank : Byte.isBlank c = true ∨ c = Byte.slash
        · rw [if_pos blank, if_pos blank, Round.leads_next]
          exact ⟨by omega, rfl⟩
        · rw [if_neg blank, if_neg blank]
          by_cases brace : c = Byte.openBrace
          · rw [if_pos brace, if_pos brace, blockEnd_at (brace ▸ stands)]
            cases ended : Scan.blockEnd (i + 1) 0 (text.drop (i + 1)) with
            | none => exact (List.append_nil found).symm
            | some j =>
                have bounds := Scan.blockEnd_bounds ended
                dsimp only
                rw [goOn_drop text (by omega), Round.leads_next]
                exact ⟨by omega, rfl⟩
          · rw [if_neg brace, if_neg brace]
            by_cases named : Attribute.isAttributeNameByte c = true
            · rw [if_pos named, if_pos named, List.drop_drop]
              generalize ((text.drop (i + 1)).take (limit - (i + 1))).takeWhile
                Attribute.isAttributeNameByte = tail
              cases read : Attribute.rawValue? limit (i + 1 + tail.length)
                  (text.drop (i + 1 + tail.length)) with
              | none => exact (List.append_nil found).symm
              | some value =>
                  have named : (⟨i, c :: tail, value⟩ : Attribute).nameEnd =
                      i + 1 + tail.length := by
                    rw [Attribute.nameEnd, List.length_cons]
                    dsimp only
                    omega
                  rw [← named] at read
                  have behind := Attribute.le_stop_of_rawValue? read
                  dsimp only
                  rw [goOn_drop text (by omega), Round.leads_next, List.append_assoc]
                  exact ⟨by omega, rfl⟩
            · rw [if_neg named, if_neg named, Round.leads_next]
              exact ⟨by omega, rfl⟩

theorem contentRound_leads (text : Bytes) (stop : Nat) (s : Nat × Nat × Content) :
    (contentRound text stop s).Leads (fun s => stop - s.1)
      (fun s => (Content.scan? stop s.2.1 s.1 (text.drop s.1)).map s.2.2.before) (stop - s.1)
      ((Content.scan? stop s.2.1 s.1 (text.drop s.1)).map s.2.2.before) := by
  obtain ⟨i, start, found⟩ := s
  rw [contentRound]
  dsimp only
  by_cases reached : stop ≤ i ∨ text.length ≤ i
  · have nothing : Content.scan? stop start i (text.drop i) =
        some ⟨Content.run start stop, false⟩ := by
      cases rest : text.drop i with
      | nil => rw [Content.scan?]
      | cons c t =>
          have inside := (drop_eq_cons rest).2.2
          rw [Content.scan?, if_pos (by omega)]
    rw [if_pos reached, Round.leads_done, nothing, Option.map_some]
  · have room : text[i]? = some text[i] := List.getElem?_eq_getElem (by omega)
    have before : ¬ stop ≤ i := fun h => reached (.inl h)
    rw [if_neg reached, (drop_of_some room).1, Content.scan?, if_neg before]
    cases read : Child.read i (text[i] :: text.drop (i + 1)) with
    | unclosed => rfl
    | text =>
        dsimp only
        rw [Round.leads_next]
        exact ⟨by omega, rfl⟩
    | unit j =>
        have forward := (unit_of_read read).2.1
        dsimp only
        rw [goOn_drop text (by omega), Round.leads_next]
        refine ⟨by omega, ?_⟩
        dsimp only
        cases Content.scan? stop j j (text.drop j) with
        | none => rfl
        | some later => simp [Content.before]

/-- The answer of the search for the parent's end, also behind the text. -/
def parentEndFrom (text : Bytes) (i depth : Nat) : Nat :=
  if i ≤ text.length then Siblings.parentEnd i depth (text.drop i) else text.length

theorem parentEndFrom_length (depth : Nat) :
    parentEndFrom text text.length depth = text.length := by
  rw [parentEndFrom, if_pos (Nat.le_refl _), List.drop_length, Siblings.parentEnd]

theorem parentEndRound_leads (text : Bytes) (s : Nat × Nat) :
    (parentEndRound text s).Leads (fun s => text.length - s.1)
      (fun s => parentEndFrom text s.1 s.2) (text.length - s.1)
      (parentEndFrom text s.1 s.2) := by
  obtain ⟨i, depth⟩ := s
  rw [parentEndRound]
  dsimp only
  cases stands : text[i]? with
  | none =>
      have outside := List.getElem?_eq_none_iff.1 stands
      rw [Round.leads_done, parentEndFrom, drop_of_none stands, Siblings.parentEnd]
      split
      · omega
      · rfl
  | some c =>
      obtain ⟨rest, inside⟩ := drop_of_some stands
      have onward {j depth' a : Nat} (forward : i < j) (within : j ≤ text.length)
          (same : a = Siblings.parentEnd j depth' (text.drop j)) :
          (Round.next (j, depth') : Round (Nat × Nat) Nat).Leads (fun s => text.length - s.1)
            (fun s => parentEndFrom text s.1 s.2) (text.length - i) a := by
        rw [Round.leads_next, same]
        exact ⟨by dsimp only; omega, if_pos within⟩
      have toEnd {depth' : Nat} :
          (Round.next (text.length, depth') : Round (Nat × Nat) Nat).Leads
            (fun s => text.length - s.1) (fun s => parentEndFrom text s.1 s.2) (text.length - i)
            (i + 1 + (text.drop (i + 1)).length) := by
        rw [Round.leads_next, List.length_drop, parentEndFrom_length]
        exact ⟨by dsimp only; omega, by omega⟩
      rw [parentEndFrom, if_pos (Nat.le_of_lt inside), rest, Siblings.parentEnd, List.head?_drop,
        List.drop_drop]
      dsimp only
      by_cases brace : c = Byte.openBrace
      · rw [if_pos brace, if_pos brace, blockEnd_at (brace ▸ stands)]
        cases ended : Scan.blockEnd (i + 1) 0 (text.drop (i + 1)) with
        | none => exact toEnd
        | some j =>
            have bounds := Scan.blockEnd_bounds ended
            rw [List.length_drop] at bounds
            dsimp only
            rw [goOn_drop text (by omega), Option.getD_some]
            exact onward (by omega) (by omega) rfl
      · rw [if_neg brace, if_neg brace]
        by_cases less : c = Byte.less
        · rw [if_pos less, if_pos less]
          by_cases slash : text[i + 1]? = some Byte.slash
          · rw [if_pos slash, if_pos slash]
            cases found : CloseTag.after? (i + 2) (text.drop (i + 2)) with
            | none => exact onward (by omega) (by omega) rfl
            | some close =>
                have bounds := Scan.closeTag_bounds found
                rw [List.length_drop] at bounds
                dsimp only
                by_cases last : depth = 0
                · rw [if_pos last, if_pos last, Round.leads_done]
                · rw [if_neg last, if_neg last, goOn_drop text (by omega)]
                  exact onward (by omega) (by omega) rfl
          · rw [if_neg slash, if_neg slash]
            by_cases bang : text[i + 1]? = some Byte.bang
            · rw [if_pos bang, if_pos bang]
              cases ended : Scan.declarationEnd (i + 2) (text.drop (i + 2)) with
              | none => exact toEnd
              | some j =>
                  have bounds := Scan.declarationEnd_bounds ended
                  rw [List.length_drop] at bounds
                  dsimp only
                  rw [goOn_drop text (by omega), Option.getD_some]
                  exact onward (by omega) (by omega) rfl
            · rw [if_neg bang, if_neg bang]
              by_cases greater : text[i + 1]? = some Byte.greater
              · have room := (drop_of_some greater).2
                rw [if_pos greater, if_pos greater]
                exact onward (by omega) (by omega) rfl
              · rw [if_neg greater, if_neg greater, openTag?_at (less ▸ stands)]
                cases found : Scan.openTag? i (text.drop (i + 1)) with
                | none => exact onward (by omega) (by omega) rfl
                | some tag =>
                    have bounds := Scan.openTag?_bounds found
                    rw [List.length_drop] at bounds
                    dsimp only
                    rw [goOn_drop text (by omega)]
                    exact onward (by omega) (by omega) rfl
        · rw [if_neg less, if_neg less]
          exact onward (by omega) (by omega) rfl

theorem childrenRound_leads (text : Bytes) (target stop : Nat)
    (s : Nat × List Siblings.Marked) :
    (childrenRound text target stop s).Leads (fun s => stop - s.1)
      (fun s => s.2 ++ Siblings.children target stop s.1 (text.drop s.1)) (stop - s.1)
      (s.2 ++ Siblings.children target stop s.1 (text.drop s.1)) := by
  obtain ⟨i, found⟩ := s
  rw [childrenRound, Siblings.children_step]
  dsimp only
  by_cases reached : stop ≤ i
  · rw [if_pos reached, if_pos reached, Round.leads_done, List.append_nil]
  · rw [if_neg reached, if_neg reached]
    cases first : Siblings.step target i (text.drop i) with
    | none => exact (List.append_nil found).symm
    | some here =>
        obtain ⟨here, j⟩ := here
        have forward := (Siblings.step_spec first).1
        dsimp only
        rw [List.drop_drop, Nat.add_sub_cancel' (Nat.le_of_lt forward), Round.leads_next,
          List.append_assoc]
        exact ⟨by omega, rfl⟩

/-- The search for the owner of a marker: the next `<` before offset `i` is tried. -/
def ownerRound (text : Bytes) (marker : Nat) (i : Nat) : Round Nat (Option OpenTag) :=
  match Bytes.lastIndex? (text.take i) [Byte.less] with
  | none => .done none
  | some start =>
    match ownerAt? marker (Place.of text start) with
    | none => .next start
    | some tag => .done (some tag)

/-- The search for the opening tag of the parent of what starts at `before`, back from offset `i`
and over `depth` closing tags. -/
def parentStartRound (text : Bytes) (before : Nat) : Nat × Nat → Round (Nat × Nat) Nat
  | (0, _) => .done 0
  | (i + 1, depth) =>
    match text[i]? with
    | none => .next (i, depth)
    | some c =>
      if c = Byte.greater then
        .next ((Siblings.commentStart? (Place.backward text i)).getD i, depth)
      else if c = Byte.closeBrace then
        match Siblings.openingBrace? 0 (Place.backward text i) with
        | none => .done 0
        | some start => .next (start, depth)
      else if c = Byte.less then
        match Siblings.turnAt before i (text.drop (i + 1)) with
        | .neither => .next (i, depth)
        | .closes => .next (i, depth + 1)
        | .opens stop => if depth = 0 then .done stop else .next (i, depth - 1)
      else .next (i, depth)

theorem commentStart?_mem {places : List Place} {start : Nat}
    (h : Siblings.commentStart? places = some start) : ∃ place ∈ places, place.offset = start := by
  rw [Siblings.commentStart?] at h
  split at h
  · obtain ⟨place, found, same⟩ := Option.map_eq_some_iff.1 h
    exact ⟨place, List.mem_of_mem_drop (List.mem_of_find?_eq_some found), same⟩
  · cases h

theorem openingBrace?_mem {places : List Place} {depth start : Nat}
    (h : Siblings.openingBrace? depth places = some start) :
    ∃ place ∈ places, place.offset = start := by
  have later {place : Place} {rest : List Place}
      (h : ∃ other ∈ rest, other.offset = start) :
      ∃ other ∈ place :: rest, other.offset = start := by
    obtain ⟨other, mem, same⟩ := h
    exact ⟨other, List.mem_cons_of_mem place mem, same⟩
  fun_induction Siblings.openingBrace? depth places with
  | case1 => cases h
  | case2 depth place rest empty ih => exact later (ih h)
  | case3 depth place rest first ih => exact later (ih h)
  | case4 place rest first notClosed =>
      cases h
      exact ⟨place, List.mem_cons_self, rfl⟩
  | case5 depth place rest notClosed first deeper ih => exact later (ih h)
  | case6 depth place rest c first notClosed notOpen ih => exact later (ih h)

theorem less_of_ownerAt? {marker i : Nat} {tag : OpenTag}
    (h : ownerAt? marker (Place.of text i) = some tag) : text[i]? = some Byte.less := by
  simp only [ownerAt?, Place.of] at h
  split at h
  · cases h
  next c t rest =>
    split at h
    next less => rw [(drop_eq_cons rest).1, less]
    · cases h

theorem ownerRound_leads (text : Bytes) (marker i : Nat) :
    (ownerRound text marker i).Leads id
      (fun i => (Place.backward text i).findSome? (ownerAt? marker)) i
      ((Place.backward text i).findSome? (ownerAt? marker)) := by
  have nowhere (k : Nat) : ownerAt? marker ⟨k, []⟩ = none := rfl
  rw [ownerRound]
  cases last : Bytes.lastIndex? (text.take i) [Byte.less] with
  | none =>
      cases found : (Place.backward text i).findSome? (ownerAt? marker) with
      | none => rfl
      | some tag =>
          obtain ⟨k, before, owner, -⟩ := (Place.findSome?_backward nowhere).1 found
          have stands := Bytes.prefix_singleton_take.2 ⟨before, less_of_ownerAt? owner⟩
          obtain ⟨m, some⟩ := Bytes.lastIndex?_of_stands (List.cons_ne_nil _ _) stands
          cases last.symm.trans some
  | some start =>
      obtain ⟨stands, greatest⟩ := Bytes.lastIndex?_eq_some (List.cons_ne_nil _ _) last
      obtain ⟨before, less⟩ := Bytes.prefix_singleton_take.1 stands
      -- Only at a `<` a tag can own the marker, and `start` is the last one.
      have between {k : Nat} (behind : start < k) (hk : k < i) :
          ownerAt? marker (Place.of text k) = none := by
        cases owner : ownerAt? marker (Place.of text k) with
        | none => rfl
        | some tag =>
            have := greatest k (Bytes.prefix_singleton_take.2 ⟨hk, less_of_ownerAt? owner⟩)
            omega
      dsimp only
      cases here : ownerAt? marker (Place.of text start) with
      | some tag => exact ((Place.findSome?_backward nowhere).2
          ⟨start, before, here, fun k behind hk => between behind hk⟩).symm
      | none =>
          rw [Round.leads_next]
          refine ⟨before, Option.ext fun tag => ?_⟩
          rw [Place.findSome?_backward nowhere, Place.findSome?_backward nowhere]
          constructor
          · rintro ⟨k, hk, owner, later⟩
            refine ⟨k, by omega, owner, fun l behind hl => ?_⟩
            cases Nat.lt_trichotomy l start with
            | inl less => exact later l behind less
            | inr rest =>
                cases rest with
                | inl same => rw [same, here]
                | inr greater => exact between greater hl
          · rintro ⟨k, hk, owner, later⟩
            have earlier : k < start := by
              apply Nat.lt_of_not_le
              intro le
              cases Nat.eq_or_lt_of_le le with
              | inl same =>
                  rw [← same, here] at owner
                  cases owner
              | inr behind =>
                  rw [between behind hk] at owner
                  cases owner
            exact ⟨k, earlier, owner, fun l behind hl => later l behind (by omega)⟩

theorem parentStartRound_leads (text : Bytes) (before : Nat) (s : Nat × Nat) :
    (parentStartRound text before s).Leads (fun s => s.1)
      (fun s => Siblings.parentStart before s.2 (Place.backward text s.1)) s.1
      (Siblings.parentStart before s.2 (Place.backward text s.1)) := by
  obtain ⟨i, depth⟩ := s
  cases i with
  | zero =>
      rw [parentStartRound, Round.leads_done, Place.backward_eq, Nat.zero_min, Place.before]
      exact (Siblings.parentStart.eq_1 before depth).symm
  | succ i =>
      rw [parentStartRound]
      cases stands : text[i]? with
      | none =>
          rw [Place.backward_succ_outside (List.getElem?_eq_none_iff.1 stands)]
          exact ⟨Nat.lt_succ_self i, rfl⟩
      | some c =>
          obtain ⟨rest, inside⟩ := drop_of_some stands
          have onward (depth' : Nat) :
              (Round.next (i, depth') : Round (Nat × Nat) Nat).Leads (fun s => s.1)
                (fun s => Siblings.parentStart before s.2 (Place.backward text s.1)) (i + 1)
                (Siblings.parentStart before depth' (Place.backward text i)) :=
            ⟨Nat.lt_succ_self i, rfl⟩
          have back {start : Nat} (h : ∃ place ∈ Place.backward text i, place.offset = start) :
              (Round.next (start, depth) : Round (Nat × Nat) Nat).Leads (fun s => s.1)
                (fun s => Siblings.parentStart before s.2 (Place.backward text s.1)) (i + 1)
                (Siblings.parentStart before depth
                  ((Place.backward text i).drop (i - start))) := by
            obtain ⟨place, mem, rfl⟩ := h
            have earlier := Place.offset_lt_of_mem_backward mem
            rw [Place.drop_backward (Nat.le_of_lt earlier) (Nat.le_of_lt inside)]
            exact ⟨Nat.lt_succ_of_lt earlier, rfl⟩
          rw [Place.backward_succ inside, Siblings.parentStart, Place.of, rest]
          dsimp only
          by_cases greater : c = Byte.greater
          · rw [if_pos greater, if_pos greater]
            cases comment : Siblings.commentStart? (Place.backward text i) with
            | none => exact onward depth
            | some start => exact back (commentStart?_mem comment)
          · rw [if_neg greater, if_neg greater]
            by_cases brace : c = Byte.closeBrace
            · rw [if_pos brace, if_pos brace]
              cases opening : Siblings.openingBrace? 0 (Place.backward text i) with
              | none => rfl
              | some start => exact back (openingBrace?_mem opening)
            · rw [if_neg brace, if_neg brace]
              by_cases less : c = Byte.less
              · rw [if_pos less, if_pos less]
                cases Siblings.turnAt before i (text.drop (i + 1)) with
                | neither => exact onward depth
                | closes => exact onward (depth + 1)
                | opens stop =>
                    dsimp only
                    by_cases last : depth = 0
                    · rw [if_pos last, if_pos last, Round.leads_done]
                    · rw [if_neg last, if_neg last]
                      exact onward (depth - 1)
              · rw [if_neg less, if_neg less]
                exact onward depth

end OffsetScan

end MarkupEdit
