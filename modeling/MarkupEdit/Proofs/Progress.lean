import MarkupEdit.Proofs.OffsetLoops

/-!
That reading ends, on a text of any bytes: every scanner with as many rounds as what is left of
the text asks for, and every loop over units with as many as its measure. What a scanner finds
ends behind the place where it was begun, inside the text, and with its closing delimiter.
-/

namespace MarkupEdit

/-- A unit that was begun at `i` ends at `j`, inside the text and with the byte `c`. -/
structure EndsAt (text : Bytes) (c : UInt8) (i j : Nat) : Prop where
  forward : i < j
  within : j ≤ text.length
  closing : text[j - 1]? = some c

theorem Scan.EndsIn.endsAt {text : Bytes} {c : UInt8} {k i j : Nat}
    (h : EndsIn c k (text.drop k) j) (forward : i < j) : EndsAt text c i j := by
  obtain ⟨l, rfl, stands⟩ := h.stands
  exact ⟨forward, (List.getElem?_eq_some_iff.1 stands).1, stands⟩

namespace Units

variable {text : Bytes} {i j : Nat}

theorem endsAt_quotedEnd (h : quotedEnd text i = some j) :
    ∃ quote, text[i]? = some quote ∧ EndsAt text quote i j := by
  rw [quotedEnd] at h
  split at h
  · cases h
  next quote t rest =>
    obtain ⟨stands, tail, -⟩ := drop_eq_cons rest
    have forward := (Scan.quotedEnd_bounds h).1
    rw [← tail] at h
    exact ⟨quote, stands, (Scan.quotedEnd_endsIn h).endsAt (by omega)⟩

theorem endsAt_templateEnd (h : templateEnd text i = some j) :
    EndsAt text Byte.backtick i j := by
  rw [templateEnd] at h
  split at h
  · cases h
  next c t rest =>
    split at h
    · have forward := (Scan.templateEnd_bounds h).1
      rw [← (drop_eq_cons rest).2.1] at h
      exact (Scan.templateEnd_endsIn h).endsAt (by omega)
    · cases h

theorem endsAt_blockEnd (h : blockEnd text i = some j) : EndsAt text Byte.closeBrace i j := by
  rw [blockEnd] at h
  split at h
  · cases h
  next c t rest =>
    split at h
    · have forward := (Scan.blockEnd_bounds h).1
      rw [← (drop_eq_cons rest).2.1] at h
      exact (Scan.blockEnd_endsIn h).endsAt (by omega)
    · cases h

theorem endsAt_openTag? {tag : OpenTag} (h : openTag? text i = some tag) :
    EndsAt text Byte.greater i tag.stop := by
  obtain ⟨t, rest, opened⟩ := openTag?_eq_some_iff.1 h
  have forward := (Scan.openTag?_bounds opened).1
  rw [← (drop_eq_cons rest).2.1] at opened
  exact (Scan.openTag?_endsIn opened).2.endsAt (by omega)

theorem endsAt_contentEnd {name : Bytes} (h : contentEnd text i name = some j) :
    EndsAt text Byte.greater i j :=
  (Scan.contentEnd_endsIn h).1.endsAt (Scan.contentEnd_bounds h).1

end Units

namespace OffsetScan

variable {text : Bytes}

theorem endsAt_elementEnd {i j : Nat} (h : elementEnd text i = some j) :
    EndsAt text Byte.greater i j := by
  rw [elementEnd] at h
  split at h
  · have content := Units.endsAt_contentEnd h
    exact { content with forward := by have := content.forward; omega }
  · split at h
    · cases h
    next tag opened =>
      have front := Units.endsAt_openTag? opened
      split at h
      · cases h
        exact front
      · have content := Units.endsAt_contentEnd h
        exact { content with forward := Nat.lt_trans front.forward content.forward }

/-- Past the literal at an offset, whatever byte its quote is. -/
def quotedAt (text : Bytes) (n i : Nat) : Option (Option Nat) :=
  match text[i]? with
  | none => some none
  | some quote => quoted text quote n (i + 1)

def templateAt (text : Bytes) (n i : Nat) : Option (Option Nat) :=
  if text[i]? = some Byte.backtick then template text n (i + 1) else some none

def blockAt (text : Bytes) (n i : Nat) : Option (Option Nat) :=
  if text[i]? = some Byte.openBrace then block text n i 0 else some none

section

variable {n i : Nat} (enough : 4 * (text.length + 1 - i) + 3 < n)

include enough

theorem quotedAt_ends : quotedAt text n i = some (Units.quotedEnd text i) := by
  rw [quotedAt, Units.quotedEnd]
  cases stands : text[i]? with
  | none => rw [drop_of_none stands]
  | some quote =>
      rw [(drop_of_some stands).1]
      exact quoted_ends (by omega)

theorem templateAt_ends : templateAt text n i = some (Units.templateEnd text i) := by
  rw [templateAt, Units.templateEnd]
  cases stands : text[i]? with
  | none =>
      rw [drop_of_none stands]
      rfl
  | some c =>
      rw [(drop_of_some stands).1]
      dsimp only
      by_cases backtick : c = Byte.backtick
      · rw [if_pos (congrArg some backtick), if_pos backtick]
        exact (ends text n).template (i + 1) (by omega)
      · rw [if_neg (fun same => backtick (Option.some.inj same)), if_neg backtick]

theorem blockAt_ends : blockAt text n i = some (Units.blockEnd text i) := by
  rw [blockAt]
  by_cases brace : text[i]? = some Byte.openBrace
  · rw [if_pos brace, (ends text n).entry i brace (by omega), blockEnd_at brace]
  · rw [if_neg brace, Units.blockEnd]
    cases rest : text.drop i with
    | nil => rfl
    | cons c t =>
        have other : c ≠ Byte.openBrace := by
          rintro rfl
          exact brace (drop_eq_cons rest).1
        dsimp only
        rw [if_neg other]

end

/-- Every scan of a text ends. The answer of a scanner that is given rounds enough is that of the
scanner which needs none, and so is the answer of a loop. -/
structure Terminates (text : Bytes) : Prop where
  quoted : ∀ n i, 4 * (text.length + 1 - i) + 3 < n →
    quotedAt text n i = some (Units.quotedEnd text i)
  template : ∀ n i, 4 * (text.length + 1 - i) + 3 < n →
    templateAt text n i = some (Units.templateEnd text i)
  block : ∀ n i, 4 * (text.length + 1 - i) + 3 < n →
    blockAt text n i = some (Units.blockEnd text i)
  element : ∀ n i, 4 * (text.length + 1 - i) + 3 < n →
    element text n i = some (elementEnd text i)
  openTag : ∀ n i, 4 * (text.length + 1 - i) + 3 < n →
    openTag text n i = some (Units.openTag? text i)
  content : ∀ n i name, 4 * (text.length + 1 - i) + 3 < n →
    content text n i name 1 = some (Units.contentEnd text i name)
  quotedProgress : ∀ i j, Units.quotedEnd text i = some j →
    ∃ quote, text[i]? = some quote ∧ EndsAt text quote i j
  templateProgress : ∀ i j, Units.templateEnd text i = some j → EndsAt text Byte.backtick i j
  blockProgress : ∀ i j, Units.blockEnd text i = some j → EndsAt text Byte.closeBrace i j
  elementProgress : ∀ i j, elementEnd text i = some j → EndsAt text Byte.greater i j
  openTagProgress : ∀ i tag, Units.openTag? text i = some tag →
    EndsAt text Byte.greater i tag.stop
  contentProgress : ∀ i name j, Units.contentEnd text i name = some j →
    EndsAt text Byte.greater i j
  attributes : ∀ n (tag : OpenTag), tag.bodyEnd - tag.nameEnd < n →
    Round.run (attributesRound text tag.bodyEnd) n (tag.nameEnd, []) =
      some (tag.attributes text)
  children : ∀ n start stop, stop - start < n →
    Round.run (contentRound text stop) n (start, start, ⟨[], false⟩) =
      some (Content.between? text start stop)
  parentEnd : ∀ n i, i ≤ text.length → text.length - i < n →
    Round.run (parentEndRound text) n (i, 0) = some (Siblings.parentEnd i 0 (text.drop i))
  siblings : ∀ n target start stop, stop - start < n →
    Round.run (childrenRound text target stop) n (start, []) =
      some (Siblings.children target stop start (text.drop start))
  owner : ∀ n marker, marker < n →
    Round.run (ownerRound text marker) n marker = some (owner? text marker)
  parentStart : ∀ n before, before < n →
    Round.run (parentStartRound text before) n (before, 0) =
      some (Siblings.parentStart before 0 (Place.backward text before))

end OffsetScan

open OffsetScan in
/-- Reading ends and makes progress on every text. -/
theorem reading_ends (text : Bytes) : Terminates text := by
  have all := ends text
  exact {
    quoted := fun n i enough => quotedAt_ends enough
    template := fun n i enough => templateAt_ends enough
    block := fun n i enough => blockAt_ends enough
    element := fun n i enough => (all n).element i (by omega)
    openTag := fun n i enough => (all n).openTag i (by omega)
    content := fun n i name enough => (all n).content i name 0 enough
    quotedProgress := fun i j => Units.endsAt_quotedEnd
    templateProgress := fun i j => Units.endsAt_templateEnd
    blockProgress := fun i j => Units.endsAt_blockEnd
    elementProgress := fun i j => endsAt_elementEnd
    openTagProgress := fun i tag => Units.endsAt_openTag?
    contentProgress := fun i name j => Units.endsAt_contentEnd
    attributes := by
      intro n tag enough
      rw [Round.run_eq (attributesRound_leads text tag.bodyEnd) enough, tag.attributes_eq_scan]
      rfl
    children := by
      intro n start stop enough
      rw [Round.run_eq (contentRound_leads text stop) enough, Content.between?]
      dsimp only
      cases Content.scan? stop start start (text.drop start) with
      | none => rfl
      | some later => simp [Content.before]
    parentEnd := by
      intro n i inside enough
      rw [Round.run_eq (parentEndRound_leads text) enough, parentEndFrom, if_pos inside]
    siblings := fun n target start stop enough =>
      Round.run_eq (childrenRound_leads text target stop) enough
    owner := fun n marker enough => Round.run_eq (ownerRound_leads text marker) enough
    parentStart := fun n before enough =>
      Round.run_eq (parentStartRound_leads text before) enough }

end MarkupEdit
