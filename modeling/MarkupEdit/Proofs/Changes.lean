import MarkupEdit.Document

/-!
What a call applies to a document. Applying mutations one by one goes through the texts that they
produce in turn; in an open batch it leaves what can be undone and redone alone, so a call that
applies many is one step of the history, and none if nothing came of it.
-/

namespace MarkupEdit

/-- The new text of a mutation that is neither refused nor without effect. -/
def Mutation.change? (text : Bytes) (m : Mutation) : Option Bytes :=
  match m.apply text with
  | .error _ => none
  | .ok new => if new = text then none else some new

/-- The texts that mutations produce in turn, each applied to the last one. -/
def Mutation.changes (text : Bytes) : List Mutation → List Bytes
  | [] => []
  | m :: rest =>
    match m.change? text with
    | none => changes text rest
    | some new => new :: changes new rest

namespace Mutation

theorem changes_cons_of_none {text : Bytes} {m : Mutation} (h : m.change? text = none)
    (rest : List Mutation) : changes text (m :: rest) = changes text rest := by
  rw [changes, h]

theorem changes_cons_of_some {text new : Bytes} {m : Mutation} (h : m.change? text = some new)
    (rest : List Mutation) : changes text (m :: rest) = new :: changes new rest := by
  rw [changes, h]

end Mutation

theorem History.pending_endBatch (h : History) : h.endBatch.pending = none := by
  rw [endBatch]
  split <;> rfl

namespace Document

theorem apply_of_change?_none {doc : Document} {m : Mutation} (h : m.change? doc.text = none) :
    (doc.apply m).1.isApplied = false ∧ (doc.apply m).2 = doc := by
  rw [Mutation.change?] at h
  rw [apply]
  cases applied : m.apply doc.text with
  | error refusal => exact ⟨rfl, rfl⟩
  | ok new =>
      rw [applied] at h
      by_cases same : new = doc.text
      · simp only [same, if_true, Outcome.isApplied, and_self]
      · simp [same] at h

theorem apply_of_change?_some {doc : Document} {m : Mutation} {new : Bytes}
    (h : m.change? doc.text = some new) :
    doc.apply m =
      (.applied (doc.version + 1), doc.changeTo new (doc.history.record doc.text m)) := by
  rw [Mutation.change?] at h
  rw [apply]
  cases applied : m.apply doc.text with
  | error refusal => simp [applied] at h
  | ok text =>
      rw [applied] at h
      by_cases same : text = doc.text
      · simp [same] at h
      · simp only [same, if_false, Option.some.injEq] at h
        subst h
        simp only [same, if_false]

/-- The reason given for a mutation that is not applied depends on the text alone, like all of
the outcome but the version. -/
theorem apply_congr {doc other : Document} (text : doc.text = other.text)
    (version : doc.version = other.version) (m : Mutation) :
    (doc.apply m).1 = (other.apply m).1 ∧ (doc.apply m).2.text = (other.apply m).2.text ∧
      (doc.apply m).2.version = (other.apply m).2.version := by
  simp only [apply, text, version]
  split
  · exact ⟨rfl, text, version⟩
  · split
    · exact ⟨rfl, text, version⟩
    · exact ⟨rfl, rfl, congrArg (· + 1) version⟩

theorem applyEach_congr {doc other : Document} (text : doc.text = other.text)
    (version : doc.version = other.version) (mutations : List Mutation) :
    (doc.applyEach mutations).1 = (other.applyEach mutations).1 ∧
      (doc.applyEach mutations).2.text = (other.applyEach mutations).2.text ∧
      (doc.applyEach mutations).2.version = (other.applyEach mutations).2.version := by
  induction mutations generalizing doc other with
  | nil => exact ⟨rfl, text, version⟩
  | cons m rest ih =>
      obtain ⟨outcome, text', version'⟩ := apply_congr text version m
      obtain ⟨outcomes, text'', version''⟩ := ih text' version'
      simp only [applyEach]
      rw [outcome, outcomes]
      exact ⟨rfl, text'', version''⟩

theorem any_isApplied_applyEach (doc : Document) (mutations : List Mutation) :
    (doc.applyEach mutations).1.any Outcome.isApplied =
      !(Mutation.changes doc.text mutations).isEmpty := by
  induction mutations generalizing doc with
  | nil => rfl
  | cons m rest ih =>
      simp only [applyEach, List.any_cons, ih]
      cases h : m.change? doc.text with
      | none =>
          obtain ⟨unchanged, same⟩ := apply_of_change?_none h
          rw [unchanged, same, Bool.false_or, Mutation.changes_cons_of_none h]
      | some new =>
          rw [apply_of_change?_some h, Mutation.changes_cons_of_some h]
          rfl

theorem applyEach_of_changes_nil {doc : Document} {mutations : List Mutation}
    (h : Mutation.changes doc.text mutations = []) : (doc.applyEach mutations).2 = doc := by
  induction mutations with
  | nil => rfl
  | cons m rest ih =>
      cases change : m.change? doc.text with
      | none =>
          rw [Mutation.changes_cons_of_none change] at h
          simp only [applyEach, (apply_of_change?_none change).2, ih h]
      | some new => simp [Mutation.changes_cons_of_some change] at h

/-- In an open batch mutations leave both directions of the history alone; the first one that is
applied puts down the text from before it. -/
theorem applyEach_batching {doc : Document} {p : OpenBatch} (h : doc.history.pending = some p)
    (mutations : List Mutation) :
    (doc.applyEach mutations).2.text =
        (Mutation.changes doc.text mutations).getLast?.getD doc.text ∧
      ∃ batch, (doc.applyEach mutations).2.history =
        { doc.history with
          pending := some ⟨batch,
            if (Mutation.changes doc.text mutations).isEmpty then p.snapshot
            else some (p.snapshot.getD doc.text)⟩ } := by
  induction mutations generalizing doc p with
  | nil =>
      refine ⟨rfl, p.batch, ?_⟩
      change doc.history = { doc.history with pending := some p }
      rw [← h]
  | cons m rest ih =>
      cases change : m.change? doc.text with
      | none =>
          rw [Mutation.changes_cons_of_none change]
          simp only [applyEach]
          rw [(apply_of_change?_none change).2]
          exact ih h
      | some new =>
          have recorded : (doc.changeTo new (doc.history.record doc.text m)).history =
              { doc.history with
                pending := some ⟨p.batch.add m, some (p.snapshot.getD doc.text)⟩ } := by
            simp only [changeTo, History.record, h]
          obtain ⟨text, batch, history⟩ := ih (congrArg History.pending recorded)
          rw [Mutation.changes_cons_of_some change]
          simp only [applyEach]
          rw [apply_of_change?_some change]
          refine ⟨?_, batch, ?_⟩
          · rw [text, List.getLast?_cons]
            rfl
          · rw [history, recorded]
            simp

/-- The document with an open batch that has put down no text yet. -/
def gathering (doc : Document) (batch : Batch) : Document :=
  { doc with history := { doc.history with pending := some ⟨batch, none⟩ } }

theorem endBatch_idle {h : History} (idle : h.pending = none) : h.endBatch = h := by
  obtain ⟨undoable, redoable, capacity, pending⟩ := h
  cases idle
  rfl

/-- Mutations as one step are the mutations one after the other, in an open batch that is then
closed. -/
theorem applyAll_eq {doc : Document} (idle : doc.history.pending = none)
    (mutations : List Mutation) (description : Option String) :
    ∃ batch, doc.applyAll mutations description =
      (((doc.gathering batch).applyEach mutations).1,
        { ((doc.gathering batch).applyEach mutations).2 with
          history := ((doc.gathering batch).applyEach mutations).2.history.endBatch }) := by
  have opened : doc.history.beginBatch =
      { doc.history with pending := some ⟨Batch.empty, none⟩ } := by
    rw [History.beginBatch, endBatch_idle idle]
  cases description with
  | none => exact ⟨.empty, by simp only [applyAll, opened]; rfl⟩
  | some description =>
      exact ⟨Batch.empty.withDescription description, by simp only [applyAll, opened]; rfl⟩

theorem applyAll_results (doc : Document) (mutations : List Mutation)
    (description : Option String) :
    (doc.applyAll mutations description).1 = (doc.applyEach mutations).1 ∧
      (doc.applyAll mutations description).2.text = (doc.applyEach mutations).2.text ∧
      (doc.applyAll mutations description).2.version = (doc.applyEach mutations).2.version := by
  have alike (history : History) := @applyEach_congr { doc with history } doc rfl rfl mutations
  cases description with
  | none => exact alike doc.history.beginBatch
  | some description => exact alike (doc.history.beginBatch.describe description)

theorem applyAll_of_changes_nil {doc : Document} (idle : doc.history.pending = none)
    {mutations : List Mutation} (h : Mutation.changes doc.text mutations = [])
    (description : Option String) : (doc.applyAll mutations description).2 = doc := by
  obtain ⟨batch, applied⟩ := applyAll_eq idle mutations description
  have same : ((doc.gathering batch).applyEach mutations).2 = doc.gathering batch :=
    applyEach_of_changes_nil h
  rw [applied, same]
  obtain ⟨version, text, storage, ⟨undoable, redoable, capacity, pending⟩⟩ := doc
  cases idle
  rfl

theorem applyAll_of_changes {doc : Document} (idle : doc.history.pending = none)
    {mutations : List Mutation} {new : Bytes}
    (h : (Mutation.changes doc.text mutations).getLast? = some new)
    (description : Option String) :
    (doc.applyAll mutations description).2.text = new ∧
      ∃ batch, (doc.applyAll mutations description).2.history =
        doc.history.push ⟨doc.text, batch⟩ := by
  obtain ⟨batch, applied⟩ := applyAll_eq idle mutations description
  have changed : (Mutation.changes doc.text mutations).isEmpty = false := by
    cases changes : Mutation.changes doc.text mutations with
    | nil => simp [changes] at h
    | cons => rfl
  have pending : (doc.gathering batch).history.pending = some ⟨batch, none⟩ := rfl
  have text : (doc.gathering batch).text = doc.text := rfl
  obtain ⟨last, batch', history⟩ := applyEach_batching pending mutations
  rw [text] at last history
  rw [changed] at history
  rw [applied, last, h, history]
  refine ⟨rfl, batch'.described, ?_⟩
  obtain ⟨version, text, storage, ⟨undoable, redoable, capacity, pending⟩⟩ := doc
  cases idle
  rfl

end Document

end MarkupEdit
