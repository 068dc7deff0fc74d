import MarkupEdit.Proofs.Changes

/-!
A document is a bounded linear history. Its history keeps steps with batches and snapshots, and
one call may apply many mutations; what a client sees is a line of texts with a present one.
Every run of calls moves along that line as the four moves of a `Timeline` say.
-/

namespace MarkupEdit

/-- The texts that can be restored, the oldest first; the current text; the texts that can be
brought back, the next one first. -/
structure Timeline where
  past : List Bytes
  present : Bytes
  future : List Bytes

namespace Timeline

/-- The last entries that a capacity leaves; 0 leaves all. -/
def latest (capacity : Nat) (texts : List Bytes) : List Bytes :=
  if capacity = 0 then texts else texts.drop (texts.length - capacity)

/-- One step forward over all the texts that mutations produce; without any, none. -/
def edit (capacity : Nat) (t : Timeline) (mutations : List Mutation) : Timeline :=
  match (Mutation.changes t.present mutations).getLast? with
  | none => t
  | some new => ⟨latest capacity (t.past ++ [t.present]), new, []⟩

def undo (t : Timeline) : Timeline :=
  match t.past.getLast? with
  | none => t
  | some text => ⟨t.past.dropLast, text, t.present :: t.future⟩

def redo (t : Timeline) : Timeline :=
  match t.future with
  | [] => t
  | text :: rest => ⟨t.past ++ [t.present], text, rest⟩

end Timeline

inductive Call where
  | apply (m : Mutation)
  | applyAll (mutations : List Mutation) (description : Option String)
  | undo
  | redo

def Document.call (doc : Document) : Call → Document
  | .apply m => (doc.apply m).2
  | .applyAll mutations description => (doc.applyAll mutations description).2
  | .undo => doc.undo.2
  | .redo => doc.redo.2

def Document.run (doc : Document) (calls : List Call) : Document := calls.foldl Document.call doc

def Timeline.call (capacity : Nat) (t : Timeline) : Call → Timeline
  | .apply m => t.edit capacity [m]
  | .applyAll mutations _ => t.edit capacity mutations
  | .undo => t.undo
  | .redo => t.redo

def Timeline.run (capacity : Nat) (t : Timeline) (calls : List Call) : Timeline :=
  calls.foldl (Timeline.call capacity) t

/-- A document with no open batch shows a timeline. That both directions together stay within
the capacity is what lets `redo` put its step back unchecked. -/
structure Document.Shows (capacity : Nat) (doc : Document) (t : Timeline) : Prop where
  present : doc.text = t.present
  past : doc.history.undoable.map (·.snapshot) = t.past.reverse
  future : doc.history.redoable.map (·.snapshot) = t.future
  idle : doc.history.pending = none
  kept : doc.history.capacity = capacity
  bounded : 0 < capacity → t.past.length + t.future.length ≤ capacity

namespace Timeline

theorem latest_bounded {capacity : Nat} (positive : 0 < capacity) (texts : List Bytes) :
    (latest capacity texts).length ≤ capacity := by
  rw [latest, if_neg (by omega), List.length_drop]
  omega

/-- Steps are kept with the last one first, texts with the last one at the end. -/
theorem snapshots_keep {steps : List Step} {texts : List Bytes}
    (h : steps.map (·.snapshot) = texts.reverse) (capacity : Nat) :
    (History.keep capacity steps).map (·.snapshot) = (latest capacity texts).reverse := by
  by_cases unlimited : capacity = 0
  · rw [History.keep, latest, if_pos unlimited, if_pos unlimited, h]
  · rw [History.keep, latest, if_neg unlimited, if_neg unlimited, List.map_take, h,
      List.take_reverse]

end Timeline

namespace Document.Shows

variable {capacity : Nat} {doc : Document} {t : Timeline}

theorem push (shows' : doc.Shows capacity t) {after : Document} {new : Bytes} {batch : Batch}
    (text : after.text = new) (history : after.history = doc.history.push ⟨doc.text, batch⟩) :
    after.Shows capacity ⟨Timeline.latest capacity (t.past ++ [t.present]), new, []⟩ where
  present := text
  past := by
    rw [history, ← shows'.kept]
    apply Timeline.snapshots_keep
    rw [List.map_cons, shows'.past, shows'.present, List.reverse_append]
    rfl
  future := by rw [history]; rfl
  idle := by rw [history]; exact shows'.idle
  kept := by rw [history]; exact shows'.kept
  bounded positive := Timeline.latest_bounded positive _

theorem applyAll (shows' : doc.Shows capacity t) (mutations : List Mutation)
    (description : Option String) :
    (doc.applyAll mutations description).2.Shows capacity (t.edit capacity mutations) := by
  rw [Timeline.edit, ← shows'.present]
  cases last : (Mutation.changes doc.text mutations).getLast? with
  | none =>
      rw [applyAll_of_changes_nil shows'.idle (List.getLast?_eq_none_iff.1 last)]
      exact shows'
  | some new =>
      obtain ⟨text, batch, history⟩ := applyAll_of_changes shows'.idle last description
      rw [shows'.present]
      exact shows'.push text history

theorem apply (shows' : doc.Shows capacity t) (m : Mutation) :
    (doc.apply m).2.Shows capacity (t.edit capacity [m]) := by
  rw [Timeline.edit, ← shows'.present]
  cases change : m.change? doc.text with
  | none =>
      rw [Mutation.changes_cons_of_none change, (apply_of_change?_none change).2]
      exact shows'
  | some new =>
      rw [Mutation.changes_cons_of_some change, apply_of_change?_some change, shows'.present]
      have recorded : doc.history.record t.present m =
          doc.history.push ⟨doc.text, .single m⟩ := by
        rw [History.record, shows'.idle, shows'.present]
      exact shows'.push rfl recorded

theorem undo (shows' : doc.Shows capacity t) :
    doc.undo.1 = !t.past.isEmpty ∧ (t.past = [] → doc.undo.2 = doc) ∧
      doc.undo.2.Shows capacity t.undo := by
  have bounded := shows'.bounded
  have past := shows'.past
  have closed := endBatch_idle shows'.idle
  rw [Document.undo, History.undo, closed]
  cases steps : doc.history.undoable with
  | nil =>
      have empty : t.past = [] := by simpa [steps] using past.symm
      have stays : t.undo = t := by rw [Timeline.undo, empty]; rfl
      rw [stays]
      exact ⟨by rw [empty]; rfl, fun _ => rfl, shows'⟩
  | cons step rest =>
      have split : t.past = (rest.map (·.snapshot)).reverse ++ [step.snapshot] := by
        rw [steps, List.map_cons] at past
        rw [← List.reverse_reverse t.past, ← past, List.reverse_cons]
      have moves : t.undo =
          ⟨(rest.map (·.snapshot)).reverse, step.snapshot, t.present :: t.future⟩ := by
        rw [Timeline.undo, split, List.getLast?_concat, List.dropLast_concat]
      rw [moves]
      refine ⟨by simp [split, restore], by simp [split], ?_⟩
      exact {
        present := rfl
        past := by simp [restore, changeTo]
        future := by
          simp only [restore, changeTo, List.map_cons, shows'.future, shows'.present]
        idle := shows'.idle
        kept := shows'.kept
        bounded := by
          intro positive
          have := bounded positive
          simp only [split, List.length_append, List.length_singleton] at this
          simp only [List.length_cons]
          omega }

theorem redo (shows' : doc.Shows capacity t) :
    doc.redo.1 = !t.future.isEmpty ∧ (t.future = [] → doc.redo.2 = doc) ∧
      doc.redo.2.Shows capacity t.redo := by
  have bounded := shows'.bounded
  have future := shows'.future
  rw [Document.redo, History.redo]
  cases steps : doc.history.redoable with
  | nil =>
      have empty : t.future = [] := by simpa [steps] using future.symm
      have stays : t.redo = t := by rw [Timeline.redo, empty]
      rw [stays]
      exact ⟨by rw [empty]; rfl, fun _ => rfl, shows'⟩
  | cons step rest =>
      have split : t.future = step.snapshot :: rest.map (·.snapshot) := by
        rw [← future, steps, List.map_cons]
      have moves : t.redo = ⟨t.past ++ [t.present], step.snapshot, rest.map (·.snapshot)⟩ := by
        rw [Timeline.redo, split]
      rw [moves]
      refine ⟨by simp [split, restore], by simp [split], ?_⟩
      exact {
        present := rfl
        past := by simp [restore, changeTo, shows'.past, shows'.present]
        future := rfl
        idle := shows'.idle
        kept := shows'.kept
        bounded := by
          intro positive
          have := bounded positive
          simp only [split, List.length_cons] at this
          simp only [List.length_append, List.length_singleton]
          omega }

theorem call (shows' : doc.Shows capacity t) (c : Call) :
    (doc.call c).Shows capacity (t.call capacity c) := by
  cases c with
  | apply m => exact shows'.apply m
  | applyAll mutations description => exact shows'.applyAll mutations description
  | undo => exact shows'.undo.2.2
  | redo => exact shows'.redo.2.2

theorem run (shows' : doc.Shows capacity t) (calls : List Call) :
    (doc.run calls).Shows capacity (t.run capacity calls) := by
  induction calls generalizing doc t with
  | nil => exact shows'
  | cons c rest ih => exact ih (shows'.call c)

theorem levels (shows' : doc.Shows capacity t) :
    doc.history.undoLevels = t.past.length ∧ doc.history.redoLevels = t.future.length := by
  have past := congrArg List.length shows'.past
  have future := congrArg List.length shows'.future
  rw [List.length_map, List.length_reverse] at past
  rw [List.length_map] at future
  exact ⟨past, future⟩

end Document.Shows

namespace Timeline

variable {t : Timeline}

theorem redo_undo (h : t.past ≠ []) : t.undo.redo = t := by
  have split := List.dropLast_concat_getLast h
  rw [undo, List.getLast?_eq_some_getLast h, redo]
  simp only [split]

theorem length_past_undo : t.undo.past.length = t.past.length - 1 := by
  cases last : t.past.getLast? with
  | none => simp [undo, List.getLast?_eq_none_iff.1 last]
  | some text => simp [undo, last]

theorem length_past_undos (capacity k : Nat) (t : Timeline) :
    (t.run capacity (List.replicate k .undo)).past.length = t.past.length - k := by
  induction k generalizing t with
  | zero => rfl
  | succ k ih =>
      change (t.undo.run capacity (List.replicate k .undo)).past.length = _
      rw [ih, length_past_undo]
      omega

theorem run_undos_redos (capacity : Nat) {k : Nat} (h : k ≤ t.past.length) :
    t.run capacity (List.replicate k .undo ++ List.replicate k .redo) = t := by
  induction k generalizing t with
  | zero => rfl
  | succ k ih =>
      have inner := ih (t := t.undo) (by rw [length_past_undo]; omega)
      have ne : t.past ≠ [] := List.ne_nil_of_length_pos (by omega)
      rw [List.replicate_succ, List.replicate_succ', List.cons_append, ← List.append_assoc, run,
        List.foldl_cons, List.foldl_append]
      change (t.undo.run capacity _).redo = t
      rw [inner, redo_undo ne]

end Timeline

namespace Document

/-- Each of `k` calls of `undo` in a row restores a text. -/
def UndoesTimes (doc : Document) (k : Nat) : Prop :=
  ∀ j < k, (doc.run (List.replicate j .undo)).undo.1 = true

theorem Shows.le_of_undoesTimes {capacity k : Nat} {doc : Document} {t : Timeline}
    (shows' : doc.Shows capacity t) (undoes : doc.UndoesTimes k) : k ≤ t.past.length := by
  cases k with
  | zero => exact Nat.zero_le _
  | succ k =>
      have last := undoes k (Nat.lt_succ_self k)
      rw [(shows'.run _).undo.1] at last
      have left := Timeline.length_past_undos capacity k t
      cases past : (t.run capacity (List.replicate k .undo)).past with
      | nil => simp [past] at last
      | cons _ _ =>
          rw [past, List.length_cons] at left
          omega

/-- After any calls, a document is where its timeline is, with at most `capacity` steps in both
directions together. A call that applies nothing, and a move where there is none to make, leave
the whole document as it was; as many redos as there were undos lead back; and applying
mutations as one step differs from applying them one by one in the history only. -/
theorem bounded_linear_history (text : Bytes) (storage : Storage) (capacity : Nat)
    (calls : List Call) :
    let start := { inMemory text with storage }.withHistoryCapacity capacity
    let doc := start.run calls
    let t := (⟨[], text, []⟩ : Timeline).run capacity calls
    doc.text = t.present ∧
    doc.history.undoable.map (·.snapshot) = t.past.reverse ∧
    doc.history.redoable.map (·.snapshot) = t.future ∧
    doc.history.undoLevels = t.past.length ∧ doc.history.redoLevels = t.future.length ∧
    (0 < capacity → doc.history.undoLevels + doc.history.redoLevels ≤ capacity) ∧
    (∀ mutations description,
      (doc.applyAll mutations description).1.any Outcome.isApplied =
        !(Mutation.changes t.present mutations).isEmpty) ∧
    (∀ mutations description,
      (∀ outcome ∈ (doc.applyAll mutations description).1, outcome.isApplied = false) →
        (doc.applyAll mutations description).2 = doc) ∧
    (∀ m, (doc.apply m).1.isApplied = !(Mutation.changes t.present [m]).isEmpty) ∧
    (∀ m, (doc.apply m).1.isApplied = false → (doc.apply m).2 = doc) ∧
    doc.undo.1 = !t.past.isEmpty ∧ (t.past = [] → doc.undo.2 = doc) ∧
    doc.redo.1 = !t.future.isEmpty ∧ (t.future = [] → doc.redo.2 = doc) ∧
    (∀ k, doc.UndoesTimes k →
      let back := doc.run (List.replicate k .undo ++ List.replicate k .redo)
      back.text = doc.text ∧ back.history.undoLevels = doc.history.undoLevels ∧
        back.history.redoLevels = doc.history.redoLevels) ∧
    (∀ mutations description,
      (doc.applyAll mutations description).1 = (doc.applyEach mutations).1 ∧
        (doc.applyAll mutations description).2.text = (doc.applyEach mutations).2.text ∧
        (doc.applyAll mutations description).2.version = (doc.applyEach mutations).2.version) := by
  intro start doc t
  have first : start.Shows capacity ⟨[], text, []⟩ :=
    ⟨rfl, rfl, rfl, rfl, rfl, fun _ => Nat.zero_le _⟩
  have shows' : doc.Shows capacity t := first.run calls
  have applied (mutations : List Mutation) (description : Option String) :
      (doc.applyAll mutations description).1.any Outcome.isApplied =
        !(Mutation.changes t.present mutations).isEmpty := by
    rw [(applyAll_results doc mutations description).1, any_isApplied_applyEach, shows'.present]
  refine ⟨shows'.present, shows'.past, shows'.future, shows'.levels.1, shows'.levels.2, ?_,
    applied, ?_, ?_, ?_, shows'.undo.1, shows'.undo.2.1, shows'.redo.1, shows'.redo.2.1, ?_,
    applyAll_results doc⟩
  · rw [shows'.levels.1, shows'.levels.2]
    exact shows'.bounded
  · intro mutations description unapplied
    apply applyAll_of_changes_nil shows'.idle
    have none' : (doc.applyAll mutations description).1.any Outcome.isApplied = false :=
      List.any_eq_false.2 fun outcome mem => by simp [unapplied outcome mem]
    rw [applied] at none'
    rw [shows'.present]
    simpa using none'
  · intro m
    have single := any_isApplied_applyEach doc [m]
    rw [shows'.present] at single
    simpa [applyEach] using single
  · intro m unapplied
    have single := any_isApplied_applyEach doc [m]
    have unchanged : Mutation.changes doc.text [m] = [] := by
      simpa [applyEach, unapplied] using single
    exact applyEach_of_changes_nil unchanged
  · intro k undoes
    have back := shows'.run (List.replicate k .undo ++ List.replicate k .redo)
    rw [Timeline.run_undos_redos capacity (shows'.le_of_undoesTimes undoes)] at back
    exact ⟨back.present.trans shows'.present.symm, back.levels.1.trans shows'.levels.1.symm,
      back.levels.2.trans shows'.levels.2.symm⟩

end Document

end MarkupEdit
