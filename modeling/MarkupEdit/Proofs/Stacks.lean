import MarkupEdit.Proofs.Invalidation

/-!
How a history is kept. Two stacks grow at the end, and the open batch and the text from before its
first mutation are two fields that nothing in their types ties together; a step that is pushed
drops one old step at most, and redoing puts a step back without a look at the capacity. Along
every run the fields stay tied and both stacks together within the capacity, so what is kept is
the history.
-/

namespace MarkupEdit.History

/-- A use of a history. All texts are the caller's. -/
inductive Operation where
  | record (before : Bytes) (m : Mutation)
  | beginBatch
  | endBatch
  | describe (description : String)
  | clear
  | undo (current : Bytes)
  | redo (current : Bytes)

/-- The text that an operation gives back, and the history after it. -/
def operate (h : History) : Operation → Option Bytes × History
  | .record before m => (none, h.record before m)
  | .beginBatch => (none, h.beginBatch)
  | .endBatch => (none, h.endBatch)
  | .describe description => (none, h.describe description)
  | .clear => (none, h.clear)
  | .undo current => h.undo current
  | .redo current => h.redo current

def operateAll (h : History) (operations : List Operation) : History :=
  operations.foldl (fun h operation => (h.operate operation).2) h

/-- What was recorded in the batch that is open behind an operation, with the texts from before,
the first one first; none when no batch is open. -/
def gather (records : Option (List (Bytes × Mutation))) :
    Operation → Option (List (Bytes × Mutation))
  | .record before m => records.map (· ++ [(before, m)])
  | .beginBatch => some []
  | .endBatch | .clear | .undo _ => none
  | .describe _ | .redo _ => records

/-- What was recorded in the batch that is open at the end of a run. -/
def gathered (operations : List Operation) : Option (List (Bytes × Mutation)) :=
  operations.foldl gather none

/-- The text that undoing gives back: the one from before the open batch, if it holds a mutation,
or else the one of the last step. -/
theorem undo_eq (h : History) (current : Bytes) :
    (h.undo current).1 = (Watched.restorable h).head? := by
  have given : (h.undo current).1 = h.endBatch.undoable.head?.map (·.snapshot) := by
    rw [undo]
    cases h.endBatch.undoable <;> rfl
  rw [given]
  cases endBatch_cases h with
  | inl closed =>
      obtain ⟨p, snapshot, pending, noted, closed⟩ := closed
      rw [closed, head?_push, Watched.restorable, pending, Option.bind_some, noted]
      rfl
  | inr closed =>
      rw [closed.2, Watched.restorable, closed.1]
      exact List.head?_map.symm

theorem canUndo_eq (h : History) (current : Bytes) :
    h.canUndo = (h.undo current).1.isSome := by
  rw [undo_eq, canUndo, Watched.restorable]
  cases h.undoable <;> cases h.pending <;> simp

structure Stacks where
  /-- The steps that can be undone, the last one at the end. -/
  undoable : List Step
  /-- The steps that can be redone, the next one at the end. -/
  redoable : List Step
  capacity : Nat
  batch : Option Batch
  /-- The text from before the first mutation of the open batch. -/
  snapshot : Option Bytes

namespace Stacks

def withCapacity (capacity : Nat) : Stacks := ⟨[], [], capacity, none, none⟩

/-- Puts a step on top. One step goes at the bottom if there are too many now. -/
def push (s : Stacks) (step : Step) : Stacks :=
  let steps := s.undoable ++ [step]
  { s with
    undoable := if 0 < s.capacity ∧ s.capacity < steps.length then steps.tail else steps
    redoable := [] }

def record (s : Stacks) (before : Bytes) (m : Mutation) : Stacks :=
  match s.batch with
  | some batch =>
    { s with batch := some (batch.add m), snapshot := some (s.snapshot.getD before) }
  | none => s.push ⟨before, .single m⟩

/-- Closes the open batch; it is a step if there is a text from before it. -/
def endBatch (s : Stacks) : Stacks :=
  let closed := { s with batch := none, snapshot := none }
  match s.batch, s.snapshot with
  | some batch, some snapshot => closed.push ⟨snapshot, batch.described⟩
  | _, _ => closed

def beginBatch (s : Stacks) : Stacks := { s.endBatch with batch := some .empty }

def describe (s : Stacks) (description : String) : Stacks :=
  { s with batch := s.batch.map (·.withDescription description) }

def clear (s : Stacks) : Stacks := withCapacity s.capacity

def undo (s : Stacks) (current : Bytes) : Option Bytes × Stacks :=
  let s := s.endBatch
  match s.undoable.getLast? with
  | none => (none, s)
  | some step =>
    (some step.snapshot,
      { s with
        undoable := s.undoable.dropLast
        redoable := s.redoable ++ [⟨current, step.batch⟩] })

def redo (s : Stacks) (current : Bytes) : Option Bytes × Stacks :=
  match s.redoable.getLast? with
  | none => (none, s)
  | some step =>
    (some step.snapshot,
      { s with
        undoable := s.undoable ++ [⟨current, step.batch⟩]
        redoable := s.redoable.dropLast })

def canUndo (s : Stacks) : Bool := !s.undoable.isEmpty || s.snapshot.isSome

def operate (s : Stacks) : Operation → Option Bytes × Stacks
  | .record before m => (none, s.record before m)
  | .beginBatch => (none, s.beginBatch)
  | .endBatch => (none, s.endBatch)
  | .describe description => (none, s.describe description)
  | .clear => (none, s.clear)
  | .undo current => s.undo current
  | .redo current => s.redo current

def operateAll (s : Stacks) (operations : List Operation) : Stacks :=
  operations.foldl (fun s operation => (s.operate operation).2) s

def history (s : Stacks) : History where
  undoable := s.undoable.reverse
  redoable := s.redoable.reverse
  capacity := s.capacity
  pending := s.batch.map fun batch => ⟨batch, s.snapshot⟩

/-- Every step holds a mutation, and both stacks together stay within the capacity. This bound is
what lets `redo` push without a check and `push` get by with dropping one step. -/
structure Sound (s : Stacks) : Prop where
  bounded : 0 < s.capacity → s.undoable.length + s.redoable.length ≤ s.capacity
  filled : ∀ step ∈ s.undoable ++ s.redoable, step.batch.mutations ≠ []

/-- The two fields of the open batch say what was recorded in it: the batch all mutations, the
snapshot the text from before the first one. -/
structure Holds (s : Stacks) (records : Option (List (Bytes × Mutation))) : Prop where
  batch : s.batch.map (·.mutations) = records.map (·.map Prod.snd)
  snapshot : s.snapshot = records.bind (·.head?.map Prod.fst)

theorem length_push {s : Stacks} (sound : s.Sound) (step : Step) (positive : 0 < s.capacity) :
    (s.push step).undoable.length ≤ s.capacity := by
  have bounded := sound.bounded positive
  simp only [push]
  split
  · rw [List.length_tail, List.length_append, List.length_singleton]
    omega
  next few =>
    rw [List.length_append, List.length_singleton] at few ⊢
    omega

theorem mem_push {s : Stacks} {step other : Step} (mem : other ∈ (s.push step).undoable) :
    other ∈ s.undoable ∨ other = step := by
  have within : other ∈ s.undoable ++ [step] := by
    simp only [push] at mem
    split at mem
    · exact List.mem_of_mem_tail mem
    · exact mem
  simpa using within

/-- With the stacks within the capacity, dropping one step at the bottom leaves the steps that the
capacity leaves. -/
theorem history_push {s : Stacks} (sound : s.Sound) (step : Step) :
    (s.push step).history = s.history.push step := by
  have kept : (s.push step).undoable.reverse = keep s.capacity (step :: s.undoable.reverse) := by
    simp only [push, keep]
    by_cases unlimited : s.capacity = 0
    · rw [if_neg (by omega), if_pos unlimited, List.reverse_concat]
    have bounded := sound.bounded (by omega)
    rw [if_neg unlimited]
    split
    next many =>
      rw [List.length_append, List.length_singleton] at many
      have full : s.undoable.length = s.capacity := by omega
      cases steps : s.undoable with
      | nil => simp [steps, full.symm] at unlimited
      | cons oldest rest =>
          have width : s.capacity = rest.length + 1 := by rw [← full, steps, List.length_cons]
          have front : (rest.reverse ++ [oldest]).take rest.length = rest.reverse := by
            rw [List.take_left' List.length_reverse]
          rw [List.cons_append, List.tail_cons, List.reverse_concat, List.reverse_cons, width,
            List.take_succ_cons, front]
    next few =>
      rw [List.length_append, List.length_singleton] at few
      rw [List.reverse_concat, List.take_of_length_le]
      rw [List.length_cons, List.length_reverse]
      omega
  rw [history, kept]
  rfl

theorem Sound.push {s : Stacks} (sound : s.Sound) {step : Step}
    (filled : step.batch.mutations ≠ []) : (s.push step).Sound where
  bounded positive := length_push sound step positive
  filled other mem := by
    have within : other ∈ (s.push step).undoable := by simpa [Stacks.push] using mem
    cases mem_push within with
    | inl old => exact sound.filled other (List.mem_append_left _ old)
    | inr new => rwa [new]

/-- What closing the batch does: a batch with recorded mutations becomes a step, and any other one
goes without a trace. -/
theorem endBatch_of_holds {s : Stacks} {records : Option (List (Bytes × Mutation))}
    (holds : s.Holds records) :
    (∃ batch before m later, records = some ((before, m) :: later) ∧ s.batch = some batch ∧
      batch.mutations ≠ [] ∧ s.snapshot = some before ∧
      s.endBatch = { s with batch := none, snapshot := none }.push ⟨before, batch.described⟩) ∨
    (s.snapshot = none ∧ s.endBatch = { s with batch := none, snapshot := none }) := by
  have noted := holds.snapshot
  have listed := holds.batch
  have untraced (unnoted : s.snapshot = none) :
      s.snapshot = none ∧ s.endBatch = { s with batch := none, snapshot := none } := by
    refine ⟨unnoted, ?_⟩
    rw [endBatch, unnoted]
    cases s.batch <;> rfl
  cases records with
  | none => exact .inr (untraced noted)
  | some records =>
      cases records with
      | nil => exact .inr (untraced noted)
      | cons first later =>
          obtain ⟨before, m⟩ := first
          obtain ⟨batch, opened, mutations⟩ := Option.map_eq_some_iff.1 listed
          have snapshot : s.snapshot = some before := noted
          exact .inl ⟨batch, before, m, later, rfl, opened, by simp [mutations], snapshot,
            by rw [endBatch, opened, snapshot]⟩

theorem mutations_described (batch : Batch) : batch.described.mutations = batch.mutations := by
  rw [Batch.described]
  split <;> rfl

theorem Sound.closed {s : Stacks} (sound : s.Sound) :
    ({ s with batch := none, snapshot := none } : Stacks).Sound := ⟨sound.bounded, sound.filled⟩

variable {s : Stacks} {records : Option (List (Bytes × Mutation))}

theorem Sound.endBatch (sound : s.Sound) (holds : s.Holds records) : s.endBatch.Sound := by
  cases endBatch_of_holds holds with
  | inl closed =>
      obtain ⟨batch, before, m, later, -, -, filled, -, closed⟩ := closed
      rw [closed]
      exact sound.closed.push (by rwa [mutations_described])
  | inr closed =>
      rw [closed.2]
      exact sound.closed

theorem fields_endBatch (holds : s.Holds records) :
    s.endBatch.batch = none ∧ s.endBatch.snapshot = none ∧
      s.endBatch.capacity = s.capacity := by
  cases endBatch_of_holds holds with
  | inl closed =>
      obtain ⟨batch, before, m, later, -, -, -, -, closed⟩ := closed
      rw [closed]
      exact ⟨rfl, rfl, rfl⟩
  | inr closed =>
      rw [closed.2]
      exact ⟨rfl, rfl, rfl⟩

theorem history_endBatch (sound : s.Sound) (holds : s.Holds records) :
    s.endBatch.history = s.history.endBatch := by
  cases endBatch_of_holds holds with
  | inl closed =>
      obtain ⟨batch, before, m, later, -, opened, -, snapshot, closed⟩ := closed
      rw [closed, history_push sound.closed, History.endBatch]
      simp only [history, opened, snapshot, Option.map_some, Option.map_none]
  | inr closed =>
      rw [closed.2, History.endBatch]
      simp only [history, closed.1]
      cases s.batch <;> rfl

theorem history_undo (sound : s.Sound) (holds : s.Holds records) (current : Bytes) :
    (s.undo current).1 = (s.history.undo current).1 ∧
      (s.undo current).2.history = (s.history.undo current).2 := by
  rw [undo, History.undo, ← history_endBatch sound holds]
  cases last : s.endBatch.undoable.getLast? with
  | none =>
      have empty := List.getLast?_eq_none_iff.1 last
      simp only [history, empty, List.reverse_nil, and_self]
  | some step =>
      obtain ⟨rest, split⟩ := List.getLast?_eq_some_iff.1 last
      simp only [history, split, List.reverse_concat, List.dropLast_concat, and_self]

theorem history_redo (s : Stacks) (current : Bytes) :
    (s.redo current).1 = (s.history.redo current).1 ∧
      (s.redo current).2.history = (s.history.redo current).2 := by
  rw [redo, History.redo]
  cases last : s.redoable.getLast? with
  | none =>
      have empty := List.getLast?_eq_none_iff.1 last
      simp only [history, empty, List.reverse_nil, and_self]
  | some step =>
      obtain ⟨rest, split⟩ := List.getLast?_eq_some_iff.1 last
      simp only [history, split, List.reverse_concat, List.dropLast_concat, and_self]

theorem history_record (sound : s.Sound) (before : Bytes) (m : Mutation) :
    (s.record before m).history = s.history.record before m := by
  rw [record, History.record]
  cases opened : s.batch with
  | none =>
      rw [history_push sound]
      simp only [history, opened, Option.map_none]
  | some batch => simp only [history, opened, Option.map_some]

/-- An operation does to the history that is kept what it does to histories. -/
theorem history_operate (sound : s.Sound) (holds : s.Holds records) (operation : Operation) :
    (s.operate operation).1 = (s.history.operate operation).1 ∧
      (s.operate operation).2.history = (s.history.operate operation).2 := by
  have closed := history_endBatch sound holds
  cases operation with
  | record before m => exact ⟨rfl, history_record sound before m⟩
  | beginBatch =>
      refine ⟨rfl, ?_⟩
      simp only [operate, History.operate, beginBatch, History.beginBatch, ← closed]
      simp only [history, (fields_endBatch holds).2.1, Option.map_some]
  | endBatch => exact ⟨rfl, closed⟩
  | describe description =>
      refine ⟨rfl, ?_⟩
      simp only [operate, History.operate, describe, History.describe, history, Option.map_map]
      rfl
  | clear => exact ⟨rfl, rfl⟩
  | undo current => exact history_undo sound holds current
  | redo current => exact history_redo s current

theorem Sound.undo (sound : s.Sound) (holds : s.Holds records) (current : Bytes) :
    (s.undo current).2.Sound := by
  have ended := sound.endBatch holds
  rw [Stacks.undo]
  cases last : s.endBatch.undoable.getLast? with
  | none => exact ended
  | some step =>
      obtain ⟨rest, split⟩ := List.getLast?_eq_some_iff.1 last
      obtain ⟨bounded, filled⟩ := ended
      rw [split] at bounded filled
      constructor
      · intro positive
        have := bounded positive
        simp only [split, List.dropLast_concat, List.length_append, List.length_singleton] at this ⊢
        omega
      · intro other mem
        simp only [split, List.dropLast_concat, List.mem_append, List.mem_singleton] at mem filled
        obtain old | old | rfl := mem
        · exact filled other (.inl (.inl old))
        · exact filled other (.inr old)
        · exact filled step (.inl (.inr rfl))

theorem Sound.redo (sound : s.Sound) (current : Bytes) : (s.redo current).2.Sound := by
  rw [Stacks.redo]
  cases last : s.redoable.getLast? with
  | none => exact sound
  | some step =>
      obtain ⟨rest, split⟩ := List.getLast?_eq_some_iff.1 last
      obtain ⟨bounded, filled⟩ := sound
      rw [split] at bounded filled
      constructor
      · intro positive
        have := bounded positive
        simp only [split, List.dropLast_concat, List.length_append, List.length_singleton] at this ⊢
        omega
      · intro other mem
        simp only [split, List.dropLast_concat, List.mem_append, List.mem_singleton] at mem filled
        obtain (old | rfl) | old := mem
        · exact filled other (.inl old)
        · exact filled step (.inr (.inr rfl))
        · exact filled other (.inr (.inl old))

theorem Sound.operate (sound : s.Sound) (holds : s.Holds records) (operation : Operation) :
    (s.operate operation).2.Sound := by
  cases operation with
  | record before m =>
      simp only [Stacks.operate, record]
      cases s.batch with
      | none => exact sound.push (by simp [Batch.single])
      | some batch => exact ⟨sound.bounded, sound.filled⟩
  | beginBatch => exact ⟨(sound.endBatch holds).bounded, (sound.endBatch holds).filled⟩
  | endBatch => exact sound.endBatch holds
  | describe description => exact ⟨sound.bounded, sound.filled⟩
  | clear => exact ⟨fun _ => Nat.zero_le _, fun step mem => by cases mem⟩
  | undo current => exact sound.undo holds current
  | redo current => exact sound.redo current

theorem Holds.ended (holds : s.Holds records) : s.endBatch.Holds none :=
  ⟨by rw [(fields_endBatch holds).1]; rfl, (fields_endBatch holds).2.1⟩

theorem Holds.record (holds : s.Holds records) (before : Bytes) (m : Mutation) :
    (s.record before m).Holds (gather records (.record before m)) := by
  have listed := holds.batch
  have noted := holds.snapshot
  rw [Stacks.record]
  cases records with
  | none =>
      have idle : s.batch = none := Option.map_eq_none_iff.1 listed
      rw [idle]
      exact ⟨listed, noted⟩
  | some records =>
      obtain ⟨batch, opened, mutations⟩ := Option.map_eq_some_iff.1 listed
      rw [opened]
      constructor
      · simp [gather, Batch.add, mutations]
      · cases records with
        | nil => simp [gather, noted]
        | cons first later => simp [gather, noted]

theorem Holds.operate (holds : s.Holds records) (operation : Operation) :
    (s.operate operation).2.Holds (gather records operation) := by
  have ended := holds.ended
  cases operation with
  | record before m => exact holds.record before m
  | beginBatch => exact ⟨rfl, ended.snapshot⟩
  | endBatch => exact ended
  | describe description =>
      refine ⟨?_, holds.snapshot⟩
      simp only [Stacks.operate, describe, gather, Option.map_map]
      exact holds.batch
  | clear => exact ⟨rfl, rfl⟩
  | undo current =>
      simp only [Stacks.operate, undo, gather]
      split <;> exact ⟨ended.batch, ended.snapshot⟩
  | redo current =>
      simp only [Stacks.operate, redo, gather]
      split <;> exact ⟨holds.batch, holds.snapshot⟩

theorem Holds.snapshot_iff (holds : s.Holds records) :
    s.snapshot.isSome = true ↔ ∃ batch, s.batch = some batch ∧ batch.mutations ≠ [] := by
  have listed := holds.batch
  rw [holds.snapshot]
  cases records with
  | none => simp [Option.map_eq_none_iff.1 listed]
  | some records =>
      obtain ⟨batch, opened, mutations⟩ := Option.map_eq_some_iff.1 listed
      cases records <;> simp [opened, mutations]

/-- A snapshot counts for undoing only with the open batch that it belongs to. -/
theorem canUndo_history (holds : s.Holds records) : s.canUndo = s.history.canUndo := by
  have paired := holds.snapshot_iff
  rw [canUndo, History.canUndo, history]
  cases opened : s.batch with
  | none =>
      rw [opened] at paired
      simp_all
  | some batch => simp

theorem capacity_operate (holds : s.Holds records) (operation : Operation) :
    (s.operate operation).2.capacity = s.capacity := by
  have ended := (fields_endBatch holds).2.2
  cases operation with
  | record before m => simp only [operate, record]; split <;> rfl
  | undo current => simp only [operate, undo]; split <;> exact ended
  | redo current => simp only [operate, redo]; split <;> rfl
  | beginBatch | endBatch => exact ended
  | describe description | clear => rfl

/-- A run keeps the stacks sound, their fields tied to what was recorded in the open batch, and the
history that is kept the one that the same run leads to. -/
theorem operateAll_sound (capacity : Nat) (operations : List Operation) :
    let s := (withCapacity capacity).operateAll operations
    s.Sound ∧ s.Holds (gathered operations) ∧ s.capacity = capacity ∧
      s.history = (History.withCapacity capacity).operateAll operations := by
  induction operations using List.reverseRecOn with
  | nil => exact ⟨⟨fun _ => Nat.zero_le _, fun step mem => by cases mem⟩, ⟨rfl, rfl⟩, rfl, rfl⟩
  | append_singleton operations operation ih =>
      obtain ⟨sound, holds, kept, same⟩ := ih
      simp only [operateAll, History.operateAll, gathered, List.foldl_append, List.foldl_cons,
        List.foldl_nil] at sound holds kept same ⊢
      rw [← same]
      exact ⟨sound.operate holds operation, holds.operate operation,
        (capacity_operate holds operation).trans kept, (history_operate sound holds operation).2⟩

/-- The fields of the stacks hold together along every run, and they answer as the history does
that the run leads to. A snapshot is kept exactly for an open batch with a mutation in it; both
stacks together stay within the capacity; something can be undone exactly if undoing gives a text,
which with mutations in the open batch is the one that the first of them was recorded with; and no
step is empty. -/
theorem fields_tied (capacity : Nat) (operations : List Operation) :
    let h := (History.withCapacity capacity).operateAll operations
    let s := (withCapacity capacity).operateAll operations
    let records := gathered operations
    s.history = h ∧ (∀ operation, (s.operate operation).1 = (h.operate operation).1) ∧
    h.pending.map (·.batch.mutations) = records.map (·.map Prod.snd) ∧
    (s.snapshot.isSome = true ↔ ∃ batch, s.batch = some batch ∧ batch.mutations ≠ []) ∧
    (0 < capacity → h.undoLevels + h.redoLevels ≤ capacity) ∧
    s.canUndo = h.canUndo ∧ (∀ current, h.canUndo = (h.undo current).1.isSome) ∧
    (∀ before m later current, records = some ((before, m) :: later) →
      (h.undo current).1 = some before) ∧
    ∀ step ∈ h.undoable ++ h.redoable, step.batch.mutations ≠ [] := by
  intro h s records
  obtain ⟨sound, holds, kept, same⟩ : s.Sound ∧ s.Holds records ∧ s.capacity = capacity ∧
      s.history = h := operateAll_sound capacity operations
  refine ⟨same, ?_, ?_, holds.snapshot_iff, ?_, ?_, ?_, ?_, ?_⟩
  · intro operation
    rw [← same]
    exact (history_operate sound holds operation).1
  · rw [← same, history, Option.map_map]
    exact holds.batch
  · intro positive
    have bounded := sound.bounded (by omega)
    rw [← same]
    simp only [undoLevels, redoLevels, history, List.length_reverse]
    omega
  · rw [← same]
    exact canUndo_history holds
  · exact canUndo_eq h
  · intro before m later current recorded
    have noted : s.snapshot = some before := by rw [holds.snapshot, recorded]; rfl
    obtain ⟨batch, opened, -⟩ := holds.snapshot_iff.1 (by rw [noted]; rfl)
    rw [undo_eq, ← same, Watched.restorable, history, opened, noted]
    rfl
  · intro step mem
    rw [← same] at mem
    exact sound.filled step (by simpa [history] using mem)

/-- A step is redone inside an open batch, between two mutations of it. -/
theorem fields_tied_redo_in_batch :
    let edit := Mutation.removeElement "p"
    let operations := [.record (utf8 "A") edit, .undo (utf8 "B"), .beginBatch,
      .record (utf8 "C") edit, .redo (utf8 "D"), .record (utf8 "E") edit]
    let h := (History.withCapacity 1).operateAll operations
    gathered operations = some [(utf8 "C", edit), (utf8 "E", edit)] ∧
      (h.undo (utf8 "F")).1 = some (utf8 "C") ∧ 0 < 1 ∧ h.undoLevels + h.redoLevels ≤ 1 := by
  intro edit operations h
  obtain ⟨-, -, -, -, bounded, -, -, first, -⟩ := fields_tied 1 operations
  have recorded : gathered operations = some [(utf8 "C", edit), (utf8 "E", edit)] := rfl
  exact ⟨recorded, first _ _ _ _ recorded, by decide, bounded (by decide)⟩

end Stacks

end MarkupEdit.History
