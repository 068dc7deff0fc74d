import Mathlib.Data.List.Induction
import MarkupEdit.Proofs.Changes

/-!
When a new mutation takes away what could be redone. A client keeps a text and hands it to its
history; a journal beside it notes which steps were not undone. Recording in an open batch leaves
what can be redone alone until the batch is closed. As long as nothing can be redone at such a
moment, nothing is redone between a mutation and the next undo, and each undo restores the text
from before the last step of the journal.
-/

namespace MarkupEdit.History

inductive Call where
  /-- The text becomes a new one by a mutation, which is recorded. -/
  | record (new : Bytes) (m : Mutation)
  | beginBatch
  | endBatch
  | describe (description : String)
  | clear
  | undo
  | redo

structure Client where
  history : History
  text : Bytes

/-- What was done, seen from outside. -/
structure Journal where
  /-- The texts from before the steps that were not undone, the last one first. -/
  before : List Bytes
  /-- A batch is open; in it a mutation was recorded, or none. -/
  batch : Option Bool
  /-- A mutation was recorded, and no undo succeeded since. -/
  recorded : Bool

namespace Client

/-- The client takes the text that is restored, if there is one. -/
def restore (c : Client) (step : Option Bytes × History) : Option Bytes × Client :=
  (step.1, ⟨step.2, step.1.getD c.text⟩)

def call (c : Client) : Call → Option Bytes × Client
  | .record new m => (none, ⟨c.history.record c.text m, new⟩)
  | .beginBatch => (none, { c with history := c.history.beginBatch })
  | .endBatch => (none, { c with history := c.history.endBatch })
  | .describe description => (none, { c with history := c.history.describe description })
  | .clear => (none, { c with history := c.history.clear })
  | .undo => c.restore (c.history.undo c.text)
  | .redo => c.restore (c.history.redo c.text)

end Client

namespace Journal

def empty : Journal := ⟨[], none, false⟩

/-- A mutation begins a step, unless the open batch has begun one. -/
def record (j : Journal) (text : Bytes) : Journal :=
  match j.batch with
  | some true => { j with recorded := true }
  | some false => ⟨text :: j.before, some true, true⟩
  | none => ⟨text :: j.before, none, true⟩

/-- Notes a call that was made with a text, and whether a text was restored by it. -/
def note (j : Journal) (text : Bytes) (restored : Bool) : Call → Journal
  | .record _ _ => j.record text
  | .beginBatch => { j with batch := some false }
  | .endBatch => { j with batch := none }
  | .describe _ => j
  | .clear => ⟨[], none, j.recorded⟩
  | .undo => if restored then ⟨j.before.tail, none, false⟩ else { j with batch := none }
  | .redo => if restored then { j with before := text :: j.before } else j

end Journal

/-- A client whose calls are noted. -/
structure Watched where
  client : Client
  journal : Journal

namespace Watched

def start (capacity : Nat) (text : Bytes) : Watched := ⟨⟨withCapacity capacity, text⟩, .empty⟩

def call (w : Watched) (c : Call) : Watched :=
  let (restored, client) := w.client.call c
  ⟨client, w.journal.note w.client.text restored.isSome c⟩

def run (w : Watched) (calls : List Call) : Watched := calls.foldl Watched.call w

/-- Nothing can be redone between a mutation and the next undo that succeeds, and an undo gives
the text from before the last step that was not undone. -/
structure Lawful (w : Watched) : Prop where
  invalid : w.journal.recorded = true →
    w.client.history.canRedo = false ∧ (w.client.call .redo).1 = none
  inOrder : ∀ text, (w.client.call .undo).1 = some text → w.journal.before.head? = some text

/-- The texts that can be restored, the last one first; that of the open batch comes first. -/
def restorable (h : History) : List Bytes :=
  (h.pending.bind (·.snapshot)).toList ++ h.undoable.map (·.snapshot)

/-- What the journal knows of the history. -/
structure Kept (w : Watched) : Prop where
  batch : w.journal.batch = w.client.history.pending.map (·.snapshot.isSome)
  recorded : w.journal.recorded = true → w.client.history.redoable = []
  /-- Nothing can be redone beside an open batch that a mutation was recorded in. -/
  gathered : w.journal.batch = some true → w.client.history.redoable = []
  before : restorable w.client.history <+: w.journal.before

end Watched

theorem keep_initial (capacity : Nat) (steps : List Step) : keep capacity steps <+: steps := by
  rw [keep]
  split
  · exact List.prefix_refl steps
  · exact List.take_prefix capacity steps

theorem head?_push (h : History) (step : Step) : (h.push step).undoable.head? = some step := by
  rw [push, keep]
  split
  · rfl
  next limited =>
    obtain ⟨n, same⟩ := Nat.exists_eq_succ_of_ne_zero limited
    rw [same]
    rfl

theorem restorable_push (h : History) (idle : h.pending = none) (step : Step) :
    Watched.restorable (h.push step) <+: step.snapshot :: h.undoable.map (·.snapshot) := by
  have kept := (keep_initial h.capacity (step :: h.undoable)).map (·.snapshot)
  simpa only [Watched.restorable, push, idle, Option.bind_none, Option.toList_none,
    List.nil_append, List.map_cons] using kept

/-- Closing a batch that a mutation was recorded in makes it a step; closing any other leaves
both directions alone. -/
theorem endBatch_cases (h : History) :
    (∃ p snapshot, h.pending = some p ∧ p.snapshot = some snapshot ∧
      h.endBatch = { h with pending := none }.push ⟨snapshot, p.batch.described⟩) ∨
    (h.pending.bind (·.snapshot) = none ∧ h.endBatch = { h with pending := none }) := by
  rw [endBatch]
  cases pending : h.pending with
  | none => exact .inr ⟨rfl, rfl⟩
  | some p =>
      obtain ⟨batch, snapshot⟩ := p
      cases snapshot with
      | none => exact .inr ⟨rfl, rfl⟩
      | some snapshot => exact .inl ⟨_, snapshot, rfl, rfl, rfl⟩

theorem restorable_endBatch (h : History) :
    Watched.restorable h.endBatch <+: Watched.restorable h := by
  cases endBatch_cases h with
  | inl closed =>
      obtain ⟨p, snapshot, pending, noted, closed⟩ := closed
      rw [closed]
      refine (restorable_push _ rfl _).trans ?_
      rw [Watched.restorable, pending, Option.bind_some, noted]
      exact List.prefix_refl _
  | inr closed =>
      rw [closed.2, Watched.restorable, Watched.restorable, closed.1]
      exact List.prefix_refl _

theorem redoable_endBatch {h : History} (nothing : h.redoable = []) : h.endBatch.redoable = [] := by
  cases endBatch_cases h with
  | inl closed =>
      obtain ⟨p, snapshot, -, -, closed⟩ := closed
      rw [closed]
      rfl
  | inr closed => rw [closed.2, nothing]

/-- What is undone is the open batch, if a mutation was recorded in it, or the last step. -/
theorem undo_restorable {h : History} {t text : Bytes}
    (restored : (h.undo t).1 = some text) : (Watched.restorable h).head? = some text := by
  have closed := endBatch_cases h
  rw [undo] at restored
  split at restored
  · cases restored
  next step rest steps =>
    cases restored
    cases closed with
    | inl closed =>
        obtain ⟨p, snapshot, pending, noted, closed⟩ := closed
        have first := head?_push { h with pending := none } ⟨snapshot, p.batch.described⟩
        rw [← closed, steps, List.head?_cons, Option.some.injEq] at first
        rw [first, Watched.restorable, pending, Option.bind_some, noted]
        rfl
    | inr closed =>
        rw [closed.2] at steps
        dsimp only at steps
        rw [Watched.restorable, closed.1, steps]
        rfl

namespace Watched

variable {w : Watched}

theorem Kept.lawful (kept : w.Kept) : w.Lawful where
  invalid recorded := by
    have nothing := kept.recorded recorded
    rw [canRedo, nothing, Client.call, Client.restore, redo, nothing]
    exact ⟨rfl, rfl⟩
  inOrder text restored := by
    have undone : (w.client.history.undo w.client.text).1 = some text := restored
    have first := undo_restorable undone
    obtain ⟨rest, same⟩ := kept.before
    rw [← same, List.head?_append, first, Option.some_or]

/-- A mutation is recorded in an open batch only while nothing can be redone. -/
def Timely (w : Watched) : Call → Prop
  | .record _ _ => w.client.history.isBatching = true → w.client.history.canRedo = false
  | _ => True

theorem nothing_redoable {h : History} (nothing : h.canRedo = false) : h.redoable = [] := by
  simpa [canRedo] using nothing

theorem call_record_idle (idle : w.client.history.pending = none) (closed : w.journal.batch = none)
    (new : Bytes) (m : Mutation) :
    w.call (.record new m) =
      ⟨⟨w.client.history.push ⟨w.client.text, .single m⟩, new⟩,
        ⟨w.client.text :: w.journal.before, none, true⟩⟩ := by
  simp only [Watched.call, Client.call, Journal.note, History.record, idle, Journal.record, closed]

theorem call_record_open {p : OpenBatch} (pending : w.client.history.pending = some p)
    (new : Bytes) (m : Mutation) :
    w.call (.record new m) =
      ⟨⟨{ w.client.history with
            pending := some ⟨p.batch.add m, some (p.snapshot.getD w.client.text)⟩ }, new⟩,
        w.journal.record w.client.text⟩ := by
  simp only [Watched.call, Client.call, Journal.note, History.record, pending]

theorem Kept.record (kept : w.Kept) {new : Bytes} {m : Mutation}
    (timely : w.Timely (.record new m)) : (w.call (.record new m)).Kept := by
  have batch := kept.batch
  have before := kept.before
  simp only [Timely, isBatching] at timely
  cases pending : w.client.history.pending with
  | none =>
      rw [pending, Option.map_none] at batch
      rw [restorable, pending] at before
      rw [call_record_idle pending batch]
      exact {
        batch := by rw [push, pending]; rfl
        recorded := fun _ => rfl
        gathered := fun _ => rfl
        before := (restorable_push _ pending _).trans ((List.prefix_cons_inj _).2 before) }
  | some p =>
      rw [pending, Option.map_some] at batch
      rw [pending, Option.isSome_some] at timely
      rw [restorable, pending, Option.bind_some] at before
      have nothing := nothing_redoable (timely rfl)
      rw [call_record_open pending, Journal.record, batch]
      cases noted : p.snapshot with
      | none =>
          rw [noted] at before
          exact {
            batch := rfl
            recorded := fun _ => nothing
            gathered := fun _ => nothing
            before := (List.prefix_cons_inj _).2 before }
      | some snapshot =>
          rw [noted] at before
          exact {
            batch := rfl
            recorded := fun _ => nothing
            gathered := fun _ => nothing
            before := before }

theorem Kept.endBatch (kept : w.Kept) : (w.call .endBatch).Kept where
  batch := by
    simp only [Watched.call, Client.call, Journal.note, pending_endBatch, Option.map_none]
  recorded recorded := redoable_endBatch (kept.recorded recorded)
  gathered closed := by cases closed
  before := (restorable_endBatch _).trans kept.before

theorem Kept.beginBatch (kept : w.Kept) : (w.call .beginBatch).Kept where
  batch := rfl
  recorded recorded := redoable_endBatch (kept.recorded recorded)
  gathered opened := by cases opened
  before := by
    have closed := (restorable_endBatch _).trans kept.before
    rw [restorable, pending_endBatch] at closed
    exact closed

theorem Kept.describe (kept : w.Kept) (description : String) :
    (w.call (.describe description)).Kept := by
  have batch := kept.batch
  have before := kept.before
  simp only [Watched.call, Client.call, Journal.note, History.describe]
  cases pending : w.client.history.pending with
  | none =>
      rw [pending] at batch
      rw [restorable, pending] at before
      exact ⟨batch, kept.recorded, kept.gathered, before⟩
  | some p =>
      rw [pending] at batch
      rw [restorable, pending] at before
      exact ⟨batch, kept.recorded, kept.gathered, before⟩

theorem call_undo_nil (steps : w.client.history.endBatch.undoable = []) :
    w.call .undo =
      ⟨⟨w.client.history.endBatch, w.client.text⟩, { w.journal with batch := none }⟩ := by
  have failed : w.client.call .undo = (none, ⟨w.client.history.endBatch, w.client.text⟩) := by
    simp only [Client.call, Client.restore, History.undo, steps, Option.getD_none]
  rw [Watched.call, failed]
  rfl

theorem call_undo_cons {step : Step} {rest : List Step}
    (steps : w.client.history.endBatch.undoable = step :: rest) :
    w.call .undo =
      ⟨⟨{ w.client.history.endBatch with
            undoable := rest
            redoable := ⟨w.client.text, step.batch⟩ :: w.client.history.endBatch.redoable },
          step.snapshot⟩, ⟨w.journal.before.tail, none, false⟩⟩ := by
  have undone : (w.client.call .undo).1 = some step.snapshot := by
    simp only [Client.call, Client.restore, History.undo, steps]
  rw [Watched.call]
  simp only [Journal.note, undone, Option.isSome_some, if_true]
  simp only [Client.call, Client.restore, History.undo, steps, Option.getD_some]

theorem Kept.undo (kept : w.Kept) : (w.call .undo).Kept := by
  have before := (restorable_endBatch _).trans kept.before
  have idle := pending_endBatch w.client.history
  rw [restorable, idle, Option.bind_none, Option.toList_none, List.nil_append] at before
  cases steps : w.client.history.endBatch.undoable with
  | nil =>
      rw [call_undo_nil steps]
      exact {
        batch := by rw [idle]; rfl
        recorded := fun recorded => redoable_endBatch (kept.recorded recorded)
        gathered := fun closed => by cases closed
        before := by rwa [restorable, idle] }
  | cons step rest =>
      rw [steps, List.map_cons] at before
      obtain ⟨later, same⟩ := before
      rw [call_undo_cons steps]
      exact {
        batch := by rw [idle]; rfl
        recorded := fun recorded => by cases recorded
        gathered := fun closed => by cases closed
        before := by
          rw [restorable, idle, ← same]
          exact List.prefix_append _ _ }

theorem call_redo_nil (steps : w.client.history.redoable = []) : w.call .redo = w := by
  have failed : w.client.call .redo = (none, w.client) := by
    simp only [Client.call, Client.restore, History.redo, steps, Option.getD_none]
  rw [Watched.call, failed]
  rfl

theorem call_redo_cons {step : Step} {rest : List Step}
    (steps : w.client.history.redoable = step :: rest) :
    w.call .redo =
      ⟨⟨{ w.client.history with
            undoable := ⟨w.client.text, step.batch⟩ :: w.client.history.undoable
            redoable := rest }, step.snapshot⟩,
        { w.journal with before := w.client.text :: w.journal.before }⟩ := by
  have redone : (w.client.call .redo).1 = some step.snapshot := by
    simp only [Client.call, Client.restore, History.redo, steps]
  rw [Watched.call]
  simp only [Journal.note, redone, Option.isSome_some, if_true]
  simp only [Client.call, Client.restore, History.redo, steps, Option.getD_some]

theorem Kept.redo (kept : w.Kept) : (w.call .redo).Kept := by
  have batch := kept.batch
  have recorded := kept.recorded
  have gathered := kept.gathered
  have before := kept.before
  cases steps : w.client.history.redoable with
  | nil => rwa [call_redo_nil steps]
  | cons step rest =>
      rw [steps] at recorded gathered
      have unnoted : w.client.history.pending.bind (·.snapshot) = none := by
        cases pending : w.client.history.pending with
        | none => rfl
        | some p =>
            rw [pending, Option.map_some] at batch
            cases noted : p.snapshot with
            | none => exact noted
            | some snapshot =>
                rw [noted] at batch
                cases gathered batch
      rw [restorable, unnoted] at before
      rw [call_redo_cons steps]
      exact {
        batch := batch
        recorded := fun noted => by cases recorded noted
        gathered := fun noted => by cases gathered noted
        before := by
          rw [restorable, unnoted]
          exact (List.prefix_cons_inj _).2 before }

theorem Kept.call (kept : w.Kept) {c : Call} (timely : w.Timely c) : (w.call c).Kept := by
  cases c with
  | record new m => exact kept.record timely
  | beginBatch => exact kept.beginBatch
  | endBatch => exact kept.endBatch
  | describe description => exact kept.describe description
  | clear =>
      exact {
        batch := rfl
        recorded := fun _ => rfl
        gathered := fun closed => by cases closed
        before := List.nil_prefix }
  | undo => exact kept.undo
  | redo => exact kept.redo

theorem run_append (w : Watched) (earlier later : List Call) :
    w.run (earlier ++ later) = (w.run earlier).run later := List.foldl_append

theorem Kept.run (kept : w.Kept) {calls : List Call}
    (timely : ∀ done c, done ++ [c] <+: calls → (w.run done).Timely c) : (w.run calls).Kept := by
  induction calls using List.reverseRecOn with
  | nil => exact kept
  | append_singleton calls c ih =>
      rw [run_append]
      refine Kept.call (ih fun done d ahead => timely done d ?_) (timely calls c ?_)
      · exact ahead.trans (List.prefix_append _ _)
      · exact List.prefix_refl _

/-- Recording in an open batch leaves what can be redone as it is. -/
theorem canRedo_record {h : History} (batching : h.isBatching = true) (text : Bytes)
    (m : Mutation) : (h.record text m).canRedo = h.canRedo := by
  rw [isBatching, Option.isSome_iff_exists] at batching
  obtain ⟨p, pending⟩ := batching
  rw [History.record, pending]
  rfl

theorem recorded_record (w : Watched) (new : Bytes) (m : Mutation) :
    (w.call (.record new m)).journal.recorded = true := by
  simp only [Watched.call, Journal.note, Journal.record]
  split <;> rfl

/-- Along a run, a mutation always takes away what could be redone, and undoing goes back step by
step, exactly if no mutation is recorded in an open batch while something can be redone. -/
theorem lawful_iff_timely (capacity : Nat) (text : Bytes) (calls : List Call) :
    (∀ done, done <+: calls → ((start capacity text).run done).Lawful) ↔
      ∀ done new m, done ++ [.record new m] <+: calls →
        ((start capacity text).run done).client.history.isBatching = true →
        ((start capacity text).run done).client.history.canRedo = false := by
  constructor
  · intro lawful done new m ahead batching
    have law := lawful _ ahead
    rw [run_append] at law
    have invalid := (law.invalid (recorded_record _ new m)).1
    rw [← invalid]
    exact (canRedo_record batching _ m).symm
  · intro timely done ahead
    have first : (start capacity text).Kept :=
      ⟨rfl, fun _ => rfl, fun _ => rfl, List.nil_prefix⟩
    refine (first.run fun earlier c within => ?_).lawful
    cases c with
    | record new m => exact timely earlier new m (within.trans ahead)
    | _ => trivial

/-- What was undone before a batch is redone in it, behind a mutation; the undo behind that gives
the text from before the batch, and not the one that was redone last. -/
theorem batch_keeps_redoable :
    let edit := Mutation.removeElement "p"
    let calls := [.record (utf8 "B") edit, .undo, .beginBatch, .record (utf8 "C") edit]
    let w := (start 100 (utf8 "A")).run calls
    w.journal.recorded = true ∧ w.client.history.canRedo = true ∧
      (w.client.call .redo).1 = some (utf8 "B") ∧
      (w.call .redo).journal.before.head? = some (utf8 "C") ∧
      ((w.call .redo).client.call .undo).1 = some (utf8 "A") := by
  decide +kernel

end Watched

end MarkupEdit.History
