import MarkupEdit.Mutation

/-!
The history of a document as snapshots of its text. Undoing a step restores the text from before
it and keeps the text it produced for redoing. Several mutations can be gathered into a batch,
which is one step.
-/

namespace MarkupEdit

structure Batch where
  mutations : List Mutation
  description : Option String
  deriving DecidableEq

namespace Batch

def empty : Batch := ⟨[], none⟩

def single (m : Mutation) : Batch := ⟨[m], some m.description⟩

def withDescription (batch : Batch) (description : String) : Batch :=
  { batch with description := some description }

def add (batch : Batch) (m : Mutation) : Batch :=
  { batch with mutations := batch.mutations ++ [m] }

/-- A batch of one mutation that has no description takes that of the mutation. -/
def described (batch : Batch) : Batch :=
  match batch.description, batch.mutations with
  | none, [m] => batch.withDescription m.description
  | _, _ => batch

end Batch

/-- A batch together with the text to restore: the one before it while it can be undone, the one
after it while it can be redone. -/
structure Step where
  snapshot : Bytes
  batch : Batch
  deriving DecidableEq

/-- A batch that is still open, and the text from before its first mutation, if it has one. -/
structure OpenBatch where
  batch : Batch
  snapshot : Option Bytes
  deriving DecidableEq

structure History where
  /-- The steps that can be undone, the last one first. -/
  undoable : List Step
  /-- The steps that can be redone, the next one first. -/
  redoable : List Step
  /-- The number of steps kept for undoing; 0 keeps all. -/
  capacity : Nat
  pending : Option OpenBatch
  deriving DecidableEq

namespace History

def defaultCapacity : Nat := 100

def withCapacity (capacity : Nat) : History := ⟨[], [], capacity, none⟩

def empty : History := withCapacity defaultCapacity

def keep (capacity : Nat) (steps : List Step) : List Step :=
  if capacity = 0 then steps else steps.take capacity

/-- A new step. What was undone before cannot be redone after it. -/
def push (h : History) (step : Step) : History :=
  { h with undoable := keep h.capacity (step :: h.undoable), redoable := [] }

def record (h : History) (before : Bytes) (m : Mutation) : History :=
  match h.pending with
  | some p => { h with pending := some ⟨p.batch.add m, some (p.snapshot.getD before)⟩ }
  | none => h.push ⟨before, .single m⟩

/-- Closes the open batch. One without mutations leaves no step. -/
def endBatch (h : History) : History :=
  match h.pending with
  | some ⟨batch, some snapshot⟩ => { h with pending := none }.push ⟨snapshot, batch.described⟩
  | _ => { h with pending := none }

/-- Opens a batch; one that is open already is closed first. -/
def beginBatch (h : History) : History := { h.endBatch with pending := some ⟨.empty, none⟩ }

def describe (h : History) (description : String) : History :=
  { h with
    pending := h.pending.map fun p => { p with batch := p.batch.withDescription description } }

def isBatching (h : History) : Bool := h.pending.isSome

/-- The text to restore in place of `current`, if there is a step to undo. The open batch is
closed first. -/
def undo (h : History) (current : Bytes) : Option Bytes × History :=
  let h := h.endBatch
  match h.undoable with
  | [] => (none, h)
  | step :: rest =>
    (some step.snapshot,
      { h with undoable := rest, redoable := ⟨current, step.batch⟩ :: h.redoable })

def redo (h : History) (current : Bytes) : Option Bytes × History :=
  match h.redoable with
  | [] => (none, h)
  | step :: rest =>
    (some step.snapshot,
      { h with undoable := ⟨current, step.batch⟩ :: h.undoable, redoable := rest })

def clear (h : History) : History := withCapacity h.capacity

def canUndo (h : History) : Bool := !h.undoable.isEmpty || (h.pending.any (·.snapshot.isSome))

def canRedo (h : History) : Bool := !h.redoable.isEmpty

def undoLevels (h : History) : Nat := h.undoable.length

def redoLevels (h : History) : Nat := h.redoable.length

def undoDescription (h : History) : Option String := h.undoable.head?.bind (·.batch.description)

def redoDescription (h : History) : Option String := h.redoable.head?.bind (·.batch.description)

/-- The mutations of the step that is undone next; an open batch does not count. -/
def undoMutations (h : History) : List Mutation :=
  (h.undoable.head?.map (·.batch.mutations)).getD []

end History

end MarkupEdit
