import MarkupEdit.Files.Action
import MarkupEdit.History
import MarkupEdit.Markup.Siblings

/-!
Documents: a text with its version and its history, kept in memory or in a file. Elements are
located anew in the current text for every edit.
-/

namespace MarkupEdit

inductive Storage where
  | memory
  /-- A file; `dirty` says that the text has changed since it was read or saved. -/
  | file (path : String) (dirty : Bool)
  deriving DecidableEq

structure Document where
  /-- The number of changes so far. -/
  version : Nat
  text : Bytes
  storage : Storage
  history : History
  deriving DecidableEq

inductive Outcome where
  | applied (version : Nat)
  | unchanged (reason : String)
  deriving DecidableEq

def Outcome.isApplied : Outcome → Bool
  | applied _ => true
  | unchanged _ => false

namespace Storage

def touch : Storage → Storage
  | memory => memory
  | file path _ => file path true

def isDirty : Storage → Bool
  | memory => false
  | file _ dirty => dirty

end Storage

namespace Document

def inMemory (text : Bytes) : Document := ⟨0, text, .memory, .empty⟩

def ofFile (path : String) (text : Bytes) : Document := ⟨0, text, .file path false, .empty⟩

/-- The document with an empty history of another capacity. -/
def withHistoryCapacity (doc : Document) (capacity : Nat) : Document :=
  { doc with history := .withCapacity capacity }

def changeTo (doc : Document) (text : Bytes) (history : History) : Document :=
  { version := doc.version + 1, text, storage := doc.storage.touch, history }

/-- Applies a mutation. One that is refused, or that leaves the text as it is, changes nothing. -/
def apply (doc : Document) (m : Mutation) : Outcome × Document :=
  match m.apply doc.text with
  | .error refusal => (.unchanged refusal.message, doc)
  | .ok text =>
    if text = doc.text then (.unchanged "document unchanged", doc)
    else
      (.applied (doc.version + 1), doc.changeTo text (doc.history.record doc.text m))

def applyEach (doc : Document) : List Mutation → List Outcome × Document
  | [] => ([], doc)
  | m :: rest =>
    let (outcome, doc) := doc.apply m
    let (outcomes, doc) := doc.applyEach rest
    (outcome :: outcomes, doc)

/-- Applies mutations one after the other as one step of the history. -/
def applyAll (doc : Document) (mutations : List Mutation) (description : Option String) :
    List Outcome × Document :=
  let history := doc.history.beginBatch
  let history := match description with
    | none => history
    | some description => history.describe description
  let (outcomes, doc) := { doc with history }.applyEach mutations
  (outcomes, { doc with history := doc.history.endBatch })

/-- Restores what a step of the history gives; without a step only the history may change. -/
def restore (doc : Document) (step : Option Bytes × History) : Bool × Document :=
  match step with
  | (none, history) => (false, { doc with history })
  | (some text, history) => (true, doc.changeTo text history)

def undo (doc : Document) : Bool × Document := doc.restore (doc.history.undo doc.text)

def redo (doc : Document) : Bool × Document := doc.restore (doc.history.redo doc.text)

def locate? (doc : Document) (id : String) : Option Location :=
  MarkupEdit.locate? doc.text (utf8 id)

def siblings (doc : Document) (id : String) : Siblings := siblingsOrAlone doc.text (utf8 id)

def isDirty (doc : Document) : Bool := doc.storage.isDirty

def path? (doc : Document) : Option String :=
  match doc.storage with
  | .memory => none
  | .file path _ => some path

inductive Failure where
  | file (e : FileError)
  | notFileBacked
  deriving DecidableEq

def Failure.message : Failure → String
  | file e => "IO error: " ++ e.message
  | notFileBacked => "Document is not file-backed"

def load (path : String) : Action (Except Failure Document) := do
  match ← Action.readText path with
  | .error e => pure (.error (.file e))
  | .ok text => pure (.ok (ofFile path text))

def save (doc : Document) : Action (Except Failure Document) :=
  match doc.storage with
  | .memory => pure (.error .notFileBacked)
  | .file path _ => do
    match ← Action.writeFile path doc.text with
    | .error e => pure (.error (.file e))
    | .ok () => pure (.ok { doc with storage := .file path false })

end Document

end MarkupEdit
