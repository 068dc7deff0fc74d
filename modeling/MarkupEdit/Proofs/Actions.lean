import MarkupEdit.Document
import MarkupEdit.Proofs.Directories

/-!
Actions carried out in a directory. Reading leaves the directory alone, and a write that is not
refused puts one file; what follows an action is carried out in the directory that it leaves.
-/

namespace MarkupEdit

namespace Directory

/-- The text in a file, if it can be read and is one. -/
def text? (dir : Directory) (path : String) : Option String :=
  (dir.read path).toOption.bind Bytes.text?

/-- Where a path leads that a file can be written to. -/
def target? (dir : Directory) (path : String) : Option FilePath :=
  match dir.resolve path with
  | .file p _ | .free p => some p
  | _ => none

variable {dir : Directory} {path s : String} {p : FilePath} {content held : Bytes}

theorem text?_iff_read : dir.text? path = some s ↔ dir.read path = .ok (utf8 s) := by
  rw [text?]
  cases dir.read path with
  | error e => simp [Except.toOption]
  | ok content => simp [Except.toOption, text?_eq_some_iff]

theorem read_file (reached : dir.resolve path = .file p held) : dir.read path = .ok held := by
  rw [read, reached]

theorem read_device (reached : dir.resolve path = .device) : dir.read path = .ok [] := by
  rw [read, reached]

/-- What can be read is a file, or the device. -/
theorem resolve_of_read (h : dir.read path = .ok content) :
    (∃ p, dir.resolve path = .file p content) ∨ dir.resolve path = .device ∧ content = [] := by
  rw [read] at h
  split at h <;> cases h
  next p reached => exact .inl ⟨p, reached⟩
  next reached => exact .inr ⟨reached, rfl⟩

theorem target?_eq_some : dir.target? path = some p ↔
    (∃ held, dir.resolve path = .file p held) ∨ dir.resolve path = .free p := by
  rw [target?]
  cases dir.resolve path <;> simp

theorem holdsFile_of_target? (reached : dir.target? path = some p) : dir.HoldsFile p :=
  holdsFile_of_resolve (target?_eq_some.1 reached)

theorem target?_file (reached : dir.resolve path = .file p held) : dir.target? path = some p := by
  rw [target?, reached]

theorem write_target? (reached : dir.target? path = some p) (content : Bytes) :
    dir.write path content = .ok (dir.put p content) := by
  rw [write]
  obtain ⟨held, found⟩ | found := target?_eq_some.1 reached
  · rw [found]
  · rw [found]

/-- What stands where a file can be written, once that was done. -/
theorem resolve_put_target? (reached : dir.target? path = some p) (content : Bytes) :
    (dir.put p content).resolve path = .file p content := by
  have holds := holdsFile_of_target? reached
  obtain ⟨held, found⟩ | found := target?_eq_some.1 reached
  · simpa using resolve_put_file holds content found
  · exact resolve_put_free found content

theorem write_error (unreached : dir.target? path = none) (file : dir.resolve path ≠ .device)
    (content : Bytes) : ∃ e, dir.write path content = .error e := by
  rw [target?] at unreached
  rw [write]
  cases found : dir.resolve path with
  | file p held => simp [found] at unreached
  | free p => simp [found] at unreached
  | device => exact absurd found file
  | directory => exact ⟨.isDirectory, rfl⟩
  | blocked e => exact ⟨e, rfl⟩

theorem write_device (reached : dir.resolve path = .device) (content : Bytes) :
    dir.write path content = .ok dir := by
  rw [write, reached]

end Directory

namespace Action

variable {dir : Directory} {path s : String} {p : FilePath}

theorem runIn_bind {α β : Type} (action : Action α) (f : α → Action β) (dir : Directory) :
    (action >>= f).runIn dir = (f (action.runIn dir).1).runIn (action.runIn dir).2 := by
  induction action generalizing dir with
  | done a => rfl
  | read path next ih => exact ih _ _
  | probe path next ih => exact ih _ _
  | write path content next ih =>
      change (Action.write path content fun answer => next answer >>= f).runIn dir = _
      simp only [runIn]
      cases dir.write path content with
      | error e => exact ih _ _
      | ok changed => exact ih _ _

theorem runIn_pure {α : Type} (a : α) (dir : Directory) :
    (pure a : Action α).runIn dir = (a, dir) := rfl

theorem runIn_fileExists (path : String) (dir : Directory) :
    (fileExists path).runIn dir = (dir.contains path, dir) := rfl

theorem runIn_readFile (path : String) (dir : Directory) :
    (readFile path).runIn dir = (dir.read path, dir) := rfl

theorem runIn_readText (found : dir.text? path = some s) :
    (readText path).runIn dir = (.ok (utf8 s), dir) := by
  simp only [readText, runIn, Directory.text?_iff_read.1 found, text?_utf8, Option.isSome_some,
    if_true]

theorem runIn_readText_error (missing : dir.text? path = none) :
    ∃ e, (readText path).runIn dir = (.error e, dir) := by
  rw [Directory.text?] at missing
  simp only [readText, runIn]
  cases found : dir.read path with
  | error e => exact ⟨e, rfl⟩
  | ok content =>
      rw [found] at missing
      have unreadable : content.text? = none := missing
      simp only [unreadable, Option.isSome_none]
      exact ⟨.notText, rfl⟩

theorem runIn_writeFile (reached : dir.target? path = some p) (content : Bytes) :
    (writeFile path content).runIn dir = (.ok (), dir.put p content) := by
  simp only [writeFile, runIn, Directory.write_target? reached]

theorem runIn_writeFile_device (reached : dir.resolve path = .device) (content : Bytes) :
    (writeFile path content).runIn dir = (.ok (), dir) := by
  simp only [writeFile, runIn, Directory.write_device reached]

end Action

namespace Document

variable {dir : Directory} {path s : String} {p : FilePath} {doc : Document} {dirty : Bool}

theorem runIn_load (found : dir.text? path = some s) :
    (load path).runIn dir = (.ok (ofFile path (utf8 s)), dir) := by
  rw [load, Action.runIn_bind, Action.runIn_readText found]
  rfl

theorem runIn_load_error (missing : dir.text? path = none) :
    ∃ e, (load path).runIn dir = (.error (.file e), dir) := by
  obtain ⟨e, failed⟩ := Action.runIn_readText_error missing
  rw [load, Action.runIn_bind, failed]
  exact ⟨e, rfl⟩

/-- The document whose file holds its text. -/
def saved (doc : Document) (path : String) : Document := { doc with storage := .file path false }

theorem runIn_save_memory (memory : doc.storage = .memory) :
    doc.save.runIn dir = (.error .notFileBacked, dir) := by
  rw [save, memory]
  rfl

theorem runIn_save (backed : doc.storage = .file path dirty)
    (reached : dir.target? path = some p) :
    doc.save.runIn dir = (.ok (doc.saved path), dir.put p doc.text) := by
  rw [save, backed]
  simp only [Action.runIn_bind, Action.runIn_writeFile reached]
  rfl

theorem runIn_save_device (backed : doc.storage = .file path dirty)
    (reached : dir.resolve path = .device) :
    doc.save.runIn dir = (.ok (doc.saved path), dir) := by
  rw [save, backed]
  simp only [Action.runIn_bind, Action.runIn_writeFile_device reached]
  rfl

end Document

end MarkupEdit
