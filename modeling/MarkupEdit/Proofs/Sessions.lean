import MarkupEdit.Proofs.Actions
import MarkupEdit.Proofs.Timeline

/-!
A document and its file over a whole run. The version counts what the answers tell of; the file
holds the text as long as the document is not dirty, and only saving writes to it. A request that
is answered by "nothing done" leaves the document, its history and the directory as they were.
-/

namespace MarkupEdit

structure Session where
  doc : Document
  disk : Directory
  deriving DecidableEq

namespace Session

/-- Where the text of a new document comes from. -/
inductive Origin where
  | memory (text : Bytes)
  | file (path : String)

def opened? (disk : Directory) (capacity : Nat) : Origin → Option Session
  | .memory text => some ⟨(Document.inMemory text).withHistoryCapacity capacity, disk⟩
  | .file path =>
    match (Document.load path).runIn disk with
    | (.ok doc, disk) => some ⟨doc.withHistoryCapacity capacity, disk⟩
    | (.error _, _) => none

inductive Request where
  | call (c : Call)
  | save

inductive Answer where
  /-- What became of each mutation. -/
  | outcomes (results : List Outcome)
  /-- Whether there was a text to restore. -/
  | restored (done : Bool)
  | saved (result : Except Document.Failure Unit)

namespace Answer

/-- The number of changes that an answer tells of. -/
def changes : Answer → Nat
  | outcomes results => results.countP Outcome.isApplied
  | restored done => done.toNat
  | saved _ => 0

def total (answers : List Answer) : Nat := answers.foldr (fun answer n => answer.changes + n) 0

/-- No mutation was applied, no text restored, nothing saved. -/
def isIdle : Answer → Bool
  | outcomes results => !results.any Outcome.isApplied
  | restored done => !done
  | saved result => !result.isOk

theorem changes_of_isIdle {answer : Answer} (idle : answer.isIdle = true) : answer.changes = 0 := by
  cases answer with
  | outcomes results =>
      simp only [isIdle, Bool.not_eq_true', List.any_eq_false] at idle
      exact List.countP_eq_zero.2 idle
  | restored done =>
      cases done with
      | false => rfl
      | true => cases idle
  | saved result => rfl

end Answer

def answerTo (doc : Document) : Call → Answer
  | .apply m => .outcomes [(doc.apply m).1]
  | .applyAll mutations description => .outcomes (doc.applyAll mutations description).1
  | .undo => .restored doc.undo.1
  | .redo => .restored doc.redo.1

def request (s : Session) : Request → Answer × Session
  | .call c => (answerTo s.doc c, { s with doc := s.doc.call c })
  | .save =>
    match s.doc.save.runIn s.disk with
    | (.ok doc, disk) => (.saved (.ok ()), ⟨doc, disk⟩)
    | (.error e, disk) => (.saved (.error e), { s with disk })

def run (s : Session) : List Request → List Answer × Session
  | [] => ([], s)
  | r :: rest =>
    let (answer, s) := s.request r
    let (answers, s) := s.run rest
    (answer :: answers, s)

/-- What holds of a session that has given the answers since it was opened. -/
structure Consistent (s : Session) (answers : List Answer) : Prop where
  version : s.doc.version = Answer.total answers
  clean : ∀ path, s.doc.path? = some path → s.doc.isDirty = false →
    s.disk.read path = .ok s.doc.text
  written : ∀ r, (s.request r).2.disk ≠ s.disk → (s.request r).1 = .saved (.ok ())
  edited : ∀ r, (s.request r).2.doc.text ≠ s.doc.text →
    s.doc.version < (s.request r).2.doc.version
  idle : ∀ r, (s.request r).1.isIdle = true → (s.request r).2 = s
  /-- Between the other mutations of a batch, too, one that is not applied does nothing. -/
  noop : ∀ history mutations m, let doc := ({ s.doc with history }.applyEach mutations).2
    (doc.apply m).1.isApplied = false → (doc.apply m).2 = doc
  saved : (s.request .save).1 = .saved (.ok ()) → (s.request .save).2.doc.isDirty = false
  refused : ∀ e, (s.request .save).1 = .saved (.error e) ↔
    s.doc.storage = .memory ∧ e = .notFileBacked

end Session

theorem locateTag?_nil (id : Bytes) : locateTag? [] id = none := by
  rw [locateTag?, Marker.offsets, Bytes.occurrences, Bytes.occurrencesFrom]
  rfl

theorem locate?_nil (id : Bytes) : locate? [] id = none := by
  rw [locate?, locateTag?_nil]
  rfl

/-- Nothing is located in the empty text, so there every mutation is refused. -/
theorem Mutation.plan_nil (m : Mutation) : ∃ refusal, m.plan [] = .error refusal := by
  have noTag (id : Bytes) : findTag [] id = .error (.notFound id) := by
    rw [findTag, locateTag?_nil]
  have noElement (id : Bytes) : Edit.locateClosed [] id = .error (.notFound id) := by
    rw [Edit.locateClosed, locate?_nil]
  have noContent (id : Bytes) : Edit.contentOf [] id = .error (.notFound id) := by
    rw [Edit.contentOf, locate?_nil]
  cases m with
  | replaceElement id markup | removeElement id | moveElement id target side
  | insertAfter id markup | insertBefore id markup =>
      exact ⟨.notFound (utf8 id), by
        simp only [plan, Edit.replaceElement, Edit.removeElement, Edit.moveElement,
          Edit.insertElement, noElement]
        rfl⟩
  | updateClasses id classes | addClass id classes | removeClass id classes =>
      exact ⟨.notFound (utf8 id), by
        simp only [plan, Edit.setClasses, Edit.addClass, Edit.removeClass, noTag]
        rfl⟩
  | updateText id text old =>
      exact ⟨.notFound (utf8 id), by
        simp only [plan, Edit.setText, noContent]
        rfl⟩
  | setAttribute id name value =>
      simp only [plan, Edit.setAttribute, noTag]
      split
      · exact ⟨_, rfl⟩
      · split <;> exact ⟨_, rfl⟩
  | removeAttribute id name | setInlineStyle id property value =>
      simp only [plan, Edit.removeAttribute, Edit.setStyle, noTag]
      split <;> exact ⟨_, rfl⟩
  | removeInlineStyle id property =>
      exact ⟨.notFound (utf8 id), by
        simp only [plan, Edit.removeStyle, noTag]
        rfl⟩

theorem Mutation.change?_nil (m : Mutation) : m.change? [] = none := by
  obtain ⟨refusal, planned⟩ := m.plan_nil
  rw [change?, apply, planned]
  rfl

theorem Mutation.changes_nil (mutations : List Mutation) : changes [] mutations = [] := by
  induction mutations with
  | nil => rfl
  | cons m rest ih => rw [changes_cons_of_none m.change?_nil, ih]

namespace Document

/-- From a document to another in so many changes. -/
structure Advances (doc after : Document) (changes : Nat) : Prop where
  version : after.version = doc.version + changes
  storage : after.storage = if changes = 0 then doc.storage else doc.storage.touch
  unchanged : changes = 0 → after = doc

theorem touch_touch (storage : Storage) : storage.touch.touch = storage.touch := by
  cases storage <;> rfl

theorem Advances.refl (doc : Document) : doc.Advances doc 0 := ⟨rfl, rfl, fun _ => rfl⟩

theorem Advances.trans {doc middle after : Document} {m n : Nat} (first : doc.Advances middle m)
    (second : middle.Advances after n) : doc.Advances after (m + n) where
  version := by rw [second.version, first.version, Nat.add_assoc]
  storage := by
    rw [second.storage, first.storage]
    by_cases none' : m = 0
    · simp [none']
    · by_cases none'' : n = 0
      · simp [none', none'']
      · simp [none', none'', touch_touch]
  unchanged none' := by rw [second.unchanged (by omega), first.unchanged (by omega)]

theorem Advances.changeTo (doc : Document) (text : Bytes) (history : History) :
    doc.Advances (doc.changeTo text history) 1 := ⟨rfl, rfl, nofun⟩

theorem apply_unapplied {doc : Document} {m : Mutation} (h : (doc.apply m).1.isApplied = false) :
    (doc.apply m).2 = doc := by
  cases change : m.change? doc.text with
  | none => exact (apply_of_change?_none change).2
  | some new =>
      rw [apply_of_change?_some change] at h
      cases h

theorem apply_advances (doc : Document) (m : Mutation) :
    doc.Advances (doc.apply m).2 (doc.apply m).1.isApplied.toNat := by
  cases change : m.change? doc.text with
  | none =>
      obtain ⟨unapplied, same⟩ := apply_of_change?_none change
      rw [unapplied, same]
      exact .refl doc
  | some new =>
      rw [apply_of_change?_some change]
      exact .changeTo doc new _

theorem applyEach_advances (doc : Document) (mutations : List Mutation) :
    doc.Advances (doc.applyEach mutations).2
      ((doc.applyEach mutations).1.countP Outcome.isApplied) := by
  induction mutations generalizing doc with
  | nil => exact .refl doc
  | cons m rest ih =>
      have both := (doc.apply_advances m).trans (ih (doc.apply m).2)
      have count : (doc.applyEach (m :: rest)).1.countP Outcome.isApplied =
          (doc.apply m).1.isApplied.toNat +
            ((doc.apply m).2.applyEach rest).1.countP Outcome.isApplied := by
        rw [applyEach, List.countP_cons, Nat.add_comm]
        cases (doc.apply m).1.isApplied <;> rfl
      rw [count]
      exact both

theorem restore_advances (doc : Document) {step : Option Bytes × History}
    (nothing : step.1 = none → step.2 = doc.history) :
    doc.Advances (doc.restore step).2 (doc.restore step).1.toNat := by
  obtain ⟨restored, history⟩ := step
  cases restored with
  | none =>
      obtain rfl : history = doc.history := nothing rfl
      exact .refl doc
  | some text => exact .changeTo doc text history

variable {doc : Document}

theorem applyAll_advances (idle : doc.history.pending = none) (mutations : List Mutation)
    (description : Option String) :
    doc.Advances (doc.applyAll mutations description).2
      ((doc.applyAll mutations description).1.countP Outcome.isApplied) := by
  obtain ⟨batch, applied⟩ := applyAll_eq idle mutations description
  have within := (doc.gathering batch).applyEach_advances mutations
  refine ⟨?_, ?_, fun none' => ?_⟩
  · rw [applied]
    exact within.version
  · rw [applied]
    exact within.storage
  · have unapplied : (doc.applyEach mutations).1.any Outcome.isApplied = false := by
      rw [(applyAll_results doc mutations description).1, List.countP_eq_zero] at none'
      exact List.any_eq_false.2 none'
    rw [any_isApplied_applyEach] at unapplied
    exact applyAll_of_changes_nil idle (by simpa using unapplied) description

theorem undo_advances (idle : doc.history.pending = none) :
    doc.Advances doc.undo.2 doc.undo.1.toNat := by
  refine restore_advances doc fun nothing => ?_
  rw [History.undo, endBatch_idle idle] at nothing ⊢
  cases steps : doc.history.undoable with
  | nil => rfl
  | cons step rest => simp [steps] at nothing

theorem redo_advances (doc : Document) : doc.Advances doc.redo.2 doc.redo.1.toNat := by
  refine restore_advances doc fun nothing => ?_
  rw [History.redo] at nothing ⊢
  cases steps : doc.history.redoable with
  | nil => rfl
  | cons step rest => simp [steps] at nothing

theorem call_advances (idle : doc.history.pending = none) (c : Call) :
    doc.Advances (doc.call c) (Session.answerTo doc c).changes := by
  cases c with
  | apply m =>
      have single : (Session.answerTo doc (.apply m)).changes =
          (doc.apply m).1.isApplied.toNat := by
        simp only [Session.answerTo, Session.Answer.changes, List.countP_singleton]
        cases (doc.apply m).1.isApplied <;> rfl
      rw [single]
      exact doc.apply_advances m
  | applyAll mutations description => exact applyAll_advances idle mutations description
  | undo => exact undo_advances idle
  | redo => exact doc.redo_advances

/-- Between two calls no batch is open. -/
theorem call_idle (idle : doc.history.pending = none) (c : Call) :
    (doc.call c).history.pending = none := by
  cases c with
  | apply m =>
      rw [call]
      cases change : m.change? doc.text with
      | none => rwa [(apply_of_change?_none change).2]
      | some new =>
          rw [apply_of_change?_some change]
          simp only [changeTo, History.record, idle, History.push]
  | applyAll mutations description =>
      exact History.pending_endBatch _
  | undo =>
      rw [call, undo, History.undo, endBatch_idle idle]
      cases steps : doc.history.undoable <;> exact idle
  | redo =>
      rw [call, redo, History.redo]
      cases steps : doc.history.redoable <;> exact idle

/-- In the empty text with nothing to restore, nothing can be done. -/
theorem changes_nil (idle : doc.history.pending = none) (empty : doc.text = [])
    (past : doc.history.undoable = []) (future : doc.history.redoable = []) (c : Call) :
    (Session.answerTo doc c).changes = 0 := by
  cases c with
  | apply m =>
      have nothing : m.change? doc.text = none := by rw [empty, m.change?_nil]
      have unapplied := (apply_of_change?_none nothing).1
      simp [Session.answerTo, Session.Answer.changes, unapplied]
  | applyAll mutations description =>
      have unapplied := any_isApplied_applyEach doc mutations
      rw [empty, Mutation.changes_nil,
        ← (applyAll_results doc mutations description).1] at unapplied
      exact List.countP_eq_zero.2 (List.any_eq_false.1 unapplied)
  | undo =>
      simp [Session.answerTo, Session.Answer.changes, undo, History.undo, endBatch_idle idle, past,
        restore]
  | redo => simp [Session.answerTo, Session.Answer.changes, redo, History.redo, future, restore]

end Document

namespace Session

/-- What stands at the path of a document: a file, which holds the text unless that is dirty, or
the device, which leaves nothing to be done. -/
inductive Stores (disk : Directory) (path : String) (doc : Document) (dirty : Bool) : Prop
  | file (p : FilePath) (held : Bytes) (reached : disk.resolve path = .file p held)
      (clean : dirty = false → held = doc.text)
  | device (reached : disk.resolve path = .device) (clean : dirty = false) (empty : doc.text = [])
      (past : doc.history.undoable = []) (future : doc.history.redoable = [])

structure Kept (s : Session) : Prop where
  idle : s.doc.history.pending = none
  stores : ∀ path dirty, s.doc.storage = .file path dirty → Stores s.disk path s.doc dirty

theorem kept_opened {disk : Directory} {capacity : Nat} {origin : Origin} {s : Session}
    (opened : opened? disk capacity origin = some s) : s.Kept ∧ s.doc.version = 0 := by
  cases origin with
  | memory text =>
      cases opened
      exact ⟨⟨rfl, nofun⟩, rfl⟩
  | file path =>
      rw [opened?] at opened
      cases found : disk.text? path with
      | none =>
          obtain ⟨e, failed⟩ := Document.runIn_load_error found
          rw [failed] at opened
          cases opened
      | some text =>
          rw [Document.runIn_load found] at opened
          cases opened
          refine ⟨⟨rfl, ?_⟩, rfl⟩
          rintro _ _ ⟨⟩
          obtain ⟨p, reached⟩ | ⟨reached, empty⟩ :=
            Directory.resolve_of_read (Directory.text?_iff_read.1 found)
          · exact .file p _ reached fun _ => rfl
          · exact .device reached rfl empty rfl rfl

variable {s : Session}

theorem Stores.read {disk : Directory} {path : String} {doc : Document}
    (stores : Stores disk path doc false) : disk.read path = .ok doc.text := by
  cases stores with
  | file p held reached clean => rw [Directory.read_file reached, clean rfl]
  | device reached clean empty => rw [Directory.read_device reached, empty]

theorem Kept.call (kept : s.Kept) (c : Call) : (s.request (.call c)).2.Kept where
  idle := Document.call_idle kept.idle c
  stores path dirty backed := by
    have advances := Document.call_advances kept.idle c
    by_cases nothing : (answerTo s.doc c).changes = 0
    · rw [request, advances.unchanged nothing] at backed ⊢
      exact kept.stores path dirty backed
    · simp only [request] at backed ⊢
      rw [advances.storage, if_neg nothing] at backed
      cases before : s.doc.storage with
      | memory =>
          rw [before] at backed
          cases backed
      | file path' dirty' =>
          rw [before] at backed
          cases backed
          cases kept.stores path dirty' before with
          | file p held reached clean => exact .file p held reached nofun
          | device reached clean empty past future =>
              exact absurd (Document.changes_nil kept.idle empty past future c) nothing

/-- All that saving can do: it is refused in memory; it puts the text where the file stands; and
where the device stands, there is nothing to write. -/
theorem Kept.save_cases (kept : s.Kept) :
    (s.doc.storage = .memory ∧ s.request .save = (.saved (.error .notFileBacked), s)) ∨
      ∃ path dirty, s.doc.storage = .file path dirty ∧
        ((∃ p held, s.disk.resolve path = .file p held ∧ s.request .save =
            (.saved (.ok ()), ⟨s.doc.saved path, s.disk.put p s.doc.text⟩)) ∨
          dirty = false ∧ s.request .save = (.saved (.ok ()), s)) := by
  cases backed : s.doc.storage with
  | memory =>
      refine .inl ⟨rfl, ?_⟩
      rw [request, Document.runIn_save_memory backed]
  | file path dirty =>
      refine .inr ⟨path, dirty, rfl, ?_⟩
      cases kept.stores path dirty backed with
      | file p held reached clean =>
          refine .inl ⟨p, held, reached, ?_⟩
          rw [request, Document.runIn_save backed (Directory.target?_file reached)]
      | device reached clean =>
          have same : s.doc.saved path = s.doc := by rw [Document.saved, ← clean, ← backed]
          rw [request, Document.runIn_save_device backed reached, same]
          exact .inr ⟨clean, rfl⟩

theorem Kept.save (kept : s.Kept) : (s.request .save).2.Kept := by
  obtain ⟨-, refused⟩ | ⟨path, dirty, backed, ⟨p, held, reached, saved⟩ | ⟨-, saved⟩⟩ :=
    kept.save_cases
  · rw [refused]
    exact kept
  · rw [saved]
    refine ⟨kept.idle, ?_⟩
    rintro _ _ ⟨⟩
    have holds := Directory.holdsFile_of_resolve (.inl ⟨held, reached⟩)
    refine .file p s.doc.text ?_ fun _ => rfl
    have after := Directory.resolve_put_file holds s.doc.text reached
    rwa [if_pos rfl] at after
  · rw [saved]
    exact kept

theorem Kept.request (kept : s.Kept) (r : Request) : (s.request r).2.Kept := by
  cases r with
  | call c => exact kept.call c
  | save => exact kept.save

theorem Kept.version_request (kept : s.Kept) (r : Request) :
    (s.request r).2.doc.version = s.doc.version + (s.request r).1.changes := by
  cases r with
  | call c => exact (Document.call_advances kept.idle c).version
  | save =>
      obtain ⟨-, refused⟩ | ⟨path, dirty, -, ⟨p, held, -, saved⟩ | ⟨-, saved⟩⟩ := kept.save_cases
      · rw [refused]
        rfl
      · rw [saved]
        rfl
      · rw [saved]
        rfl

theorem Kept.run (kept : s.Kept) (requests : List Request) :
    (s.run requests).2.Kept ∧ (s.run requests).2.doc.version =
      s.doc.version + Answer.total (s.run requests).1 := by
  induction requests generalizing s with
  | nil => exact ⟨kept, rfl⟩
  | cons r rest ih =>
      obtain ⟨kept', version⟩ := ih (kept.request r)
      refine ⟨kept', ?_⟩
      simp only [Session.run, Answer.total, List.foldr_cons]
      rw [version, kept.version_request r, Nat.add_assoc, Answer.total]

theorem Kept.written (kept : s.Kept) {r : Request} (changed : (s.request r).2.disk ≠ s.disk) :
    (s.request r).1 = .saved (.ok ()) := by
  cases r with
  | call c => exact absurd rfl changed
  | save =>
      obtain ⟨-, refused⟩ | ⟨path, dirty, -, ⟨p, held, -, saved⟩ | ⟨-, saved⟩⟩ := kept.save_cases
      · exact absurd (by rw [refused]) changed
      · rw [saved]
      · rw [saved]

theorem Kept.edited (kept : s.Kept) {r : Request}
    (changed : (s.request r).2.doc.text ≠ s.doc.text) :
    s.doc.version < (s.request r).2.doc.version := by
  rw [kept.version_request r]
  cases r with
  | call c =>
      have some' : (answerTo s.doc c).changes ≠ 0 := fun nothing => changed
        (congrArg Document.text ((Document.call_advances kept.idle c).unchanged nothing))
      exact Nat.lt_add_of_pos_right (Nat.pos_of_ne_zero some')
  | save =>
      refine absurd ?_ changed
      obtain ⟨-, refused⟩ | ⟨path, dirty, -, ⟨p, held, -, saved⟩ | ⟨-, saved⟩⟩ := kept.save_cases
      · rw [refused]
      · rw [saved]
        rfl
      · rw [saved]

theorem Kept.still (kept : s.Kept) {r : Request} (idle : (s.request r).1.isIdle = true) :
    (s.request r).2 = s := by
  cases r with
  | call c =>
      have nothing : (answerTo s.doc c).changes = 0 := Answer.changes_of_isIdle idle
      have same := (Document.call_advances kept.idle c).unchanged nothing
      simp only [Session.request, same]
  | save =>
      obtain ⟨-, refused⟩ | ⟨path, dirty, -, ⟨p, held, -, saved⟩ | ⟨-, saved⟩⟩ := kept.save_cases
      · rw [refused]
      · rw [saved] at idle
        cases idle
      · rw [saved]

theorem Kept.clean (kept : s.Kept) {path : String} (backed : s.doc.path? = some path)
    (clean : s.doc.isDirty = false) : s.disk.read path = .ok s.doc.text := by
  have stored : s.doc.storage = .file path false := by
    rw [Document.path?] at backed
    rw [Document.isDirty] at clean
    cases storage : s.doc.storage <;> rw [storage] at backed clean <;> cases backed
    exact congrArg _ clean
  exact (kept.stores path false stored).read

/-- A run of a new session is consistent after every request. -/
theorem run_consistent {disk : Directory} {capacity : Nat} {origin : Origin} {start : Session}
    (opened : opened? disk capacity origin = some start) (requests : List Request) :
    (start.run requests).2.Consistent (start.run requests).1 := by
  obtain ⟨first, zero⟩ := kept_opened opened
  obtain ⟨kept, version⟩ := first.run requests
  refine {
    version := by rw [version, zero, Nat.zero_add]
    clean := fun path => kept.clean
    written := fun r => kept.written
    edited := fun r => kept.edited
    idle := fun r => kept.still
    noop := fun history mutations m => Document.apply_unapplied
    saved := fun done => ?_
    refused := fun e => ?_ }

  · obtain ⟨-, refused⟩ | ⟨path, dirty, backed, ⟨p, held, -, saved⟩ | ⟨clean, saved⟩⟩ :=
      kept.save_cases
    · rw [refused] at done
      cases done
    · rw [saved]
      rfl
    · rw [saved, Document.isDirty, backed]
      exact clean
  · obtain ⟨memory, refused⟩ | ⟨path, dirty, backed, ⟨p, held, -, saved⟩ | ⟨-, saved⟩⟩ :=
      kept.save_cases
    · simp [refused, memory, eq_comm]
    · simp [saved, backed]
    · simp [saved, backed]

theorem file_session_consistent :
    let text := utf8 "<p data-eid=\"p\"><b data-eid=\"b\"></b></p>"
    let disk : Directory := ⟨[(["a.html"], text)]⟩
    let start : Session := ⟨(Document.ofFile "a.html" text).withHistoryCapacity 1, disk⟩
    let requests : List Request :=
      [.call (.applyAll [.removeElement "x", .removeElement "b"] none), .save, .call .undo,
        .call .undo, .save, .call .redo]
    opened? disk 1 (.file "a.html") = some start ∧
      (start.run requests).2.Consistent (start.run requests).1 := by
  intro text disk start requests
  have opened : opened? disk 1 (.file "a.html") = some start := by decide +kernel
  exact ⟨opened, run_consistent opened requests⟩

end Session

end MarkupEdit
