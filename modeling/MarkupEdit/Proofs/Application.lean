import MarkupEdit.CommandLine.Run
import MarkupEdit.Proofs.Sessions
import MarkupEdit.Proofs.WholeTexts

/-!
Applying mutations to a file is all or nothing. The command reads all that it needs before it
writes anything; what it cannot read or do ends it with the directory as it was. Otherwise the
file holds what the mutations make of it, one after the other, and all other files are as they
were, but for the copy that the configuration may want.
-/

namespace MarkupEdit.CommandLine

def config? (dir : Directory) : Option Config :=
  if dir.contains Config.fileName then
    (dir.text? Config.fileName).bind fun text => (Config.parse text).toOption
  else some .default

def mutations? (dir : Directory) : Source → Option (List Mutation)
  | .argument script => (Script.parse script).toOption
  | .file path => (dir.text? path).bind fun script => (Script.parse script).toOption

/-- All that applying mutations needs. -/
structure Inputs where
  config : Config
  mutations : List Mutation
  text : String

def inputs? (dir : Directory) (a : Application) : Option Inputs := do
  let config ← config? dir
  let mutations ← mutations? dir a.source
  let text ← dir.text? a.file
  some ⟨config, mutations, text⟩

namespace Inputs

/-- Each mutation applied to what the one before it made; those that are refused are left out. -/
def final (i : Inputs) : Bytes := i.mutations.foldl Mutation.applyOrKeep (utf8 i.text)

/-- Some mutation is neither refused nor without effect. -/
def applies (i : Inputs) : Bool := !(Mutation.changes (utf8 i.text) i.mutations).isEmpty

end Inputs

/-- Only the edited file and the copy of it that was wanted are other than before. -/
structure Rewritten (dir after : Directory) (a : Application) (i : Inputs) (file : FilePath) :
    Prop where
  before : dir.resolve a.file = .file file (utf8 i.text)
  edited : after.resolve a.file = .file file i.final
  copied : i.config.backup = true → ∃ copy, copy ≠ file ∧
    after.resolve (Config.backupPath a.file) = .file copy (utf8 i.text) ∧
    ∀ q, q ≠ file → q ≠ copy → after.find? q = dir.find? q
  alone : i.config.backup = false → ∀ q, q ≠ file → after.find? q = dir.find? q

/-- What an application may come to. -/
def AllOrNothing (dir : Directory) (a : Application) (report : Report) (after : Directory) : Prop :=
  match inputs? dir a with
  | none => report.code = 1 ∧ after = dir
  | some i =>
    if a.printOnly then report.code = 0 ∧ utf8 report.out = i.final ∧ after = dir
    else if i.applies = false then report.code = 0 ∧ after = dir
    else if i.config.backup = true ∧ dir.target? (Config.backupPath a.file) = none then
      report.code = 1 ∧ after = dir
    else report.code = 0 ∧ ∃ file, Rewritten dir after a i file

variable {dir : Directory}

theorem toOption_eq_some {ε α : Type} {x : Except ε α} {a : α} (h : x.toOption = some a) :
    x = .ok a := by
  cases x with
  | error e => cases h
  | ok b =>
      cases h
      rfl

theorem toOption_eq_none {ε α : Type} {x : Except ε α} (h : x.toOption = none) :
    ∃ e, x = .error e := by
  cases x with
  | error e => exact ⟨e, rfl⟩
  | ok b => cases h

theorem runIn_config {config : Config} (found : config? dir = some config) :
    Config.load.runIn dir = (.ok config, dir) := by
  rw [config?] at found
  by_cases there : dir.contains Config.fileName = true
  · rw [if_pos there] at found
    obtain ⟨text, readable, parsed⟩ := Option.bind_eq_some_iff.1 found
    simp only [Config.load, Action.runIn_bind, Action.runIn_fileExists, there, if_true,
      Action.runIn_readText readable, text_utf8, toOption_eq_some parsed]
    rfl
  · rw [if_neg there] at found
    cases found
    simp only [Config.load, Action.runIn_bind, Action.runIn_fileExists, there]
    rfl

theorem runIn_config_error (missing : config? dir = none) :
    ∃ failure, Config.load.runIn dir = (.error failure, dir) := by
  rw [config?] at missing
  by_cases there : dir.contains Config.fileName = true
  · rw [if_pos there] at missing
    cases readable : dir.text? Config.fileName with
    | none =>
        obtain ⟨e, failed⟩ := Action.runIn_readText_error readable
        simp only [Config.load, Action.runIn_bind, Action.runIn_fileExists, there, if_true, failed]
        exact ⟨.file e, rfl⟩
    | some text =>
        rw [readable] at missing
        obtain ⟨fault, refused⟩ := toOption_eq_none missing
        simp only [Config.load, Action.runIn_bind, Action.runIn_fileExists, there, if_true,
          Action.runIn_readText readable, text_utf8, refused]
        exact ⟨.content fault, rfl⟩
  · rw [if_neg there] at missing
    cases missing

theorem runIn_script (malformed : String) {source : Source} {mutations : List Mutation}
    (found : mutations? dir source = some mutations) :
    ∃ description, (readScript malformed source).runIn dir =
      (.ok (mutations, description), dir) := by
  have parsed {script : String} (description : Option String)
      (h : (Script.parse script).toOption = some mutations) :
      readScript.mutationsOf malformed script description = .ok (mutations, description) := by
    rw [readScript.mutationsOf, toOption_eq_some h]
  cases source with
  | argument script =>
      refine ⟨none, ?_⟩
      rw [readScript, parsed none found]
      rfl
  | file path =>
      obtain ⟨script, readable, h⟩ := Option.bind_eq_some_iff.1 found
      refine ⟨(fileName? path).map ("Script " ++ ·), ?_⟩
      simp only [readScript, Action.runIn_bind, Action.runIn_readText readable, text_utf8,
        parsed _ h]
      rfl

theorem runIn_script_error (malformed : String) {source : Source}
    (missing : mutations? dir source = none) :
    ∃ message, (readScript malformed source).runIn dir = (.error message, dir) := by
  have refused {script : String} (description : Option String)
      (h : (Script.parse script).toOption = none) :
      ∃ message, readScript.mutationsOf malformed script description = .error message := by
    obtain ⟨fault, same⟩ := toOption_eq_none h
    rw [readScript.mutationsOf, same]
    exact ⟨_, rfl⟩
  cases source with
  | argument script =>
      obtain ⟨message, same⟩ := refused none missing
      rw [readScript, same]
      exact ⟨message, rfl⟩
  | file path =>
      cases readable : dir.text? path with
      | none =>
          obtain ⟨e, failed⟩ := Action.runIn_readText_error readable
          simp only [readScript, Action.runIn_bind, failed]
          exact ⟨_, rfl⟩
      | some script =>
          rw [mutations?, readable] at missing
          obtain ⟨message, same⟩ := refused ((fileName? path).map ("Script " ++ ·)) missing
          simp only [readScript, Action.runIn_bind, Action.runIn_readText readable, text_utf8, same]
          exact ⟨message, rfl⟩

def Inputs.doc (i : Inputs) (a : Application) : Document :=
  (Document.ofFile a.file (utf8 i.text)).withHistoryCapacity i.config.historyCapacity

theorem runIn_apply (malformed : String) {a : Application} {i : Inputs}
    (found : inputs? dir a = some i) :
    ∃ description, (apply malformed a).runIn dir =
      (applyTo i.config a i.mutations description (i.doc a)).runIn dir := by
  simp only [inputs?, Option.bind_eq_bind, Option.bind_eq_some_iff, Option.some.injEq] at found
  obtain ⟨config, hc, mutations, hm, text, ht, rfl⟩ := found
  obtain ⟨description, script⟩ := runIn_script malformed hm
  refine ⟨description, ?_⟩
  simp only [apply, Action.runIn_bind, runIn_config hc, script, Document.runIn_load ht]
  rfl

theorem runIn_apply_error (malformed : String) {a : Application} (missing : inputs? dir a = none) :
    ((apply malformed a).runIn dir).1.code = 1 ∧ ((apply malformed a).runIn dir).2 = dir := by
  rw [inputs?] at missing
  cases hc : config? dir with
  | none =>
      obtain ⟨failure, failed⟩ := runIn_config_error hc
      simp only [apply, Action.runIn_bind, failed]
      cases failure <;> exact ⟨rfl, rfl⟩
  | some config =>
      cases hm : mutations? dir a.source with
      | none =>
          obtain ⟨message, failed⟩ := runIn_script_error malformed hm
          simp only [apply, Action.runIn_bind, runIn_config hc, failed]
          exact ⟨rfl, rfl⟩
      | some mutations =>
          obtain ⟨description, script⟩ := runIn_script malformed hm
          cases ht : dir.text? a.file with
          | none =>
              obtain ⟨e, failed⟩ := Document.runIn_load_error ht
              simp only [apply, Action.runIn_bind, runIn_config hc, script, failed]
              exact ⟨rfl, rfl⟩
          | some text =>
              rw [hc, hm, ht] at missing
              cases missing

theorem text_apply (doc : Document) (m : Mutation) :
    (doc.apply m).2.text = m.applyOrKeep doc.text := by
  rw [Document.apply, Mutation.applyOrKeep]
  cases m.apply doc.text with
  | error refusal => rfl
  | ok new =>
      by_cases same : new = doc.text
      · simp only [same, if_true]
      · simp only [same, if_false, Document.changeTo]

theorem text_applyEach (doc : Document) (mutations : List Mutation) :
    (doc.applyEach mutations).2.text = mutations.foldl Mutation.applyOrKeep doc.text := by
  induction mutations generalizing doc with
  | nil => rfl
  | cons m rest ih =>
      rw [List.foldl_cons, ← text_apply]
      exact ih (doc.apply m).2

namespace Inputs

variable (i : Inputs) (a : Application) (description : Option String)

/-- What was made of a text is a text. -/
theorem final_isText : ∃ s, i.final = utf8 s := by
  have step (mutations : List Mutation) (s : String) :
      ∃ s', mutations.foldl Mutation.applyOrKeep (utf8 s) = utf8 s' := by
    induction mutations generalizing s with
    | nil => exact ⟨s, rfl⟩
    | cons m rest ih =>
        obtain ⟨result, same⟩ := m.apply_utf8 s
        rw [List.foldl_cons, Mutation.applyOrKeep, same]
        cases result with
        | error refusal => exact ih s
        | ok new => exact ih new
  exact step i.mutations i.text

theorem text_applyAll : ((i.doc a).applyAll i.mutations description).2.text = i.final := by
  rw [((i.doc a).applyAll_results i.mutations description).2.1, text_applyEach]
  rfl

/-- The document is dirty if a mutation was applied. -/
theorem storage_applyAll :
    ((i.doc a).applyAll i.mutations description).2.storage = .file a.file i.applies := by
  have idle : (i.doc a).history.pending = none := rfl
  have advances := Document.applyAll_advances idle i.mutations description
  have any : ((i.doc a).applyAll i.mutations description).1.any Outcome.isApplied = i.applies := by
    rw [((i.doc a).applyAll_results i.mutations description).1, Document.any_isApplied_applyEach]
    rfl
  rw [advances.storage, ← any]
  by_cases none' : ((i.doc a).applyAll i.mutations description).1.countP Outcome.isApplied = 0
  · rw [if_pos none', List.any_eq_false.2 (List.countP_eq_zero.1 none')]
    rfl
  · have some' : ((i.doc a).applyAll i.mutations description).1.any Outcome.isApplied = true := by
      rw [List.any_eq_true]
      exact List.countP_pos_iff.1 (Nat.pos_of_ne_zero none')
    rw [if_neg none', some']
    rfl

end Inputs

section

variable {config : Config} {file : String} {doc : Document} {dirty : Bool} {p copy : FilePath}
  {old : Bytes}

theorem runIn_writeBack (alone : config.backup = false) (backed : doc.storage = .file file dirty)
    (reached : dir.resolve file = .file p old) :
    (writeBack config file doc).runIn dir = (.ok (), dir.put p doc.text) := by
  simp only [writeBack, Action.runIn_bind, alone, Bool.false_eq_true, if_false, Action.runIn_pure,
    Document.runIn_save backed (Directory.target?_file reached)]

/-- The copy is made before the file is written. -/
theorem runIn_writeBack_copy (wanted : config.backup = true)
    (backed : doc.storage = .file file dirty) (reached : dir.resolve file = .file p old)
    (free : dir.target? (Config.backupPath file) = some copy) :
    (writeBack config file doc).runIn dir = (.ok (), (dir.put copy old).put p doc.text) := by
  have reached' := Directory.resolve_put_file (Directory.holdsFile_of_target? free) old reached
  simp only [writeBack, copyFile, Action.runIn_bind, wanted, if_true, Action.runIn_readFile,
    Directory.read_file reached, Action.runIn_writeFile free,
    Document.runIn_save backed (Directory.target?_file reached')]
  rfl

theorem backupPath_ne_device (reached : dir.resolve file = .file p old) :
    dir.resolve (Config.backupPath file) ≠ .device := by
  intro device
  have nonempty : file ≠ "" := by
    rintro rfl
    cases reached
  obtain ⟨last, same⟩ := Directory.resolve_append_device nonempty (by decide) (by decide) device
  have ends := congrArg (·.toList.getLast?) same
  simp at ends

theorem runIn_writeBack_error (doc : Document) (wanted : config.backup = true)
    (reached : dir.resolve file = .file p old)
    (unreached : dir.target? (Config.backupPath file) = none) :
    ∃ message, (writeBack config file doc).runIn dir = (.error message, dir) := by
  obtain ⟨e, failed⟩ := Directory.write_error unreached (backupPath_ne_device reached) old
  simp only [writeBack, copyFile, Action.runIn_bind, wanted, if_true, Action.runIn_readFile,
    Directory.read_file reached, Action.writeFile, Action.runIn, failed]
  exact ⟨_, rfl⟩

end

theorem rewritten_plain {a : Application} {i : Inputs} {file : FilePath}
    (alone : i.config.backup = false) (before : dir.resolve a.file = .file file (utf8 i.text)) :
    Rewritten dir (dir.put file i.final) a i file where
  before := before
  edited := Directory.resolve_put_target? (Directory.target?_file before) i.final
  copied wanted := by
    rw [alone] at wanted
    cases wanted
  alone _ q other := by rw [Directory.find?_put, if_neg other]

theorem rewritten_copied {a : Application} {i : Inputs} {file copy : FilePath}
    (wanted : i.config.backup = true) (before : dir.resolve a.file = .file file (utf8 i.text))
    (free : dir.target? (Config.backupPath a.file) = some copy) :
    Rewritten dir ((dir.put copy (utf8 i.text)).put file i.final) a i file := by
  have apart : copy ≠ file :=
    Directory.resolve_append_ne (by decide) (by decide) before (Directory.target?_eq_some.1 free)
  have still :=
    Directory.resolve_put_file (Directory.holdsFile_of_target? free) (utf8 i.text) before
  have made := Directory.resolve_put_target? free (utf8 i.text)
  have holds := Directory.holdsFile_of_resolve (.inl ⟨_, still⟩)
  refine ⟨before, ?_, fun _ => ⟨copy, apart, ?_, fun q notFile notCopy => ?_⟩, ?_⟩
  · exact Directory.resolve_put_target? (Directory.target?_file still) i.final
  · simpa [apart] using Directory.resolve_put_file holds i.final made
  · rw [Directory.find?_put, if_neg notFile, Directory.find?_put, if_neg notCopy]
  · intro alone
    rw [wanted] at alone
    cases alone

/-- A file in which something was done is no device. -/
theorem Inputs.file_of_applies {a : Application} {i : Inputs} (found : inputs? dir a = some i)
    (applies : i.applies = true) : ∃ file, dir.resolve a.file = .file file (utf8 i.text) := by
  simp only [inputs?, Option.bind_eq_bind, Option.bind_eq_some_iff, Option.some.injEq] at found
  obtain ⟨config, -, mutations, -, text, readable, rfl⟩ := found
  obtain file | ⟨-, empty⟩ := Directory.resolve_of_read (Directory.text?_iff_read.1 readable)
  · exact file
  · rw [Inputs.applies, empty, Mutation.changes_nil] at applies
    cases applies

theorem apply_allOrNothing (malformed : String) (dir : Directory) (a : Application) :
    AllOrNothing dir a ((apply malformed a).runIn dir).1 ((apply malformed a).runIn dir).2 := by
  rw [AllOrNothing]
  cases found : inputs? dir a with
  | none => exact runIn_apply_error malformed found
  | some i =>
      obtain ⟨description, runs⟩ := runIn_apply malformed found
      have text := i.text_applyAll a description
      have storage := i.storage_applyAll a description
      simp only [runs, applyTo]
      generalize (i.doc a).applyAll i.mutations description = applied at text storage ⊢
      obtain ⟨outcomes, doc⟩ := applied
      simp only at text storage ⊢
      have dirty : doc.isDirty = i.applies := by
        rw [Document.isDirty, storage]
        rfl
      by_cases printed : a.printOnly = true
      · obtain ⟨s, isText⟩ := i.final_isText
        simp only [printed, if_true, Action.runIn_pure]
        exact ⟨trivial, by rw [text, isText, text_utf8], trivial⟩
      simp only [printed, dirty, Bool.false_eq_true, if_false]
      cases applies : i.applies with
      | false =>
          simp only [if_true, Action.runIn_pure]
          exact ⟨rfl, trivial⟩
      | true =>
          obtain ⟨file, before⟩ := Inputs.file_of_applies found applies
          simp only [Bool.true_eq_false, if_false, Action.runIn_bind]
          cases wanted : i.config.backup with
          | false =>
              rw [runIn_writeBack wanted storage before, text]
              simp only [Bool.false_eq_true, false_and, if_false]
              exact ⟨rfl, file, rewritten_plain wanted before⟩
          | true =>
              cases free : dir.target? (Config.backupPath a.file) with
              | none =>
                  obtain ⟨message, failed⟩ := runIn_writeBack_error doc wanted before free
                  rw [failed]
                  simp only [and_self, if_true]
                  exact ⟨rfl, rfl⟩
              | some copy =>
                  rw [runIn_writeBack_copy wanted storage before free, text]
                  simp only [reduceCtorEq, and_false, if_false]
                  exact ⟨rfl, file, rewritten_copied wanted before free⟩

theorem AllOrNothing.unchanged {a : Application} {report : Report} {after : Directory}
    (whole : AllOrNothing dir a report after) (failed : report.code ≠ 0) : after = dir := by
  rw [AllOrNothing] at whole
  split at whole
  · exact whole.2
  · split at whole
    · exact whole.2.2
    · split at whole
      · exact whole.2
      · split at whole
        · exact whole.2
        · exact absurd whole.1 failed

theorem runIn_readText_snd (path : String) (dir : Directory) :
    ((Action.readText path).runIn dir).2 = dir := by
  cases found : dir.text? path with
  | none =>
      obtain ⟨e, failed⟩ := Action.runIn_readText_error found
      rw [failed]
  | some s => rw [Action.runIn_readText found]

/-- Questions change nothing. -/
theorem locate_unchanged (query : Query) (dir : Directory) :
    ((locate query).runIn dir).2 = dir := by
  rw [locate, Action.runIn_bind, runIn_readText_snd]
  repeat' split
  all_goals rfl

theorem siblings_unchanged (query : Query) (dir : Directory) :
    ((siblings query).runIn dir).2 = dir := by
  rw [siblings, Action.runIn_bind, runIn_readText_snd]
  repeat' split
  all_goals rfl

/-- A command that fails leaves every file as it was, and so does one that only looks. -/
theorem run_all_or_nothing (malformed : String) (args : List String) (dir : Directory) :
    let report := ((run malformed args).runIn dir).1
    let after := ((run malformed args).runIn dir).2
    (report.code ≠ 0 → after = dir) ∧
      match Command.parse? args with
      | some (.apply a) => AllOrNothing dir a report after
      | _ => after = dir := by
  intro report after
  have looks (still : after = dir) : (report.code ≠ 0 → after = dir) ∧ after = dir :=
    ⟨fun _ => still, still⟩
  cases parsed : Command.parse? args with
  | none =>
      have same : run malformed args = pure (.misuse usage) := by rw [run, parsed]
      exact looks (by simp only [after, same, Action.runIn_pure])
  | some command =>
      cases command with
      | version =>
          have same : run malformed args = pure (.success (versionLine ++ "\n")) := by
            rw [run, parsed]
          exact looks (by simp only [after, same, Action.runIn_pure])
      | help =>
          have same : run malformed args = pure (.success usage) := by rw [run, parsed]
          exact looks (by simp only [after, same, Action.runIn_pure])
      | locate query =>
          have same : run malformed args = locate query := by rw [run, parsed]
          exact looks (by simp only [after, same, locate_unchanged])
      | siblings query =>
          have same : run malformed args = siblings query := by rw [run, parsed]
          exact looks (by simp only [after, same, siblings_unchanged])
      | apply a =>
          have same : run malformed args = apply malformed a := by rw [run, parsed]
          have whole : AllOrNothing dir a report after := by
            simpa only [report, after, same] using apply_allOrNothing malformed dir a
          exact ⟨whole.unchanged, whole⟩

end MarkupEdit.CommandLine
