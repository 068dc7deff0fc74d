import MarkupEdit.Files.Directory

/-!
Directories after a write. A write changes what one path holds; a path that led to a file still
leads to it, with the content it had unless it is the one that was written. A path with more
characters behind its last name leads to another file.
-/

namespace MarkupEdit

/-- Characters other than a slash behind a path belong to its last part. -/
theorem pathParts_append (path : String) :
    ∃ earlier last, pathParts path = earlier ++ [last] ∧
      ∀ t : String, '/' ∉ t.toList → pathParts (path ++ t) = earlier ++ [last ++ t] := by
  have ended {t : List Char} (plain : '/' ∉ t) :
      t.foldr (fun c parts => if c = '/' then "" :: parts else consChar c parts) [""] =
        [String.ofList t] := by
    induction t with
    | nil => rfl
    | cons c t ih =>
        have other : c ≠ '/' := fun same => plain (by rw [same]; exact List.mem_cons_self)
        rw [List.foldr_cons, if_neg other, ih fun mem => plain (List.mem_cons_of_mem _ mem)]
        simp [consChar]
  have parts (s : List Char) :
      ∃ earlier last,
        s.foldr (fun c parts => if c = '/' then "" :: parts else consChar c parts) [""] =
          earlier ++ [last] ∧
        ∀ t : String, s.foldr (fun c parts => if c = '/' then "" :: parts else consChar c parts)
          [t] = earlier ++ [last ++ t] := by
    induction s with
    | nil => exact ⟨[], "", rfl, fun t => by simp⟩
    | cons c s ih =>
        obtain ⟨earlier, last, whole, longer⟩ := ih
        simp only [List.foldr_cons, whole, longer]
        by_cases slash : c = '/'
        · exact ⟨"" :: earlier, last, by rw [if_pos slash]; rfl, fun t => by rw [if_pos slash]; rfl⟩
        · simp only [if_neg slash]
          cases earlier with
          | nil =>
              exact ⟨[], String.singleton c ++ last, rfl, fun t => by
                simp [consChar, String.append_assoc]⟩
          | cons part earlier =>
              exact ⟨(String.singleton c ++ part) :: earlier, last, rfl, fun t => rfl⟩
  obtain ⟨earlier, last, whole, longer⟩ := parts path.toList
  refine ⟨earlier, last, whole, fun t plain => ?_⟩
  rw [pathParts, String.toList_append, List.foldr_append, ended plain, String.ofList_toList]
  exact longer t

namespace Directory

theorem find?_put (dir : Directory) (path q : FilePath) (content : Bytes) :
    (dir.put path content).find? q = if q = path then some content else dir.find? q := by
  have kept (files : List (FilePath × Bytes)) :
      ((files.map fun file => if file.1 = path then (path, content) else file).find?
          (·.1 = q)).map (·.2) =
        if q = path then ((files.find? (·.1 = q)).map fun _ => content)
        else (files.find? (·.1 = q)).map (·.2) := by
    induction files with
    | nil => simp
    | cons file files ih =>
        rw [List.map_cons, List.find?_cons, List.find?_cons]
        by_cases here : file.1 = path
        · rw [if_pos here]
          by_cases same : path = q
          · simp [same, here]
          · have other : file.1 ≠ q := by rwa [here]
            simp only [same, other, decide_false, ih]
        · rw [if_neg here]
          by_cases same : file.1 = q
          · have other : q ≠ path := by rwa [← same]
            simp [same, other]
          · simp only [same, decide_false, ih]
  rw [put]
  by_cases present : (dir.find? path).isSome
  · rw [if_pos present, find?, kept]
    by_cases same : q = path
    · rw [if_pos same, if_pos same]
      rw [find?, Option.isSome_map] at present
      rw [same]
      obtain ⟨file, found⟩ := Option.isSome_iff_exists.1 present
      rw [found, Option.map_some]
    · rw [if_neg same, if_neg same, find?]
  · rw [if_neg present, find?, List.find?_append]
    by_cases same : q = path
    · rw [find?, Option.isSome_map, Option.not_isSome_iff_eq_none] at present
      rw [if_pos same, same, present]
      simp
    · have other : path ≠ q := fun h => same h.symm
      rw [if_neg same, find?]
      simp [other]

/-- What lies beneath a path lies there after a write too. -/
theorem isDirectory_put {dir : Directory} {q : FilePath} (beneath : dir.isDirectory q = true)
    (path : FilePath) (content : Bytes) : (dir.put path content).isDirectory q = true := by
  rw [isDirectory, Bool.or_eq_true, List.any_eq_true] at beneath ⊢
  refine beneath.imp_right ?_
  rintro ⟨file, mem, below⟩
  rw [put]
  split
  · refine ⟨_, List.mem_map_of_mem mem, ?_⟩
    by_cases here : file.1 = path
    · rwa [if_pos here, ← here]
    · rwa [if_neg here]
  · exact ⟨file, List.mem_append_left _ mem, below⟩

theorem entry_eq_file {dir : Directory} {q p : FilePath} {content : Bytes} :
    dir.entry q = .file p content ↔ q = p ∧ dir.find? q = some content := by
  rw [entry]
  constructor
  · intro h
    split at h
    next found =>
      cases h
      exact ⟨rfl, found⟩
    · split at h <;> cases h
  · rintro ⟨rfl, found⟩
    rw [found]

theorem entry_eq_directory {dir : Directory} {q : FilePath} :
    dir.entry q = .directory ↔ dir.find? q = none ∧ dir.isDirectory q = true := by
  rw [entry]
  cases found : dir.find? q with
  | some content => simp
  | none =>
      cases beneath : dir.isDirectory q with
      | true => simp
      | false => simp

theorem entry_eq_free {dir : Directory} {q p : FilePath} (h : dir.entry q = .free p) : q = p := by
  rw [entry] at h
  split at h
  · cases h
  · split at h
    · cases h
    · exact Entry.free.inj h

/-- The path holds a file, or nothing in a directory that is there. -/
def HoldsFile (dir : Directory) (path : FilePath) : Prop := dir.entry path ≠ .directory

theorem entry_put_directory {dir : Directory} {path : FilePath} (holds : dir.HoldsFile path)
    (content : Bytes) {q : FilePath} (here : dir.entry q = .directory) :
    (dir.put path content).entry q = .directory := by
  have other : q ≠ path := by
    rintro rfl
    exact holds here
  obtain ⟨absent, beneath⟩ := entry_eq_directory.1 here
  exact entry_eq_directory.2
    ⟨by rw [find?_put, if_neg other, absent], isDirectory_put beneath path content⟩

theorem entry_put_file {dir : Directory} {q p : FilePath} {old : Bytes}
    (here : dir.entry q = .file p old) (path : FilePath) (content : Bytes) :
    (dir.put path content).entry q = .file p (if p = path then content else old) := by
  obtain ⟨rfl, found⟩ := entry_eq_file.1 here
  refine entry_eq_file.2 ⟨rfl, ?_⟩
  rw [find?_put, found]
  split <;> rfl

/-- Of the places outside the directory none is a file. -/
theorem outerEntry_ne_file (q p : FilePath) (content : Bytes) : outerEntry q ≠ .file p content := by
  rw [outerEntry.eq_def]
  split
  · nofun
  · split <;> nofun
  · split <;> nofun

theorem outerEntry_ne_free (q p : FilePath) : outerEntry q ≠ .free p := by
  rw [outerEntry.eq_def]
  split
  · nofun
  · split <;> nofun
  · split <;> nofun

theorem entryAt_put_directory {dir : Directory} {path : FilePath} (holds : dir.HoldsFile path)
    (content : Bytes) {q : FilePath} (here : dir.entryAt q = .directory) :
    (dir.put path content).entryAt q = .directory := by
  rw [entryAt] at here ⊢
  split
  next inside =>
    rw [if_pos inside] at here
    exact entry_put_directory holds content here
  next outside => rwa [if_neg outside] at here

theorem entryAt_put_file {dir : Directory} {q p : FilePath} {old : Bytes}
    (here : dir.entryAt q = .file p old) (path : FilePath) (content : Bytes) :
    (dir.put path content).entryAt q = .file p (if p = path then content else old) := by
  rw [entryAt] at here ⊢
  split
  next inside =>
    rw [if_pos inside] at here
    exact entry_put_file here path content
  next outside =>
    rw [if_neg outside] at here
    exact absurd here (outerEntry_ne_file q p old)

theorem entryAt_put_free {dir : Directory} {q p : FilePath} (here : dir.entryAt q = .free p)
    (content : Bytes) : (dir.put p content).entryAt q = .file p content := by
  rw [entryAt] at here ⊢
  split
  next inside =>
    rw [if_pos inside] at here
    obtain same := entry_eq_free here
    exact entry_eq_file.2 ⟨same, by rw [find?_put, if_pos same]⟩
  next outside =>
    rw [if_neg outside] at here
    exact absurd here (outerEntry_ne_free q p)

/-- Where a file is or could be seen from the root, it is in the directory. -/
theorem entryAt_inside {dir : Directory} {q p : FilePath}
    (here : (∃ content, dir.entryAt q = .file p content) ∨ dir.entryAt q = .free p) :
    q = location ++ p := by
  rw [entryAt] at here
  split at here
  next inside =>
    obtain ⟨rest, rfl⟩ := List.isPrefixOf_iff_prefix.1 inside
    rw [List.drop_left] at here
    obtain ⟨content, file⟩ | free := here
    · rw [(entry_eq_file.1 file).1]
    · rw [entry_eq_free free]
  next =>
    obtain ⟨content, file⟩ | free := here
    · exact absurd file (outerEntry_ne_file q p content)
    · exact absurd free (outerEntry_ne_free q p)

/-- The part of a path that names something. -/
def IsName (part : String) : Prop :=
  ¬ maxNameBytes < part.utf8ByteSize ∧ ¬ (part = "" ∨ part = ".") ∧ part ≠ ".."

theorem follow_long {dir : Directory} {here : FilePath} {part : String}
    (long : maxNameBytes < part.utf8ByteSize) (rest : List String) :
    dir.follow here (part :: rest) = .blocked .nameTooLong := by
  rw [follow.eq_def]
  exact if_pos long

theorem follow_stay {dir : Directory} {here : FilePath} {part : String}
    (short : ¬ maxNameBytes < part.utf8ByteSize) (stay : part = "" ∨ part = ".")
    (rest : List String) : dir.follow here (part :: rest) = dir.follow here rest := by
  rw [follow.eq_def]
  exact (if_neg short).trans (if_pos stay)

theorem follow_up {dir : Directory} {here : FilePath} {part : String}
    (short : ¬ maxNameBytes < part.utf8ByteSize) (up : part = "..") (rest : List String) :
    dir.follow here (part :: rest) = dir.follow here.dropLast rest := by
  have moves : ¬ (part = "" ∨ part = ".") := by
    rw [up]
    decide
  rw [follow.eq_def]
  exact (if_neg short).trans ((if_neg moves).trans (if_pos up))

theorem follow_last {dir : Directory} {here : FilePath} {part : String} (isName : IsName part) :
    dir.follow here [part] = dir.entryAt (here ++ [part]) := by
  rw [follow.eq_def]
  exact (if_neg isName.1).trans ((if_neg isName.2.1).trans (if_neg isName.2.2))

theorem follow_name {dir : Directory} {here : FilePath} {part : String} (isName : IsName part)
    (next : String) (rest : List String) :
    dir.follow here (part :: next :: rest) =
      match dir.entryAt (here ++ [part]) with
      | .directory => dir.follow (here ++ [part]) (next :: rest)
      | .file .. | .device => .blocked .notDirectory
      | _ => .blocked .missing := by
  rw [follow.eq_def]
  refine (if_neg isName.1).trans ((if_neg isName.2.1).trans ((if_neg isName.2.2).trans ?_))
  cases dir.entryAt (here ++ [part]) <;> rfl

/-- A path leads to what stands somewhere, or nowhere. -/
theorem follow_reaches (dir : Directory) (here : FilePath) (parts : List String) :
    (∃ q, dir.follow here parts = dir.entryAt q) ∨ ∃ e, dir.follow here parts = .blocked e := by
  induction parts generalizing here with
  | nil => exact .inl ⟨here, rfl⟩
  | cons part rest ih =>
      by_cases long : maxNameBytes < part.utf8ByteSize
      · exact .inr ⟨.nameTooLong, follow_long long rest⟩
      by_cases stay : part = "" ∨ part = "."
      · rw [follow_stay long stay]
        exact ih here
      by_cases up : part = ".."
      · rw [follow_up long up]
        exact ih here.dropLast
      have isName : IsName part := ⟨long, stay, up⟩
      cases rest with
      | nil => exact .inl ⟨here ++ [part], follow_last isName⟩
      | cons next rest =>
          rw [follow_name isName]
          cases dir.entryAt (here ++ [part]) with
          | directory => exact ih (here ++ [part])
          | file | device => exact .inr ⟨.notDirectory, rfl⟩
          | free | blocked => exact .inr ⟨.missing, rfl⟩

theorem resolve_reaches (dir : Directory) (s : String) :
    (∃ q, dir.resolve s = dir.entryAt q) ∨ ∃ e, dir.resolve s = .blocked e := by
  rw [resolve]
  split
  · exact .inr ⟨.missing, rfl⟩
  · split
    · exact .inr ⟨.nameTooLong, rfl⟩
    · exact follow_reaches dir _ _

theorem entry_of_resolve_file {dir : Directory} {s : String} {p : FilePath} {content : Bytes}
    (reached : dir.resolve s = .file p content) : dir.entry p = .file p content := by
  obtain ⟨q, place⟩ | ⟨e, blocked⟩ := resolve_reaches dir s
  · rw [place, entryAt] at reached
    split at reached
    · obtain ⟨rfl, found⟩ := entry_eq_file.1 reached
      exact entry_eq_file.2 ⟨rfl, found⟩
    · exact absurd reached (outerEntry_ne_file q p content)
  · rw [blocked] at reached
    cases reached

theorem entry_of_resolve_free {dir : Directory} {s : String} {p : FilePath}
    (reached : dir.resolve s = .free p) : dir.entry p = .free p := by
  obtain ⟨q, place⟩ | ⟨e, blocked⟩ := resolve_reaches dir s
  · rw [place, entryAt] at reached
    split at reached
    · obtain rfl := entry_eq_free reached
      exact reached
    · exact absurd reached (outerEntry_ne_free q p)
  · rw [blocked] at reached
    cases reached

/-- Where a file is or could be, a file can be written. -/
theorem holdsFile_of_resolve {dir : Directory} {s : String} {p : FilePath}
    (reached : (∃ content, dir.resolve s = .file p content) ∨ dir.resolve s = .free p) :
    dir.HoldsFile p := by
  obtain ⟨content, file⟩ | free := reached
  · rw [HoldsFile, entry_of_resolve_file file]
    nofun
  · rw [HoldsFile, entry_of_resolve_free free]
    nofun

/-- Directories stay after a write; so a path leads to where it led before. What stands there
may have become something else. -/
theorem follow_put {dir : Directory} {path : FilePath} (holds : dir.HoldsFile path)
    {content : Bytes} {found after : Entry} (reaching : ∀ e, found ≠ .blocked e)
    (becomes : ∀ q, dir.entryAt q = found → (dir.put path content).entryAt q = after)
    {here : FilePath} {parts : List String} (reached : dir.follow here parts = found) :
    (dir.put path content).follow here parts = after := by
  induction parts generalizing here with
  | nil => exact becomes here reached
  | cons part rest ih =>
      by_cases long : maxNameBytes < part.utf8ByteSize
      · rw [follow_long long] at reached
        exact absurd reached.symm (reaching _)
      by_cases stay : part = "" ∨ part = "."
      · rw [follow_stay long stay] at reached ⊢
        exact ih reached
      by_cases up : part = ".."
      · rw [follow_up long up] at reached ⊢
        exact ih reached
      have isName : IsName part := ⟨long, stay, up⟩
      cases rest with
      | nil =>
          rw [follow_last isName] at reached ⊢
          exact becomes _ reached
      | cons next rest =>
          rw [follow_name isName] at reached ⊢
          cases place : dir.entryAt (here ++ [part]) with
          | directory =>
              rw [place] at reached
              rw [entryAt_put_directory holds content place]
              exact ih reached
          | _ =>
              rw [place] at reached
              exact absurd reached.symm (reaching _)

theorem resolve_put {dir : Directory} {path : FilePath} (holds : dir.HoldsFile path)
    {content : Bytes} {found after : Entry} (reaching : ∀ e, found ≠ .blocked e)
    (becomes : ∀ q, dir.entryAt q = found → (dir.put path content).entryAt q = after)
    {s : String} (reached : dir.resolve s = found) : (dir.put path content).resolve s = after := by
  rw [resolve] at reached ⊢
  split at reached
  · exact absurd reached.symm (reaching _)
  next nonempty =>
    split at reached
    · exact absurd reached.symm (reaching _)
    next short =>
      rw [if_neg nonempty, if_neg short]
      exact follow_put holds reaching becomes reached

/-- A path that led to a file leads to it after a write. -/
theorem resolve_put_file {dir : Directory} {path : FilePath} (holds : dir.HoldsFile path)
    (content : Bytes) {s : String} {p : FilePath} {old : Bytes}
    (reached : dir.resolve s = .file p old) :
    (dir.put path content).resolve s = .file p (if p = path then content else old) :=
  resolve_put holds (by simp) (fun _ here => entryAt_put_file here path content) reached

/-- A path that led to nothing yet leads to the file that was written there. -/
theorem resolve_put_free {dir : Directory} {s : String} {p : FilePath}
    (reached : dir.resolve s = .free p) (content : Bytes) :
    (dir.put p content).resolve s = .file p content :=
  resolve_put (holdsFile_of_resolve (.inr reached)) (by simp)
    (fun _ here => entryAt_put_free here content) reached

/-- Where all parts but the last lead does not depend on the last. -/
theorem follow_append (dir : Directory) (here : FilePath) (earlier : List String) :
    (∃ e, ∀ last, dir.follow here (earlier ++ [last]) = .blocked e) ∨
      ∃ there, ∀ last, dir.follow here (earlier ++ [last]) = dir.follow there [last] := by
  induction earlier generalizing here with
  | nil => exact .inr ⟨here, fun last => rfl⟩
  | cons part rest ih =>
      by_cases long : maxNameBytes < part.utf8ByteSize
      · exact .inl ⟨.nameTooLong, fun last => follow_long long _⟩
      by_cases stay : part = "" ∨ part = "."
      · simpa only [List.cons_append, follow_stay long stay] using ih here
      by_cases up : part = ".."
      · simpa only [List.cons_append, follow_up long up] using ih here.dropLast
      have isName : IsName part := ⟨long, stay, up⟩
      have onward (last : String) : ∃ next later, rest ++ [last] = next :: later :=
        List.exists_cons_of_ne_nil (by simp)
      cases found : dir.entryAt (here ++ [part]) with
      | directory =>
          refine (ih (here ++ [part])).imp ?_ ?_
          · rintro ⟨e, blocked⟩
            refine ⟨e, fun last => ?_⟩
            obtain ⟨next, later, split⟩ := onward last
            rw [List.cons_append, ← blocked last, split, follow_name isName, found]
          · rintro ⟨there, leads⟩
            refine ⟨there, fun last => ?_⟩
            obtain ⟨next, later, split⟩ := onward last
            rw [List.cons_append, ← leads last, split, follow_name isName, found]
      | file | device =>
          refine .inl ⟨.notDirectory, fun last => ?_⟩
          obtain ⟨next, later, split⟩ := onward last
          rw [List.cons_append, split, follow_name isName, found]
      | free | blocked =>
          refine .inl ⟨.missing, fun last => ?_⟩
          obtain ⟨next, later, split⟩ := onward last
          rw [List.cons_append, split, follow_name isName, found]

/-- A path and the longer ones part only at the last name. -/
theorem resolve_append (dir : Directory) (path : String) (nonempty : path ≠ "") :
    ∃ there last,
      ((∃ e, dir.resolve path = .blocked e) ∨ dir.resolve path = dir.follow there [last]) ∧
      ∀ t : String, '/' ∉ t.toList →
        (∃ e, dir.resolve (path ++ t) = .blocked e) ∨
          dir.resolve (path ++ t) = dir.follow there [last ++ t] := by
  obtain ⟨earlier, last, whole, longer⟩ := pathParts_append path
  obtain ⟨c, rest, front⟩ := List.exists_cons_of_ne_nil
    fun empty => nonempty (String.toList_eq_nil_iff.1 empty)
  have walk (s tail : String) (parts : pathParts s = earlier ++ [tail])
      (head : s.toList.head? = some c) :
      (∃ e, dir.resolve s = .blocked e) ∨ dir.resolve s =
        dir.follow (if some c = some '/' then [] else location) (earlier ++ [tail]) := by
    have nonempty' : s ≠ "" := by
      rintro rfl
      cases head
    rw [resolve, if_neg nonempty', parts, head]
    split
    · exact .inl ⟨.nameTooLong, rfl⟩
    · exact .inr rfl
  have ahead := walk path last whole (by rw [front]; rfl)
  have behind (t : String) (plain : '/' ∉ t.toList) := walk (path ++ t) (last ++ t) (longer t plain)
    (by rw [String.toList_append, front]; rfl)
  obtain ⟨e, blocked⟩ | ⟨there, leads⟩ :=
    follow_append dir (if some c = some '/' then [] else location) earlier
  · simp only [blocked] at ahead behind
    exact ⟨[], last, .inl (ahead.elim id fun same => ⟨e, same⟩), fun t plain =>
      .inl ((behind t plain).elim id fun same => ⟨e, same⟩)⟩
  · simp only [leads] at ahead behind
    exact ⟨there, last, ahead, behind⟩

/-- A name with three characters or more behind it is a name, unless it gets too long. -/
theorem follow_longer (dir : Directory) (there : FilePath) (last : String) {t : String}
    (long : 3 ≤ t.length) :
    dir.follow there [last ++ t] = .blocked .nameTooLong ∨
      dir.follow there [last ++ t] = dir.entryAt (there ++ [last ++ t]) := by
  by_cases tooLong : maxNameBytes < (last ++ t).utf8ByteSize
  · exact .inl (follow_long tooLong [])
  · have short (s : String) (few : s.length < 3) : last ++ t ≠ s := by
      rintro rfl
      rw [String.length_append] at few
      omega
    refine .inr (follow_last ⟨tooLong, ?_, short _ (by decide)⟩)
    rintro (h | h)
    · exact short _ (by decide) h
    · exact short _ (by decide) h

/-- Where a single part leads, if there is a file. -/
theorem follow_single {dir : Directory} {there p : FilePath} {last : String} {held : Bytes}
    (reached : dir.follow there [last] = .file p held) :
    ∃ q, dir.entryAt q = .file p held ∧ (q = there ++ [last] ∨ q.length ≤ there.length) := by
  by_cases long : maxNameBytes < last.utf8ByteSize
  · rw [follow_long long] at reached
    cases reached
  by_cases stay : last = "" ∨ last = "."
  · rw [follow_stay long stay] at reached
    exact ⟨there, reached, .inr (Nat.le_refl _)⟩
  by_cases up : last = ".."
  · rw [follow_up long up] at reached
    exact ⟨there.dropLast, reached, .inr (by rw [List.length_dropLast]; omega)⟩
  · rw [follow_last ⟨long, stay, up⟩] at reached
    exact ⟨there ++ [last], reached, .inl rfl⟩

/-- A longer path does not lead to the file that the path leads to. -/
theorem resolve_append_ne {dir : Directory} {path t : String} {p p' : FilePath} {held : Bytes}
    (plain : '/' ∉ t.toList) (long : 3 ≤ t.length) (reached : dir.resolve path = .file p held)
    (longer : (∃ content, dir.resolve (path ++ t) = .file p' content) ∨
      dir.resolve (path ++ t) = .free p') : p' ≠ p := by
  have nonempty : path ≠ "" := by
    rintro rfl
    cases reached
  obtain ⟨there, last, ahead, behind⟩ := resolve_append dir path nonempty
  have walked : dir.resolve (path ++ t) = dir.entryAt (there ++ [last ++ t]) := by
    obtain ⟨e, blocked⟩ | leads := behind t plain
    · simp [blocked] at longer
    · obtain blocked | name := follow_longer dir there last long
      · simp [leads, blocked] at longer
      · rw [leads, name]
  obtain ⟨e, blocked⟩ | ahead := ahead
  · rw [blocked] at reached
    cases reached
  rw [walked] at longer
  rw [ahead] at reached
  obtain ⟨q, file, place⟩ := follow_single reached
  have inside := entryAt_inside (.inl ⟨held, file⟩)
  have inside' := entryAt_inside longer
  rintro rfl
  rw [← inside'] at inside
  subst inside
  obtain same | short := place
  · have grown : (last ++ t).length = last.length := by
      rw [List.singleton_inj.1 (List.append_cancel_left same)]
    rw [String.length_append] at grown
    omega
  · rw [List.length_append, List.length_singleton] at short
    exact absurd short (Nat.not_succ_le_self _)

/-- A longer path leads to the device only if the device has the end of it in its name. -/
theorem resolve_append_device {dir : Directory} {path t : String} (nonempty : path ≠ "")
    (plain : '/' ∉ t.toList) (long : 3 ≤ t.length) (reached : dir.resolve (path ++ t) = .device) :
    ∃ last, last ++ t = "null" := by
  obtain ⟨there, last, -, behind⟩ := resolve_append dir path nonempty
  obtain ⟨e, blocked⟩ | leads := behind t plain
  · rw [blocked] at reached
    cases reached
  obtain blocked | name := follow_longer dir there last long
  · rw [leads, blocked] at reached
    cases reached
  rw [leads, name, entryAt] at reached
  refine ⟨last, ?_⟩
  split at reached
  · rw [entry] at reached
    split at reached
    · cases reached
    · split at reached <;> cases reached
  · rw [outerEntry.eq_def] at reached
    split at reached
    · cases reached
    · split at reached <;> cases reached
    · split at reached
      next same =>
        have device : nullDevice = ["dev"] ++ ["null"] := rfl
        rw [device] at same
        exact List.singleton_inj.1 (List.append_inj' same rfl).2
      · cases reached

end Directory

end MarkupEdit
