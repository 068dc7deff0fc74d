import MarkupEdit.Proofs.ContentLocality

/-!
Content laid out: runs of text, and between each two of them a comment, a brace block, an element
or a fragment. The scan of content finds these runs, the empty ones apart, and a search in them
finds the first place in the first run that holds what is sought; what is put there leaves all
units and the other runs as they are.
-/

namespace MarkupEdit

/-- Bytes that content reads as text of its own. -/
def DirectText (run : Bytes) : Prop := ∀ c ∈ run, Part.content.isPlain c = true

instance (run : Bytes) : Decidable (DirectText run) :=
  decidable_of_iff (run.all Part.content.isPlain = true) List.all_eq_true

theorem DirectText.append {b c : Bytes} (hb : DirectText b) (hc : DirectText c) :
    DirectText (b ++ c) :=
  List.forall_mem_append.2 ⟨hb, hc⟩

theorem DirectText.left {b c : Bytes} (h : DirectText (b ++ c)) : DirectText b :=
  (List.forall_mem_append.1 h).1

theorem DirectText.right {b c : Bytes} (h : DirectText (b ++ c)) : DirectText c :=
  (List.forall_mem_append.1 h).2

/-- What may stand beside text in content. -/
inductive ContentUnit : Bytes → Prop where
  | comment {k : Bytes} (unclosed : ¬ utf8 "-->" <:+: k) : ContentUnit (commentText k)
  | braces {k : Bytes} (hk : Markup .block k) :
      ContentUnit (Byte.openBrace :: (k ++ [Byte.closeBrace]))
  /-- Fragments are elements too. -/
  | element {e : Bytes} (he : Markup .element e) : ContentUnit e

namespace ContentUnit

variable {u : Bytes}

theorem ne_nil (h : ContentUnit u) : u ≠ [] := by
  cases h with
  | comment unclosed => exact List.cons_ne_nil _ _
  | braces hk => exact List.cons_ne_nil _ _
  | element he =>
      have head : u.head? = some Byte.less := (Scan.passes_markup he).head
      rintro rfl
      cases head

theorem read (h : ContentUnit u) (i : Nat) (s : Bytes) :
    Child.read i (u ++ s) = .unit (i + u.length) := by
  cases h with
  | comment unclosed => exact read_comment unclosed i s
  | braces hk => simpa using read_braces hk i s
  | element he => exact read_element he i s

theorem content (h : ContentUnit u) {b : Bytes} (hb : Markup .content b) :
    Markup .content (u ++ b) := by
  cases h with
  | comment unclosed => exact .contentComment unclosed hb
  | braces hk => simpa using Markup.contentBraces hk hb
  | element he => exact .contentElement he hb

end ContentUnit

inductive Body where
  | last (run : Bytes) (direct : DirectText run)
  | more (run : Bytes) (direct : DirectText run) (unit : Bytes) (isUnit : ContentUnit unit)
      (rest : Body)

namespace Body

def bytes : Body → Bytes
  | last run _ => run
  | more run _ unit _ rest => run ++ (unit ++ rest.bytes)

/-- The maximal runs of text, also those that are empty. -/
def runs : Body → List Bytes
  | last run _ => [run]
  | more run _ _ _ rest => run :: rest.runs

def units : Body → List Bytes
  | last _ _ => []
  | more _ _ unit _ rest => unit :: rest.units

theorem content_text {run b : Bytes} (direct : DirectText run) (hb : Markup .content b) :
    Markup .content (run ++ b) := by
  induction run with
  | nil => exact hb
  | cons c t ih =>
      obtain ⟨first, later⟩ := List.forall_mem_cons.1 direct
      exact .contentByte first (ih later)

theorem content (body : Body) : Markup .content body.bytes := by
  induction body with
  | last run direct =>
      have text := content_text direct .contentNil
      rwa [List.append_nil] at text
  | more run direct unit isUnit rest ih => exact content_text direct (isUnit.content ih)

/-- All well-formed content can be laid out. -/
theorem exists_body {part : Part} {c : Bytes} (h : Markup part c) :
    part = .content → ∃ body : Body, body.bytes = c := by
  -- Text in front of a layout joins its first run.
  have begin_ {u : Bytes} (direct : DirectText u) (body : Body) :
      ∃ body' : Body, body'.bytes = u ++ body.bytes := by
    cases body with
    | last run direct' => exact ⟨.last _ (direct.append direct'), rfl⟩
    | more run direct' unit isUnit rest =>
        exact ⟨.more _ (direct.append direct') unit isUnit rest, List.append_assoc _ _ _⟩
  have unit {u : Bytes} (isUnit : ContentUnit u) (body : Body) :
      ∃ body' : Body, body'.bytes = u ++ body.bytes :=
    ⟨.more [] nofun u isUnit body, rfl⟩
  induction h with
  | contentNil => exact fun _ => ⟨.last [] nofun, rfl⟩
  | @contentByte c b hc hb ih =>
      intro _
      obtain ⟨body, rfl⟩ := ih rfl
      exact begin_ (u := [c]) (List.forall_mem_singleton.2 hc) body
  | contentComment hk hb ih =>
      intro _
      obtain ⟨body, rfl⟩ := ih rfl
      exact unit (.comment hk) body
  | @contentBraces k b hk hb _ ih =>
      intro _
      obtain ⟨body, rfl⟩ := ih rfl
      obtain ⟨body', split⟩ := unit (.braces hk) body
      exact ⟨body', by simpa using split⟩
  | contentElement he hb _ ih =>
      intro _
      obtain ⟨body, rfl⟩ := ih rfl
      exact unit (.element he) body
  | _ =>
      intro other
      cases other

/-- Where the runs that are not empty start and stop, the content standing at offset `i`. -/
def spans (i : Nat) : Body → List (Nat × Nat)
  | last run _ => Content.run i (i + run.length)
  | more run _ unit _ rest =>
      Content.run i (i + run.length) ++ rest.spans (i + run.length + unit.length)

theorem scan?_text {run : Bytes} (direct : DirectText run) {stop start i : Nat}
    (within : i + run.length ≤ stop) (s : Bytes) :
    Content.scan? stop start i (run ++ s) = Content.scan? stop start (i + run.length) s := by
  induction run generalizing i with
  | nil => rfl
  | cons c t ih =>
      obtain ⟨first, later⟩ := List.forall_mem_cons.1 direct
      rw [List.length_cons] at within
      rw [List.cons_append, Content.scan?, if_neg (by omega), read_byte first]
      dsimp only
      rw [ih later (by omega), List.length_cons]
      congr 1
      omega

theorem scan?_bytes (body : Body) (i : Nat) (s : Bytes) :
    Content.scan? (i + body.bytes.length) i i (body.bytes ++ s) =
      some ⟨body.spans i, !body.units.isEmpty⟩ := by
  induction body generalizing i with
  | last run direct =>
      rw [bytes, scan?_text direct (Nat.le_refl _), Content.scan?_end]
      rfl
  | more run direct unit isUnit rest ih =>
      have width := List.length_pos_iff.2 isUnit.ne_nil
      have stop : i + (more run direct unit isUnit rest).bytes.length =
          i + run.length + unit.length + rest.bytes.length := by
        simp only [bytes, List.length_append]
        omega
      rw [stop, bytes, List.append_assoc, List.append_assoc, scan?_text direct (by omega),
        Content.scan?_unit isUnit.ne_nil (isUnit.read _ _) (by omega), ih, Option.map_some]
      rfl

/-- A place in a run of the layout where `sought` stands. What is written in its stead changes
that run alone. -/
structure Spot (body : Body) (sought front back : Bytes) where
  earlier : List Bytes
  u : Bytes
  v : Bytes
  later : List Bytes
  bytes : body.bytes = front ++ (sought ++ back)
  runs : body.runs = earlier ++ (u ++ (sought ++ v)) :: later
  put : ∀ t, DirectText t → ∃ body' : Body, body'.bytes = front ++ (t ++ back) ∧
    body'.units = body.units ∧ body'.runs = earlier ++ (u ++ (t ++ v)) :: later

/-- There is no earlier place in a run. -/
structure Spot.First {body : Body} {sought front back : Bytes}
    (spot : Spot body sought front back) : Prop where
  run : ∀ run ∈ spot.earlier, ¬ sought <:+: run
  place : ∀ u v, spot.u ++ (sought ++ spot.v) = u ++ (sought ++ v) → spot.u.length ≤ u.length

def Spot.last {run sought u v : Bytes} (direct : DirectText run)
    (split : run = u ++ (sought ++ v)) : Spot (.last run direct) sought u v where
  earlier := []
  u := u
  v := v
  later := []
  bytes := split
  runs := by rw [Body.runs, split]; rfl
  put t ht := by
    rw [split] at direct
    exact ⟨.last _ (direct.left.append (ht.append direct.right.right)), rfl, rfl, rfl⟩

def Spot.here {run sought u v unit : Bytes} (direct : DirectText run)
    (split : run = u ++ (sought ++ v)) (isUnit : ContentUnit unit) (rest : Body) :
    Spot (.more run direct unit isUnit rest) sought u (v ++ (unit ++ rest.bytes)) where
  earlier := []
  u := u
  v := v
  later := rest.runs
  bytes := by simp only [Body.bytes, split, List.append_assoc]
  runs := by rw [Body.runs, split]; rfl
  put t ht := by
    rw [split] at direct
    refine ⟨.more _ (direct.left.append (ht.append direct.right.right)) unit isUnit rest, ?_, rfl,
      rfl⟩
    simp only [Body.bytes, List.append_assoc]

def Spot.there {rest : Body} {sought front back : Bytes} (spot : Spot rest sought front back)
    {run unit : Bytes} (direct : DirectText run) (isUnit : ContentUnit unit) :
    Spot (.more run direct unit isUnit rest) sought (run ++ (unit ++ front)) back where
  earlier := run :: spot.earlier
  u := spot.u
  v := spot.v
  later := spot.later
  bytes := by simp only [Body.bytes, spot.bytes, List.append_assoc]
  runs := by rw [Body.runs, spot.runs]; rfl
  put t ht := by
    obtain ⟨body', bytes, units, runs⟩ := spot.put t ht
    refine ⟨.more run direct unit isUnit body', ?_, ?_, ?_⟩
    · simp only [Body.bytes, bytes, List.append_assoc]
    · rw [Body.units, Body.units, units]
    · rw [Body.runs, runs]
      rfl

theorem findInRuns?_append (text sought : Bytes) (r r' : List (Nat × Nat)) :
    Edit.findInRuns? text sought (r ++ r') =
      (Edit.findInRuns? text sought r).or (Edit.findInRuns? text sought r') :=
  List.findSome?_append

/-- A search in a run that may be empty. -/
theorem findInRuns?_run {sought : Bytes} (ne : sought ≠ []) (x run y : Bytes) :
    Edit.findInRuns? (x ++ (run ++ y)) sought (Content.run x.length (x.length + run.length)) =
      (run.index? sought).map (x.length + ·) := by
  rw [Content.run]
  split
  · rw [Edit.findInRuns?, List.findSome?_singleton]
    dsimp only
    rw [slice_append]
  next empty =>
    obtain rfl : run = [] := List.length_eq_zero_iff.1 (by omega)
    obtain ⟨c, t, rfl⟩ := List.exists_cons_of_ne_nil ne
    rfl

theorem findInRuns?_spans {sought : Bytes} (ne : sought ≠ []) (body : Body) (x y : Bytes) :
    (Edit.findInRuns? (x ++ (body.bytes ++ y)) sought (body.spans x.length) = none ∧
        ∀ run ∈ body.runs, ¬ sought <:+: run) ∨
      ∃ front back, ∃ spot : Spot body sought front back, spot.First ∧
        Edit.findInRuns? (x ++ (body.bytes ++ y)) sought (body.spans x.length) =
          some (x ++ front).length := by
  induction body generalizing x with
  | last run direct =>
      rw [bytes, spans, findInRuns?_run ne]
      cases found : run.index? sought with
      | none => exact .inl ⟨rfl, List.forall_mem_singleton.2 (Bytes.index?_eq_none.1 found)⟩
      | some m =>
          obtain ⟨u, v, split, rfl, first⟩ := Bytes.index?_eq_some found
          refine .inr ⟨u, v, .last direct split, ⟨nofun, fun u' v' same => ?_⟩, ?_⟩
          · exact first u' v' (split.trans same)
          · rw [Option.map_some, List.length_append]
  | more run direct unit isUnit rest ih =>
      have split : x ++ ((more run direct unit isUnit rest).bytes ++ y) =
          x ++ (run ++ (unit ++ (rest.bytes ++ y))) := by
        simp only [bytes, List.append_assoc]
      have behind : x ++ (run ++ (unit ++ (rest.bytes ++ y))) =
          (x ++ (run ++ unit)) ++ (rest.bytes ++ y) := by
        simp only [List.append_assoc]
      have offset : x.length + run.length + unit.length = (x ++ (run ++ unit)).length := by
        simp only [List.length_append]
        omega
      rw [split, spans, findInRuns?_append, findInRuns?_run ne]
      cases found : run.index? sought with
      | some m =>
          obtain ⟨u, v, divided, rfl, first⟩ := Bytes.index?_eq_some found
          refine .inr ⟨u, _, .here direct divided isUnit rest, ⟨nofun, fun u' v' same => ?_⟩, ?_⟩
          · exact first u' v' (divided.trans same)
          · rw [Option.map_some, Option.some_or, List.length_append]
      | none =>
          have absent := Bytes.index?_eq_none.1 found
          rw [Option.map_none, Option.none_or, behind, offset]
          rcases ih (x ++ (run ++ unit)) with ⟨none, others⟩ | ⟨front, back, spot, first, found⟩
          · exact .inl ⟨none, List.forall_mem_cons.2 ⟨absent, others⟩⟩
          · refine .inr ⟨_, back, spot.there direct isUnit, ⟨?_, first.place⟩, ?_⟩
            · exact List.forall_mem_cons.2 ⟨absent, first.run⟩
            · rw [found]
              simp only [List.append_assoc]

end Body

end MarkupEdit
