import MarkupEdit.Proofs.ContentLocality
import MarkupEdit.Proofs.ForestPatch

/-!
Documents as written whose brace blocks nest with their elements. The content of each element is
well-formed then, so the element is closed by the tag written for it, and the runs of text in its
content lie between the tags and comments of the document.
-/

namespace MarkupEdit

/-- Text from a place in `d` open blocks to one in `e` of them. In a block, literals are whole. -/
inductive Code : Nat → Bytes → Nat → Prop where
  | nil (d : Nat) : Code d [] d
  | byte {c : UInt8} {b : Bytes} {e : Nat} (hc : Part.content.isPlain c = true)
      (hb : Code 0 b e) : Code 0 (c :: b) e
  | inner {c : UInt8} {b : Bytes} {d e : Nat} (hc : Part.block.isPlain c = true)
      (hb : Code (d + 1) b e) : Code (d + 1) (c :: b) e
  | literal {l b : Bytes} {d e : Nat} (hl : Markup .literal l) (hb : Code (d + 1) b e) :
      Code (d + 1) (l ++ b) e
  | opens {b : Bytes} {d e : Nat} (hb : Code (d + 1) b e) : Code d (Byte.openBrace :: b) e
  | closes {b : Bytes} {d e : Nat} (hb : Code d b e) : Code (d + 1) (Byte.closeBrace :: b) e

/-- A text that closes `d` blocks and is content behind them. -/
def Resumes : Nat → Bytes → Prop
  | 0, s => Markup .content s
  | d + 1, s => ∃ k r, s = k ++ Byte.closeBrace :: r ∧ Markup .block k ∧ Resumes d r

theorem Resumes.opens {d : Nat} {s : Bytes} (h : Resumes (d + 1) s) :
    Resumes d (Byte.openBrace :: s) := by
  obtain ⟨k, r, rfl, hk, hr⟩ := h
  cases d with
  | zero => exact Markup.contentBraces hk hr
  | succ d =>
      obtain ⟨k', r', rfl, hk', hr'⟩ := hr
      refine ⟨(Byte.openBrace :: k ++ [Byte.closeBrace]) ++ k', r', by simp, ?_, hr'⟩
      exact .blockLiteral (.braces hk) hk'

theorem Code.resumes {d e : Nat} {b s : Bytes} (code : Code d b e) (h : Resumes e s) :
    Resumes d (b ++ s) := by
  induction code with
  | nil d => exact h
  | byte hc hb ih => exact Markup.contentByte hc (ih h)
  | inner hc hb ih =>
      obtain ⟨k, r, same, hk, hr⟩ := ih h
      exact ⟨_, r, by rw [List.cons_append, same]; rfl, .blockByte hc hk, hr⟩
  | literal hl hb ih =>
      obtain ⟨k, r, same, hk, hr⟩ := ih h
      exact ⟨_, r, by rw [List.append_assoc, same, List.append_assoc], .blockLiteral hl hk, hr⟩
  | opens hb ih => exact (ih h).opens
  | closes hb ih => exact ⟨[], _, rfl, .blockNil, ih h⟩

theorem Resumes.element {d : Nat} {u s : Bytes} (hu : Markup .element u) (h : Resumes d s) :
    Resumes d (u ++ s) := by
  cases d with
  | zero => exact Markup.contentElement hu h
  | succ d =>
      obtain ⟨k, r, same, hk, hr⟩ := h
      exact ⟨u ++ k, r, by rw [same, List.append_assoc], .blockElement hu hk, hr⟩

namespace Forest

/-- The forest leads from a place in `d` open blocks to one in `e` of them, and the content of each
element closes the blocks that it opens. -/
inductive Nested : Nat → Forest → Nat → Prop where
  | nil (d : Nat) : Nested d nil d
  | text {body : Bytes} {plain : Byte.less ∉ body} {rest : Forest} {d d' e : Nat}
      (code : Code d body d') (hrest : Nested d' rest e) : Nested d (text body plain rest) e
  | comment {body : Bytes} {unclosed : ¬ utf8 "-->" <:+: body} {rest : Forest} {e : Nat}
      (hrest : Nested 0 rest e) : Nested 0 (comment body unclosed rest) e
  | single {tag : TagText} {alone : tag.closesItself = true} {rest : Forest} {d e : Nat}
      (hrest : Nested d rest e) : Nested d (single tag alone rest) e
  | paired {tag : TagText} {opens : tag.closesItself = false} {inner : Forest} {gap : Bytes}
      {blank : AllBlank gap} {rest : Forest} {d e : Nat} (hinner : Nested 0 inner 0)
      (hrest : Nested d rest e) : Nested d (paired tag opens inner gap blank rest) e

theorem bytes_text (body : Bytes) (plain : Byte.less ∉ body) (rest : Forest) :
    (text body plain rest).bytes = body ++ rest.bytes :=
  Piece.join_cons _ _

theorem bytes_comment (body : Bytes) (unclosed : ¬ utf8 "-->" <:+: body) (rest : Forest) :
    (comment body unclosed rest).bytes = commentText body ++ rest.bytes :=
  Piece.join_cons _ _

theorem bytes_single (tag : TagText) (alone : tag.closesItself = true) (rest : Forest) :
    (single tag alone rest).bytes = tag.text ++ rest.bytes :=
  Piece.join_cons _ _

def pairedText (tag : TagText) (inner : Forest) (gap : Bytes) : Bytes :=
  tag.text ++ (inner.bytes ++ closeTagText tag.name gap)

def pairedPieces (tag : TagText) (inner : Forest) (gap : Bytes) : List Piece :=
  .opening tag :: (inner.pieces ++ [.closing tag.name gap])

theorem join_pairedPieces (tag : TagText) (inner : Forest) (gap : Bytes) :
    Piece.join (pairedPieces tag inner gap) = pairedText tag inner gap := by
  have close : Piece.join [.closing tag.name gap] = closeTagText tag.name gap :=
    List.flatMap_singleton _ _
  rw [pairedPieces, Piece.join_cons, Piece.join_append, close]
  rfl

theorem pieces_paired (tag : TagText) (opens : tag.closesItself = false) (inner : Forest)
    (gap : Bytes) (blank : AllBlank gap) (rest : Forest) :
    (paired tag opens inner gap blank rest).pieces = pairedPieces tag inner gap ++ rest.pieces := by
  simp [pieces, pairedPieces]

theorem bytes_paired (tag : TagText) (opens : tag.closesItself = false) (inner : Forest)
    (gap : Bytes) (blank : AllBlank gap) (rest : Forest) :
    (paired tag opens inner gap blank rest).bytes = pairedText tag inner gap ++ rest.bytes := by
  rw [bytes, pieces_paired, Piece.join_append, join_pairedPieces]
  rfl

theorem markup_single {tag : TagText} (alone : tag.closesItself = true) :
    Markup .element tag.text :=
  .single tag.isName alone tag.attributes_markup tag.attributes_bounded

theorem markup_paired {tag : TagText} (opens : tag.closesItself = false) {inner : Forest}
    {gap : Bytes} (blank : AllBlank gap) (hinner : Markup .content inner.bytes) :
    Markup .element (pairedText tag inner gap) := by
  have whole := ElementText.markup ⟨tag, inner.bytes, gap, hinner, blank⟩
  rwa [ElementText.text, ElementText.tail, if_neg (by simp [opens])] at whole

theorem Nested.resumes {d e : Nat} {doc : Forest} (nested : doc.Nested d e) {s : Bytes}
    (h : Resumes e s) : Resumes d (doc.bytes ++ s) := by
  induction nested generalizing s with
  | nil d => exact h
  | text code hrest ih =>
      rw [bytes_text, List.append_assoc]
      exact code.resumes (ih h)
  | @comment body unclosed rest e hrest ih =>
      rw [bytes_comment, List.append_assoc]
      exact Markup.contentComment unclosed (ih h)
  | @single tag alone rest d e hrest ih =>
      rw [bytes_single, List.append_assoc]
      exact (ih h).element (markup_single alone)
  | @paired tag opens inner gap blank rest d e hinner hrest ihinner ih =>
      have content := ihinner .contentNil
      rw [List.append_nil] at content
      rw [bytes_paired, List.append_assoc]
      exact (ih h).element (markup_paired opens blank content)

/-- A forest that closes the blocks it opens is content. -/
theorem Nested.content {doc : Forest} (nested : doc.Nested 0 0) : Markup .content doc.bytes := by
  have content := nested.resumes .contentNil
  rwa [List.append_nil] at content

end Forest

theorem Content.run_bounds {stop start i : Nat} {s : Bytes} {content : Content}
    (h : scan? stop start i s = some content) (le : start ≤ i) {r : Nat × Nat}
    (mem : r ∈ content.runs) : start ≤ r.1 ∧ r.2 ≤ stop := by
  have single {start stop' : Nat} (within : stop' ≤ stop) (mem : r ∈ run start stop') :
      start ≤ r.1 ∧ r.2 ≤ stop := by
    rw [run] at mem
    split at mem
    · rw [List.mem_singleton.1 mem]
      exact ⟨Nat.le_refl _, within⟩
    · cases mem
  fun_induction Content.scan? stop start i s generalizing content with
  | case1 =>
      cases h
      exact single (Nat.le_refl _) mem
  | case2 =>
      cases h
      exact single (Nat.le_refl _) mem
  | case3 => cases h
  | case4 start i c t before read ih => exact ih h (by omega) mem
  | case5 => cases h
  | case6 start i c t before j read later scanned ih =>
      cases h
      have behind := (unit_of_read read).2.1
      cases List.mem_append.1 mem with
      | inl mem => exact single (by omega) mem
      | inr mem =>
          have bounds := ih scanned (Nat.le_refl j) mem
          exact ⟨by omega, bounds.2⟩

/-- The content goes on at offset `i` up to `stop`, where `d` blocks are open, and `r` is one of the
runs of text that are still found. -/
def Reaches (r : Nat × Nat) (stop : Nat) : Nat → Nat → Bytes → Prop
  | 0, i, s => ∃ start content, start ≤ i ∧ Content.scan? stop start i s = some content ∧
      r ∈ content.runs
  | d + 1, i, s => ∃ j content, Scan.blockEnd i d s = some j ∧
      Content.scan? stop j j (Scan.goOn i j s) = some content ∧ r ∈ content.runs

variable {r : Nat × Nat} {stop d e i : Nat} {u s : Bytes}

theorem goOn_behind {j : Nat} (le : i + u.length ≤ j) :
    Scan.goOn i j (u ++ s) = Scan.goOn (i + u.length) j s := by
  rw [Scan.goOn, Scan.goOn, show j - i = u.length + (j - (i + u.length)) by omega,
    List.drop_length_add_append]

/-- In a block, what the scanner passes is no text of the content. -/
theorem Reaches.passed (h : Reaches r stop (d + 1) i (u ++ s))
    (passed : Scan.blockEnd i d (u ++ s) = Scan.blockEnd (i + u.length) e s) :
    i + u.length ≤ r.1 ∧ Reaches r stop (e + 1) (i + u.length) s := by
  obtain ⟨j, content, ended, scanned, mem⟩ := h
  rw [passed] at ended
  have behind := (Scan.blockEnd_bounds ended).1
  rw [goOn_behind (by omega)] at scanned
  have bounds := Content.run_bounds scanned (Nat.le_refl j) mem
  exact ⟨by omega, j, content, ended, scanned, mem⟩

/-- A unit of content ends the run of text in front of it. -/
theorem Reaches.unit (h : Reaches r stop 0 i (u ++ s)) (ne : u ≠ [])
    (read : Child.read i (u ++ s) = .unit (i + u.length)) :
    r.2 ≤ i ∨ i + u.length ≤ r.1 ∧ Reaches r stop 0 (i + u.length) s := by
  obtain ⟨start, content, le, scanned, mem⟩ := h
  by_cases before : i < stop
  · rw [Content.scan?_unit ne read before] at scanned
    obtain ⟨later, behind, rfl⟩ := Option.map_eq_some_iff.1 scanned
    cases List.mem_append.1 mem with
    | inl mem =>
        rw [Content.run] at mem
        split at mem
        · rw [List.mem_singleton.1 mem]
          exact .inl (Nat.le_refl i)
        · cases mem
    | inr mem =>
        have bounds := Content.run_bounds behind (Nat.le_refl _) mem
        exact .inr ⟨bounds.1, _, later, Nat.le_refl _, behind, mem⟩
  · have bounds := Content.run_bounds scanned le mem
    exact .inl (by omega)

theorem Reaches.element (h : Reaches r stop d i (u ++ s)) (hu : Markup .element u) :
    r.2 ≤ i ∨ i + u.length ≤ r.1 ∧ Reaches r stop d (i + u.length) s := by
  have passes : Scan.PassesElement u := Scan.passes_markup hu
  cases d with
  | zero =>
      have ne : u ≠ [] := by
        intro empty
        have head := passes.head
        rw [empty] at head
        cases head
      exact h.unit ne (read_element hu i s)
  | succ d => exact .inr (h.passed (Scan.blockEnd_element passes i d s))

/-- A byte of text belongs to the run, or the content has ended before. -/
theorem Reaches.byte {c : UInt8} (h : Reaches r stop 0 i (c :: s))
    (hc : Part.content.isPlain c = true) : r.2 ≤ i ∨ Reaches r stop 0 (i + 1) s := by
  obtain ⟨start, content, le, scanned, mem⟩ := h
  by_cases before : i < stop
  · rw [Content.scan?, if_neg (by omega), read_byte hc] at scanned
    exact .inr ⟨start, content, by omega, scanned, mem⟩
  · have bounds := Content.run_bounds scanned le mem
    exact .inl (by omega)

theorem Reaches.opens (h : Reaches r stop d i (Byte.openBrace :: s)) :
    r.2 ≤ i ∨ Reaches r stop (d + 1) (i + 1) s := by
  cases d with
  | succ d =>
      have passed : Scan.blockEnd i d ([Byte.openBrace] ++ s) =
          Scan.blockEnd (i + [Byte.openBrace].length) (d + 1) s := by
        rw [List.singleton_append, Scan.blockEnd, if_pos rfl]
        rfl
      exact .inr (Reaches.passed h passed).2
  | zero =>
      obtain ⟨start, content, le, scanned, mem⟩ := h
      by_cases before : i < stop
      · rw [Content.scan?, if_neg (by omega), Child.read, if_pos rfl] at scanned
        cases ended : Scan.blockEnd (i + 1) 0 s with
        | none =>
            rw [ended] at scanned
            cases scanned
        | some j =>
            simp only [ended, Child.ofEnd] at scanned
            split at scanned
            · cases scanned
            next later behind =>
              cases scanned
              cases List.mem_append.1 mem with
              | inl mem =>
                  rw [Content.run] at mem
                  split at mem
                  · rw [List.mem_singleton.1 mem]
                    exact .inl (Nat.le_refl i)
                  · cases mem
              | inr mem => exact .inr ⟨j, later, ended, behind, mem⟩
      · have bounds := Content.run_bounds scanned le mem
        exact .inl (by omega)

theorem Reaches.closes (h : Reaches r stop (d + 1) i (Byte.closeBrace :: s)) :
    Reaches r stop d (i + 1) s := by
  cases d with
  | zero =>
      obtain ⟨j, content, ended, scanned, mem⟩ := h
      rw [Scan.blockEnd, if_neg (by decide), if_pos rfl, if_pos rfl] at ended
      cases ended
      rw [Scan.goOn_cons (Nat.lt_succ_self i), Scan.goOn, Nat.sub_self, List.drop_zero] at scanned
      exact ⟨_, content, Nat.le_refl _, scanned, mem⟩
  | succ d =>
      have passed : Scan.blockEnd i (d + 1) ([Byte.closeBrace] ++ s) =
          Scan.blockEnd (i + [Byte.closeBrace].length) d s := by
        rw [List.singleton_append, Scan.blockEnd, if_neg (by decide), if_pos rfl,
          if_neg (Nat.succ_ne_zero d)]
        rfl
      exact (Reaches.passed h passed).2

theorem Reaches.code {b : Bytes} (code : Code d b e) (h : Reaches r stop d i (b ++ s)) :
    r.2 ≤ i + b.length ∨ Reaches r stop e (i + b.length) s := by
  -- Each step leaves the run behind, or goes on with what is left of the text.
  have onward {e i n j m : Nat} (le : j + m = i + n)
      (later : r.2 ≤ j + m ∨ Reaches r stop e (j + m) s) :
      r.2 ≤ i + n ∨ Reaches r stop e (i + n) s := by
    rwa [le] at later
  induction code generalizing i with
  | nil d => exact .inr h
  | @byte c b e hc hb ih =>
      cases h.byte hc with
      | inl behind => exact .inl (Nat.le_add_right_of_le behind)
      | inr h => exact onward (by rw [List.length_cons]; omega) (ih h)
  | @inner c b d e hc hb ih =>
      have here : Reaches r stop (d + 1) i ([c] ++ (b ++ s)) := h
      have passed := Scan.passes_markup (.blockByte hc .blockNil) i d (b ++ s)
      have later := (here.passed passed).2
      exact onward (by simp only [List.length_cons, List.length_nil]; omega) (ih later)
  | @literal l b d e hl hb ih =>
      have passes : Scan.PassesLiteral l := Scan.passes_markup hl
      rw [List.append_assoc] at h
      have later := (Reaches.passed h (passes.block i d (b ++ s))).2
      exact onward (by rw [List.length_append]; omega) (ih later)
  | @opens b d e hb ih =>
      cases h.opens with
      | inl behind => exact .inl (Nat.le_add_right_of_le behind)
      | inr h => exact onward (by rw [List.length_cons]; omega) (ih h)
  | @closes b d e hb ih => exact onward (by rw [List.length_cons]; omega) (ih h.closes)

/-- A run of text in content lies in front of or behind each tag and comment that is written
there. -/
theorem Forest.Nested.run_apart {doc : Forest} (nested : doc.Nested d e)
    (h : Reaches r stop d i (doc.bytes ++ s)) {k : Nat} {x : Piece}
    (mem : (k, x) ∈ Piece.placed i doc.pieces) (markup : Byte.less ∈ x.bytes) :
    r.2 ≤ k ∨ k + x.bytes.length ≤ r.1 := by
  -- As long as the run is not behind the place that was reached, the walk goes on from there.
  induction nested generalizing i with
  | nil d => cases mem
  | @text body plain rest d d' e code hrest ih =>
      rw [bytes_text, List.append_assoc] at h
      cases List.mem_cons.1 mem with
      | inl same =>
          cases same
          exact absurd markup plain
      | inr mem =>
          cases h.code code with
          | inl behind => exact .inl (Nat.le_trans behind (Piece.placed_bounds mem).1)
          | inr h => exact ih h mem
  | @comment body unclosed rest e hrest ih =>
      rw [bytes_comment, List.append_assoc] at h
      cases h.unit (List.cons_ne_nil _ _) (read_comment unclosed i _) with
      | inl behind => exact .inl (Nat.le_trans behind (Piece.placed_bounds mem).1)
      | inr later =>
          cases List.mem_cons.1 mem with
          | inl same =>
              cases same
              exact .inr later.1
          | inr mem => exact ih later.2 mem
  | @single tag alone rest d e hrest ih =>
      rw [bytes_single, List.append_assoc] at h
      cases h.element (markup_single alone) with
      | inl behind => exact .inl (Nat.le_trans behind (Piece.placed_bounds mem).1)
      | inr later =>
          cases List.mem_cons.1 mem with
          | inl same =>
              cases same
              exact .inr later.1
          | inr mem => exact ih later.2 mem
  | @paired tag opens inner gap blank rest d e hinner hrest ihinner ih =>
      rw [bytes_paired, List.append_assoc] at h
      cases h.element (markup_paired opens blank hinner.content) with
      | inl behind => exact .inl (Nat.le_trans behind (Piece.placed_bounds mem).1)
      | inr later =>
          rw [Forest.pieces_paired, Piece.placed_append, Forest.join_pairedPieces] at mem
          cases List.mem_append.1 mem with
          | inl mem =>
              have bounds := (Piece.placed_bounds mem).2
              rw [Forest.join_pairedPieces] at bounds
              exact .inr (Nat.le_trans bounds later.1)
          | inr mem => exact ih later.2 mem

end MarkupEdit
