import MarkupEdit.Proofs.Outlook

/-!
Comments in brace blocks. No reader knows the marks of a comment: what stands between them is read
as the code of the block, where a quote opens a string and a `<` may start an element. A block with
a comment is skipped, whatever stands around it, exactly when the comment is settled: everything it
opens is closed inside of it, and no `<` in it waits for text behind the block.
-/

namespace MarkupEdit

/-- The comment with the given text, as it stands in a block. -/
def blockComment (text : Bytes) : Bytes := utf8 "/*" ++ (text ++ utf8 "*/")

/-- The brace block that holds nothing but a comment. -/
def commentBlock (text : Bytes) : Bytes :=
  Byte.openBrace :: (blockComment text ++ [Byte.closeBrace])

namespace Scan

/-- Bytes that stand in a block in front of its closing brace are settled when `depth` blocks that
are open in front of them, and everything they open themselves, are closed by them. What stands
behind the brace does not change how they are read. -/
inductive Settled : Nat → Bytes → Prop where
  | nil : Settled 0 []
  | byte {depth : Nat} {c : UInt8} {k : Bytes} (plain : Part.block.isPlain c = true)
      (rest : Settled depth k) : Settled depth (c :: k)
  | opens {depth : Nat} {k : Bytes} (rest : Settled (depth + 1) k) :
      Settled depth (Byte.openBrace :: k)
  | closes {depth : Nat} {k : Bytes} (rest : Settled depth k) :
      Settled (depth + 1) (Byte.closeBrace :: k)
  | quoted {depth : Nat} {quote : UInt8} {u k : Bytes} (isQuote : Byte.isQuote quote = true)
      (text : QuotedText quote u) (rest : Settled depth k) :
      Settled depth (quote :: (u ++ quote :: k))
  | template {depth : Nat} {u k : Bytes}
      (whole : ∀ i s, templateEnd i (u ++ (k ++ Byte.closeBrace :: s)) = some (i + u.length))
      (rest : Settled depth k) : Settled depth (Byte.backtick :: (u ++ k))
  | element {depth : Nat} {e k : Bytes}
      (whole : ∀ i s, elementEnd i (e ++ (k ++ Byte.closeBrace :: s)) = some (i + 1 + e.length))
      (rest : Settled depth k) : Settled depth (Byte.less :: (e ++ k))
  /-- No element starts at the `<`, whatever stands behind the block. -/
  | comparison {depth : Nat} {k : Bytes}
      (none' : ∀ i s, elementEnd i (k ++ Byte.closeBrace :: s) = none)
      (rest : Settled depth k) : Settled depth (Byte.less :: k)

theorem Settled.blockEnd {depth : Nat} {k : Bytes} (settled : Settled depth k) (i : Nat)
    (s : Bytes) :
    blockEnd i depth (k ++ Byte.closeBrace :: s) = some (i + (k.length + 1)) := by
  induction settled generalizing i with
  | nil => exact blockEnd_closed (b := []) (fun _ _ _ => rfl) i s
  | byte plain _ ih =>
      rw [List.cons_append, blockEnd_byte plain, ih]
      simp only [List.length_cons, Nat.add_assoc, Nat.add_comm 1]
  | opens _ ih =>
      rw [List.cons_append, Scan.blockEnd, if_pos rfl, ih]
      simp only [List.length_cons, Nat.add_assoc, Nat.add_comm 1]
  | closes _ ih =>
      rw [List.cons_append, Scan.blockEnd, if_neg (by decide), if_pos rfl,
        if_neg (Nat.succ_ne_zero _), Nat.add_sub_cancel, ih]
      simp only [List.length_cons, Nat.add_assoc, Nat.add_comm 1]
  | @quoted depth quote u k isQuote text _ ih =>
      have passes := (passes_quoted isQuote text).block i depth (k ++ Byte.closeBrace :: s)
      rw [List.append_assoc, List.cons_append, List.singleton_append] at passes
      rw [List.cons_append, List.append_assoc, List.cons_append, passes, ih]
      simp only [List.cons_append, List.length_cons, List.length_append, List.length_nil]
      congr 1
      omega
  | template whole _ ih =>
      rw [List.cons_append, List.append_assoc, Scan.blockEnd, if_neg (by decide),
        if_neg (by decide), if_neg (by decide), if_pos rfl, whole]
      dsimp only
      rw [goOn_append, ih]
      simp only [List.length_cons, List.length_append]
      congr 1
      omega
  | element whole _ ih =>
      rw [List.cons_append, List.append_assoc, Scan.blockEnd, if_neg (by decide),
        if_neg (by decide), if_neg (by decide), if_neg (by decide), if_pos rfl, whole]
      dsimp only
      rw [goOn_append, ih]
      simp only [List.length_cons, List.length_append]
      congr 1
      omega
  | comparison none' _ ih =>
      rw [List.cons_append, Scan.blockEnd, if_neg (by decide), if_neg (by decide),
        if_neg (by decide), if_neg (by decide), if_pos rfl, none']
      dsimp only
      rw [ih]
      simp only [List.length_cons, Nat.add_assoc, Nat.add_comm 1]

/-- A unit that starts in a block which closes behind `k`, whatever follows, ends inside of `k`, or
it never does. -/
theorem Outlook.inside {unit : Nat → Bytes → Option Nat} {lead : Nat} {k : Bytes}
    (first : Outlook .offset unit lead (k ++ [Byte.closeBrace])) (i depth : Nat)
    (bounds : ∀ {i s j}, unit i s = some j → i + lead ≤ j ∧ j ≤ i + lead + s.length)
    (later : ∀ s j, unit i (k ++ Byte.closeBrace :: s) = some j →
      Scan.blockEnd j depth (goOn (i + lead) j (k ++ Byte.closeBrace :: s)) =
        some (i + lead + (k.length + 1))) :
    (∃ u v, k = u ++ v ∧
      (∀ i s, unit i (k ++ Byte.closeBrace :: s) = some (i + lead + u.length)) ∧
      ∀ s, Scan.blockEnd (i + lead + u.length) depth (v ++ Byte.closeBrace :: s) =
        some (i + lead + u.length + (v.length + 1))) ∨
      ∀ i s, unit i (k ++ Byte.closeBrace :: s) = none := by
  have brace (s : Bytes) : k ++ Byte.closeBrace :: s = k ++ [Byte.closeBrace] ++ s :=
    List.append_cons k Byte.closeBrace s
  cases first with
  | ended a n told h =>
      have unit' (i : Nat) (s : Bytes) : unit i (k ++ Byte.closeBrace :: s) = some (i + n) := by
        rw [brace, h, told]
      have ended (s : Bytes) := later s _ (unit' i s)
      have bound := bounds (unit' i [])
      rw [List.length_append, List.length_singleton] at bound
      obtain ⟨m, rfl⟩ : ∃ m, n = lead + m := Nat.exists_eq_add_of_le (by omega)
      -- The block goes on behind the unit, so the brace is not a part of it.
      have within : m ≤ k.length := by
        have further := (blockEnd_bounds (ended [])).1
        omega
      have width : (k.take m).length = m := List.length_take_of_le within
      refine .inl ⟨k.take m, k.drop m, (List.take_append_drop m k).symm, fun i s => ?_,
        fun s => ?_⟩
      · rw [unit', width, Nat.add_assoc]
      · have rest := ended s
        rw [← Nat.add_assoc, goOn_within within] at rest
        rw [width, rest, List.length_drop, Option.some.injEq]
        omega
  | endable a s ne told h =>
      have reached := h i []
      rw [← List.append_assoc, List.append_assoc, ← brace] at reached
      have ended := later (s ++ []) _ reached
      rw [told, Nat.add_assoc lead, ← Nat.add_assoc i, brace (s ++ []), goOn_behind,
        Scan.blockEnd] at ended
      cases ended
  | never h => exact .inr fun i s => by rw [brace, h]

/-- A string that starts in a block ends in front of the brace, or takes the brace along. -/
theorem quoted_before_brace {quote : UInt8} (isQuote : Byte.isQuote quote = true) (k : Bytes) :
    (∃ u v, QuotedText quote u ∧ k = u ++ quote :: v) ∨
      ∃ s, QuotedText quote (k ++ Byte.closeBrace :: s) := by
  have noBrace : quote ≠ Byte.closeBrace := by
    rintro rfl
    exact absurd isQuote (by decide)
  cases quoted_cases quote (k ++ [Byte.closeBrace]) with
  | inl closed =>
      obtain ⟨u, v, text, split⟩ := closed
      cases List.eq_nil_or_concat v with
      | inl empty =>
          rw [empty] at split
          have last := List.append_inj_right' split rfl
          exact absurd (List.singleton_inj.1 last).symm noBrace
      | inr more =>
          obtain ⟨v, d, rfl⟩ := more
          rw [List.concat_eq_append, ← List.cons_append, ← List.append_assoc] at split
          exact .inl ⟨u, v, text, List.append_inj_left' split rfl⟩
  | inr open' =>
      obtain ⟨s, text⟩ := open'
      rw [← List.append_cons] at text
      exact .inr ⟨s, text⟩

/-- A block that is open at offset `i`, with `depth` more around it, ends at the brace behind `k`,
whatever follows. -/
def ClosedBehind (depth i : Nat) (k : Bytes) : Prop :=
  ∀ s, blockEnd i depth (k ++ Byte.closeBrace :: s) = some (i + (k.length + 1))

namespace ClosedBehind

variable {depth i : Nat} {c : UInt8} {k : Bytes}

theorem cons (whole : ClosedBehind depth i (c :: k)) (s : Bytes) :
    blockEnd i depth (c :: (k ++ Byte.closeBrace :: s)) = some (i + 1 + (k.length + 1)) := by
  have ended := whole s
  rwa [List.cons_append, List.length_cons, Nat.add_comm (k.length + 1), ← Nat.add_assoc] at ended

/-- Where the reader takes the first byte for itself, the block closes behind the others. -/
theorem step (whole : ClosedBehind depth i (c :: k)) {later : Nat}
    (read : ∀ s, blockEnd i depth (c :: (k ++ Byte.closeBrace :: s)) =
      blockEnd (i + 1) later (k ++ Byte.closeBrace :: s)) : ClosedBehind later (i + 1) k :=
  fun s => by rw [← read, whole.cons]

/-- A string in a block that closes ends in front of the closing brace. -/
theorem quoted (whole : ClosedBehind depth i (c :: k)) (isQuote : Byte.isQuote c = true) :
    ∃ u v, QuotedText c u ∧ k = u ++ c :: v ∧ ClosedBehind depth (i + 1 + (u.length + 1)) v := by
  cases quoted_before_brace isQuote k with
  | inl closed =>
      obtain ⟨u, v, text, rfl⟩ := closed
      refine ⟨u, v, text, rfl, fun s => ?_⟩
      have rest := whole.cons s
      have parts : c :: (u ++ c :: v ++ Byte.closeBrace :: s) =
          c :: u ++ [c] ++ (v ++ Byte.closeBrace :: s) := by simp
      have width : (c :: u ++ [c]).length = 1 + (u.length + 1) := by
        simp
        omega
      rw [parts, (passes_quoted isQuote text).block, width, ← Nat.add_assoc] at rest
      rw [rest, List.length_append, List.length_cons, Option.some.injEq]
      omega
  | inr open' =>
      -- A string over the brace can end so that nothing stands behind it, and no block ends there.
      obtain ⟨s, text⟩ := open'
      have passes := (passes_quoted isQuote text).block i depth []
      have ended := whole.cons (s ++ [c])
      have parts : c :: (k ++ Byte.closeBrace :: (s ++ [c])) =
          c :: (k ++ Byte.closeBrace :: s) ++ [c] ++ [] := by simp
      rw [parts, passes, blockEnd] at ended
      cases ended

/-- A template in a block that closes ends in front of the closing brace. -/
theorem template (whole : ClosedBehind depth i (Byte.backtick :: k)) :
    ∃ u v, k = u ++ v ∧
      (∀ i s, templateEnd i (u ++ (v ++ Byte.closeBrace :: s)) = some (i + u.length)) ∧
      ClosedBehind depth (i + 1 + u.length) v := by
  have read (s : Bytes) : blockEnd i depth (Byte.backtick :: s) =
      (templateEnd (i + 1) s).bind fun j => blockEnd j depth (goOn (i + 1) j s) := by
    rw [blockEnd, if_neg (by decide), if_neg (by decide), if_neg (by decide), if_pos rfl]
    cases templateEnd (i + 1) s <;> rfl
  have inside := (foreseen (k ++ [Byte.closeBrace])).template.inside (i + 1) depth
    (fun h => ⟨Nat.le_of_lt (templateEnd_bounds h).1, (templateEnd_bounds h).2⟩)
    fun s j ended => by rw [← whole.cons s, read, ended, Option.bind_some, Nat.add_zero]
  cases inside with
  | inl found =>
      obtain ⟨u, v, rfl, unit, rest⟩ := found
      refine ⟨u, v, rfl, fun i s => ?_, rest⟩
      rw [← List.append_assoc, unit, Nat.add_zero]
  | inr none' =>
      have ended := whole.cons []
      rw [read, none', Option.bind_none] at ended
      cases ended

/-- Behind a `<` in a block that closes stands an element which ends in front of the closing brace,
or no element whatever follows the block. -/
theorem less (whole : ClosedBehind depth i (Byte.less :: k)) :
    (∃ e v, k = e ++ v ∧
      (∀ i s, elementEnd i (e ++ (v ++ Byte.closeBrace :: s)) = some (i + 1 + e.length)) ∧
      ClosedBehind depth (i + 1 + e.length) v) ∨
    (∀ i s, elementEnd i (k ++ Byte.closeBrace :: s) = none) ∧ ClosedBehind depth (i + 1) k := by
  have read (s : Bytes) : blockEnd i depth (Byte.less :: s) =
      (elementEnd i s).elim (blockEnd (i + 1) depth s)
        fun j => blockEnd j depth (goOn (i + 1) j s) := by
    rw [blockEnd, if_neg (by decide), if_neg (by decide), if_neg (by decide),
      if_neg (by decide), if_pos rfl]
    cases elementEnd i s <;> rfl
  have inside := (foreseen (k ++ [Byte.closeBrace])).element.inside i depth
    (fun h => ⟨Nat.le_of_lt (elementEnd_bounds h).1, (elementEnd_bounds h).2⟩)
    fun s j ended => by rw [← whole.cons s, read, ended, Option.elim_some]
  cases inside with
  | inl found =>
      obtain ⟨e, v, rfl, unit, rest⟩ := found
      refine .inl ⟨e, v, rfl, fun i s => ?_, rest⟩
      rw [← unit, List.append_assoc]
  | inr none' => exact .inr ⟨none', whole.step fun s => by rw [read, none', Option.elim_none]⟩

end ClosedBehind

theorem settled_of_blockEnd {depth i : Nat} {k : Bytes} (whole : ClosedBehind depth i k) :
    Settled depth k := by
  induction size : k.length using Nat.strongRecOn generalizing k depth i with
  | _ size' ih =>
      cases k with
      | nil =>
          cases depth with
          | zero => exact .nil
          | succ depth =>
              have ended := whole []
              rw [List.nil_append, blockEnd, if_neg (by decide), if_pos rfl,
                if_neg (Nat.succ_ne_zero depth), blockEnd] at ended
              cases ended
      | cons c k =>
          have settled {depth i : Nat} {u v : Bytes} (split : k = u ++ v)
              (rest : ClosedBehind depth i v) : Settled depth v := by
            refine ih v.length ?_ rest rfl
            rw [← size, split, List.length_cons, List.length_append]
            omega
          by_cases opens : c = Byte.openBrace
          · subst opens
            refine .opens (settled (List.nil_append k).symm (whole.step fun s => ?_))
            rw [blockEnd, if_pos rfl]
          by_cases closes : c = Byte.closeBrace
          · subst closes
            cases depth with
            | zero =>
                have early := whole.cons []
                rw [blockEnd, if_neg opens, if_pos rfl, if_pos rfl, Option.some.injEq] at early
                omega
            | succ depth =>
                refine .closes (settled (List.nil_append k).symm (whole.step fun s => ?_))
                rw [blockEnd, if_neg opens, if_pos rfl, if_neg (Nat.succ_ne_zero depth),
                  Nat.add_sub_cancel]
          by_cases isQuote : Byte.isQuote c = true
          · obtain ⟨u, v, text, rfl, rest⟩ := whole.quoted isQuote
            exact .quoted isQuote text (settled (List.append_cons u c v) rest)
          by_cases backtick : c = Byte.backtick
          · subst backtick
            obtain ⟨u, v, rfl, unit, rest⟩ := whole.template
            exact .template unit (settled rfl rest)
          by_cases less : c = Byte.less
          · subst less
            cases whole.less with
            | inl found =>
                obtain ⟨e, v, rfl, unit, rest⟩ := found
                exact .element unit (settled rfl rest)
            | inr none' => exact .comparison none'.1 (settled (List.nil_append k).symm none'.2)
          · have plain : Part.block.isPlain c = true := by
              simp [Part.isPlain, opens, closes, isQuote, backtick, less]
            exact .byte plain (settled (List.nil_append k).symm
              (whole.step fun s => blockEnd_byte plain i depth _))

/-- Settled are exactly the bytes that a block closes behind, whatever follows. -/
theorem settled_iff {depth i : Nat} {k : Bytes} : ClosedBehind depth i k ↔ Settled depth k :=
  ⟨settled_of_blockEnd, fun settled => settled.blockEnd i⟩

/-- Well-formed code in front of settled bytes is settled. -/
theorem Settled.code {depth : Nat} {b k : Bytes} (code : Markup .block b)
    (rest : Settled depth k) : Settled depth (b ++ k) := by
  refine (settled_iff (i := 0)).1 fun s => ?_
  rw [List.append_assoc, passes_markup code, rest.blockEnd, List.length_append]
  simp only [Nat.add_assoc]

theorem Settled.ofMarkup {k : Bytes} (code : Markup .block k) : Settled 0 k := by
  simpa using Settled.code code .nil

theorem Settled.bytes {depth : Nat} {u k : Bytes}
    (plain : u.all Part.block.isPlain = true) (rest : Settled depth k) :
    Settled depth (u ++ k) := by
  induction u with
  | nil => exact rest
  | cons c u ih =>
      rw [List.all_cons, Bool.and_eq_true] at plain
      exact .byte plain.1 (ih plain.2)

/-- Content with comment blocks, next to markup that has none and in the content of elements. -/
inductive Commented : Bytes → Prop where
  | nil : Commented []
  | markup {m b : Bytes} (wellFormed : Markup .content m) (rest : Commented b) :
      Commented (m ++ b)
  | commentBlock {text b : Bytes} (settled : Settled 0 (blockComment text))
      (rest : Commented b) : Commented (commentBlock text ++ b)
  | paired {name a c gap b : Bytes} (isName : IsTagName name)
      (notVoid : isVoidElement name = false) (attributes : Markup .attributes a)
      (bounded : Bounded a false) (content : Commented c) (blank : AllBlank gap)
      (rest : Commented b) :
      Commented (openTagText name a false ++ c ++ closeTagText name gap ++ b)
  | fragment {c gap b : Bytes} (content : Commented c) (blank : AllBlank gap)
      (rest : Commented b) :
      Commented (openTagText [] [] false ++ c ++ closeTagText [] gap ++ b)

theorem contentEnd_commentBlock {text : Bytes} (settled : Settled 0 (blockComment text)) (i : Nat)
    (sought : Bytes) (depth : Nat) (rest : Bytes) :
    contentEnd i sought depth (commentBlock text ++ rest) =
      contentEnd (i + (commentBlock text).length) sought depth rest := by
  rw [commentBlock, List.cons_append, List.append_assoc, List.singleton_append, contentEnd,
    if_pos rfl, settled.blockEnd]
  simp only [goOn_close]
  congr 1
  simp only [List.length_cons, List.length_append, List.length_nil]
  omega

theorem passes_append {c d : Bytes} (first : Passes .content c) (rest : Passes .content d) :
    Passes .content (c ++ d) := by
  intro i sought depth s
  rw [List.append_assoc, first, rest, List.length_append, Nat.add_assoc]

theorem passes_commented {c : Bytes} (commented : Commented c) : Passes .content c := by
  induction commented with
  | nil => exact passes_markup .contentNil
  | markup wellFormed _ ih => exact passes_append (passes_markup wellFormed) ih
  | commentBlock settled _ ih => exact passes_append (contentEnd_commentBlock settled) ih
  | paired isName notVoid attributes bounded _ blank _ inner ih =>
      have element := passes_paired isName notVoid (passes_markup attributes) bounded inner blank
      exact passes_append element.content ih
  | fragment _ blank _ inner ih => exact passes_append (passes_fragment inner blank).content ih

end Scan

open Scan

theorem blockEnd_commentBlock (text p s : Bytes) :
    Units.blockEnd (p ++ commentBlock text ++ s) p.length = some (p ++ commentBlock text).length ↔
      Scan.blockEnd (p.length + 1) 0 (blockComment text ++ Byte.closeBrace :: s) =
        some (p.length + 1 + ((blockComment text).length + 1)) := by
  have width : (p ++ commentBlock text).length =
      p.length + 1 + ((blockComment text).length + 1) := by
    simp only [commentBlock, List.length_append, List.length_cons, List.length_nil]
    omega
  rw [width, List.append_assoc, Units.blockEnd, List.drop_left, commentBlock, List.cons_append,
    List.append_assoc, List.singleton_append]
  rfl

theorem contentEnd_in_element {name a c gap : Bytes} (names : ∀ b ∈ name, isNameByte b = true)
    (commented : Commented c) (blank : AllBlank gap) (p s : Bytes) :
    Units.contentEnd (p ++ openTagText name a false ++ c ++ closeTagText name gap ++ s)
        (p ++ openTagText name a false).length name =
      some (p ++ openTagText name a false ++ c ++ closeTagText name gap).length := by
  rw [List.append_assoc, List.append_assoc (p ++ openTagText name a false), Units.contentEnd,
    List.drop_left, passes_commented commented, contentEnd_closeTagText names blank,
    if_pos ⟨rfl, rfl⟩]
  simp only [List.length_append]

/-- A comment block is skipped wherever it stands exactly when its comment is settled, and the
closing tag of an element, or of a fragment, is found across the settled comment blocks in its
content. -/
theorem settled_comments_skipped :
    (∀ text, (∀ p s, Units.blockEnd (p ++ commentBlock text ++ s) p.length =
        some (p ++ commentBlock text).length) ↔ Settled 0 (blockComment text)) ∧
    (∀ p s name a c gap, IsTagName name → Markup .attributes a → Bounded a false →
      Commented c → AllBlank gap →
      (Units.openTag? (p ++ openTagText name a false ++ c ++ closeTagText name gap ++ s)
          p.length).bind (fun tag =>
          Units.contentEnd (p ++ openTagText name a false ++ c ++ closeTagText name gap ++ s)
            tag.stop tag.name) =
        some (p ++ openTagText name a false ++ c ++ closeTagText name gap).length) ∧
    ∀ p s c gap, Commented c → AllBlank gap →
      Units.contentEnd (p ++ openTagText [] [] false ++ c ++ closeTagText [] gap ++ s)
          (p ++ openTagText [] [] false).length [] =
        some (p ++ openTagText [] [] false ++ c ++ closeTagText [] gap).length := by
  refine ⟨fun text => ⟨fun skipped => ?_, fun settled p s => ?_⟩, ?_, ?_⟩
  · exact settled_iff.1 fun s => (blockEnd_commentBlock text [] s).1 (skipped [] s)
  · exact (blockEnd_commentBlock text p s).2 (settled_iff.2 settled s)
  · intro p s name a c gap isName attributes bounded commented blank
    have opened := openTag?_in_context isName attributes bounded p
      (c ++ (closeTagText name gap ++ s))
    simp only [← List.append_assoc] at opened
    rw [opened, Option.bind_some, stop_openTagText, ← List.length_append]
    exact contentEnd_in_element isName.all commented blank p s
  · intro p s c gap commented blank
    exact contentEnd_in_element (by simp) commented blank p s

/-- The text of the comment `/* "}" {it}<b>it's</b> < */`. -/
def codeLikeText : Bytes := utf8 " \"\x7d\" \x7bit\x7d<b>it's</b> < "

theorem settled_codeLikeText : Settled 0 (blockComment codeLikeText) := by
  have its : Markup .content (utf8 "it's") :=
    .contentByte (by decide) (.contentByte (by decide) (.contentByte (by decide)
      (.contentByte (by decide) .contentNil)))
  have bold : Markup .element (openTagText (utf8 "b") [] false ++ utf8 "it's" ++
      closeTagText (utf8 "b") []) :=
    .paired (by decide) (by decide) .attributesNil (.nil false) its .nil
  have less : Markup .block (utf8 "< */") :=
    .blockLess (by decide) (by decide) (.blockByte (by decide) (.blockByte (by decide)
      (.blockByte (by decide) .blockNil)))
  have parts : blockComment codeLikeText =
      utf8 "/* " ++ (Byte.doubleQuote :: ([Byte.closeBrace] ++ Byte.doubleQuote :: ([Byte.space] ++
        Byte.openBrace :: (utf8 "it" ++ Byte.closeBrace ::
          (openTagText (utf8 "b") [] false ++ utf8 "it's" ++ closeTagText (utf8 "b") [] ++
            (utf8 " " ++ utf8 "< */")))))) := by decide
  have text : QuotedText Byte.doubleQuote [Byte.closeBrace] := .ofBytes (by decide)
  rw [parts]
  refine .bytes (by decide) (.quoted (by decide) text (.bytes (by decide) (.opens ?_)))
  refine .bytes (by decide) (.closes ?_)
  refine .code ?_ (.bytes (by decide) (.ofMarkup less))
  rw [← List.append_nil (openTagText (utf8 "b") [] false ++ _ ++ _)]
  exact .blockElement bold .blockNil

theorem settled_comments_skipped_code_like :
    Units.blockEnd (utf8 "'<" ++ commentBlock codeLikeText ++ utf8 "'") 2 = some 31 ∧
    (Units.openTag? (utf8 "<" ++ openTagText (utf8 "p") [] false ++
        (commentBlock codeLikeText ++ []) ++ closeTagText (utf8 "p") [] ++ utf8 "'") 1).bind
      (fun tag => Units.contentEnd (utf8 "<" ++ openTagText (utf8 "p") [] false ++
        (commentBlock codeLikeText ++ []) ++ closeTagText (utf8 "p") [] ++ utf8 "'")
        tag.stop tag.name) = some 37 ∧
    Units.contentEnd (utf8 "'" ++ openTagText [] [] false ++ (commentBlock codeLikeText ++ []) ++
      closeTagText [] [] ++ utf8 "'") 3 [] = some 35 := by
  have name : IsTagName (utf8 "p") := by decide
  have commented : Commented (commentBlock codeLikeText ++ []) :=
    .commentBlock settled_codeLikeText .nil
  obtain ⟨block, element, fragment⟩ := settled_comments_skipped
  exact ⟨(block codeLikeText).2 settled_codeLikeText (utf8 "'<") (utf8 "'"),
    element (utf8 "<") (utf8 "'") (utf8 "p") [] _ [] name .attributesNil (.nil false) commented
      .nil,
    fragment (utf8 "'") (utf8 "'") _ [] commented .nil⟩

/-- The block of `/* it's */` never ends, that of `/* } */` ends early and that of `/* { */`
late. -/
theorem apostrophe_in_comment_block :
    ¬ utf8 "*/" <:+: utf8 " it's " ∧ (commentBlock (utf8 " it's ")).length = 12 ∧
    Units.blockEnd (commentBlock (utf8 " it's ")) 0 = none ∧
    Units.contentEnd (utf8 "<p>" ++ commentBlock (utf8 " it's ") ++ utf8 "</p>") 3 (utf8 "p") =
      none ∧
    Units.blockEnd (commentBlock (utf8 " \x7d ")) 0 = some 5 ∧
    Units.blockEnd (commentBlock (utf8 " \x7b ") ++ utf8 "\x7d") 0 = some 10 := by
  decide +kernel

end MarkupEdit
