import MarkupEdit.Edit.Classes
import MarkupEdit.Edit.Style
import MarkupEdit.Edit.Text
import MarkupEdit.Proofs.Boundaries

/-!
What is cut from texts and joined again is a text: words, trimmed texts, the pieces of a style,
literals and their contents, and all that an edit writes. The functions go through bytes, so most
inductions carry along the bytes of the character or word that was begun.
-/

namespace MarkupEdit

open Bytes

theorem spaceForm_of_spaceWidth {text : Bytes} {n : Nat} (h : spaceWidth text = n + 1) :
    ∃ form ∈ spaceForms, form.length = n + 1 ∧ form <+: text := by
  rw [spaceWidth] at h
  split at h
  · cases h
  next form found =>
    have begins : form.isPrefixOf text = true :=
      @List.find?_some Bytes (fun form => List.isPrefixOf form text) _ _ found
    exact ⟨form, List.mem_of_find?_eq_some found, h, List.isPrefixOf_iff_prefix.1 begins⟩

theorem space_split {c : UInt8} {t : Bytes} {n : Nat} (h : spaceWidth (c :: t) = n + 1) :
    ∃ form, IsText form ∧ form.length = n + 1 ∧ c :: t = form ++ t.drop n := by
  obtain ⟨form, mem, width, r, same⟩ := spaceForm_of_spaceWidth h
  have isText : IsText form := by
    obtain ⟨c, -, rfl⟩ := List.mem_map.1 mem
    exact isText_utf8 _
  refine ⟨form, isText, width, ?_⟩
  rw [← same]
  congr 1
  have rest := congrArg (List.drop (n + 1)) same
  rw [← width, List.drop_left, width, List.drop_succ_cons] at rest
  exact rest

theorem trimStart_split (text : Bytes) : ∃ gap, IsText gap ∧ text = gap ++ text.trimStart := by
  fun_induction trimStart text with
  | case1 => exact ⟨[], .nil, rfl⟩
  | case2 => exact ⟨[], .nil, rfl⟩
  | case3 c t n width ih =>
      obtain ⟨form, isText, -, split⟩ := space_split width
      obtain ⟨gap, hg, rest⟩ := ih
      refine ⟨form ++ gap, isText.append hg, ?_⟩
      rw [List.append_assoc, ← rest, split]

/-- Behind the last byte that is no white space there is a text. The white space met since that
byte is `g`, and what stands before it is `u`. -/
theorem isText_behind_inkEnd {i last : Nat} {s u g : Bytes} (hl : last = u.length)
    (hi : i = u.length + g.length) (hg : IsText g) :
    IsText ((u ++ (g ++ s)).drop (inkEnd i last s)) := by
  fun_induction inkEnd i last s generalizing u g with
  | case1 =>
      rw [hl, List.drop_left, List.append_nil]
      exact hg
  | case2 i last c t width ih =>
      have shifted := ih (u := u ++ (g ++ [c])) (g := []) (by simp; omega) (by simp; omega)
        .nil
      simpa using shifted
  | case3 i last c t n width ih =>
      obtain ⟨form, isText, length, split⟩ := space_split width
      have shifted := ih hl (g := g ++ form) (by rw [List.length_append]; omega)
        (hg.append isText)
      rwa [List.append_assoc, ← split] at shifted

theorem trimEnd_split (text : Bytes) : ∃ gap, IsText gap ∧ text = text.trimEnd ++ gap :=
  ⟨_, isText_behind_inkEnd (u := []) (g := []) rfl rfl .nil,
    (List.take_append_drop _ text).symm⟩

namespace IsText

theorem trimStart {text : Bytes} (h : IsText text) : IsText text.trimStart := by
  obtain ⟨gap, hg, split⟩ := trimStart_split text
  rw [split] at h
  exact h.right hg

theorem trimEnd {text : Bytes} (h : IsText text) : IsText text.trimEnd := by
  obtain ⟨gap, hg, split⟩ := trimEnd_split text
  rw [split] at h
  exact h.left hg

theorem trim {text : Bytes} (h : IsText text) : IsText text.trim := h.trimStart.trimEnd

theorem wordsFrom {word text : Bytes} (h : IsText (word.reverse ++ text)) :
    ∀ w ∈ Bytes.wordsFrom word text, IsText w := by
  have consWord {u : Bytes} {rest : List Bytes} (hu : IsText u) (hr : ∀ w ∈ rest, IsText w) :
      ∀ w ∈ Bytes.consWord u rest, IsText w := by
    rw [Bytes.consWord]
    split
    · exact hr
    · exact List.forall_mem_cons.2 ⟨hu, hr⟩
  fun_induction Bytes.wordsFrom word text with
  | case1 word =>
      rw [List.append_nil] at h
      exact consWord h (fun w mem => absurd mem List.not_mem_nil)
  | case2 word c t width ih =>
      apply ih
      rwa [List.reverse_cons, List.append_assoc]
  | case3 word c t n width ih =>
      obtain ⟨form, isText, length, split⟩ := space_split width
      rw [split] at h
      have ne : form ≠ [] := by
        intro empty
        simp [empty] at length
      have ends := h.stands isText ne (i := word.reverse.length)
        (by rw [List.drop_left]; exact List.prefix_append _ _)
      have front := ends.1.front
      have back := ends.2.back
      rw [List.take_left] at front
      rw [List.drop_length_add_append, List.drop_left] at back
      exact consWord front (ih back)

theorem words {text : Bytes} (h : IsText text) : ∀ w ∈ text.words, IsText w := wordsFrom h

theorem intercalate {separator : Bytes} (hs : IsText separator) {parts : List Bytes}
    (h : ∀ p ∈ parts, IsText p) : IsText (separator.intercalate parts) := by
  induction parts with
  | nil => exact nil
  | cons p rest ih =>
      have hp := h p List.mem_cons_self
      have later := ih fun q mem => h q (List.mem_cons_of_mem p mem)
      cases rest with
      | nil => simpa [List.intercalate] using hp
      | cons q more =>
          rw [List.intercalate_cons_cons]
          exact (hp.append hs).append later

theorem unwords {words : List Bytes} (h : ∀ w ∈ words, IsText w) : IsText (Bytes.unwords words) :=
  intercalate (ascii (by decide)) h

theorem pieces_aux {mark : UInt8} (ascii : mark < 0x80) {u text : Bytes}
    (h : IsText (u ++ text)) :
    ∃ p rest, text.pieces mark = p :: rest ∧ IsText (u ++ p) ∧ ∀ q ∈ rest, IsText q := by
  induction text generalizing u with
  | nil => exact ⟨[], [], rfl, h, fun q mem => absurd mem List.not_mem_nil⟩
  | cons c t ih =>
      by_cases here : c = mark
      · subst here
        obtain ⟨front, back⟩ := h.around_ascii ascii
        obtain ⟨p, rest, same, hp, hr⟩ := ih (u := []) back
        refine ⟨[], p :: rest, ?_, by rwa [List.append_nil], List.forall_mem_cons.2 ⟨hp, hr⟩⟩
        rw [← same]
        simp [pieces]
      · obtain ⟨p, rest, same, hp, hr⟩ := ih (u := u ++ [c]) (by simpa using h)
        refine ⟨c :: p, rest, ?_, by simpa using hp, hr⟩
        rw [pieces] at same
        rw [pieces, List.foldr_cons, if_neg here, same, consByte]

theorem pieces {mark : UInt8} (ascii : mark < 0x80) {text : Bytes} (h : IsText text) :
    ∀ p ∈ text.pieces mark, IsText p := by
  obtain ⟨p, rest, same, hp, hr⟩ := pieces_aux ascii (u := []) h
  rw [same]
  exact List.forall_mem_cons.2 ⟨hp, hr⟩

/-- Writing other texts for ASCII bytes. -/
theorem flatMap {f : UInt8 → Bytes} (hf : ∀ c, c < 0x80 → IsText (f c))
    (same : ∀ c, ¬ c < 0x80 → f c = [c]) {u text : Bytes} (h : IsText (u ++ text)) :
    IsText (u ++ text.flatMap f) := by
  induction text generalizing u with
  | nil => exact h
  | cons c t ih =>
      rw [List.flatMap_cons]
      by_cases ascii : c < 0x80
      · obtain ⟨front, back⟩ := h.around_ascii ascii
        exact front.append ((hf c ascii).append (ih (u := []) back))
      · rw [same c ascii, ← List.append_assoc]
        exact ih (by simpa using h)

theorem refer {mark : UInt8} (ascii : mark < 0x80) (reference : String) {value : Bytes}
    (h : IsText value) : IsText (Encoding.refer mark reference value) := by
  refine flatMap (u := []) ?_ ?_ h
  · intro c hc
    split
    · exact isText_utf8 reference
    · exact .ascii hc
  · intro c hc
    refine if_neg ?_
    intro same
    apply hc
    rwa [same]

theorem escape {mark : UInt8} (ascii : mark < 0x80) {value : Bytes} (h : IsText value) :
    IsText (Encoding.escape mark value) := by
  refine flatMap (u := []) ?_ ?_ h
  · intro c hc
    split
    · exact cons (by decide) (.ascii hc)
    · exact .ascii hc
  · intro c hc
    refine if_neg ?_
    intro same
    apply hc
    cases same with
    | inl same => rwa [same]
    | inr same => rw [same]; decide

theorem escapeText {text : Bytes} (h : IsText text) : IsText (Edit.escapeText text) := by
  refine flatMap (u := []) ?_ ?_ h
  · intro c hc
    rw [Edit.escapeByte]
    repeat' split
    all_goals first | exact isText_utf8 _ | exact .ascii hc
  · intro c hc
    have apart {d : UInt8} (hd : d < 0x80) : c ≠ d := fun same => hc (same ▸ hd)
    rw [Edit.escapeByte, if_neg (apart (by decide)), if_neg (apart (by decide)),
      if_neg (apart (by decide)), if_neg (apart (by decide)), if_neg (apart (by decide))]

theorem escapeTemplate {u value : Bytes} (h : IsText (u ++ value)) :
    IsText (u ++ Encoding.escapeTemplate value) := by
  induction value generalizing u with
  | nil => exact h
  | cons c t ih =>
      rw [Encoding.escapeTemplate, List.foldr_cons]
      change IsText (u ++ if _ then _ :: _ :: Encoding.escapeTemplate t else
        _ :: Encoding.escapeTemplate t)
      split
      next special =>
        have ascii : c < 0x80 := by
          obtain same | same | same := special
          · exact same ▸ by decide
          · exact same ▸ by decide
          · exact same.1 ▸ by decide
        obtain ⟨front, back⟩ := h.around_ascii ascii
        exact front.append (cons (by decide) (cons ascii (ih (u := []) back)))
      next =>
        have shifted := ih (u := u ++ [c]) (by simpa using h)
        simpa using shifted

theorem quote {mark : UInt8} (ascii : mark < 0x80) {value : Bytes} (h : IsText value) :
    IsText (Encoding.quote mark value) :=
  cons ascii (h.append (.ascii ascii))

theorem brace {value : Bytes} (h : IsText value) : IsText (Encoding.brace value) :=
  cons (by decide) (h.append (.ascii (by decide)))

theorem formatQuoted {mark other : UInt8} (hm : mark < 0x80) (ho : other < 0x80)
    (reference : String) {value : Bytes} (h : IsText value) :
    IsText (Encoding.formatQuoted mark other reference value) := by
  rw [Encoding.formatQuoted]
  split
  · exact quote ho h
  · exact quote hm (h.refer hm reference)

theorem format (encoding : Encoding) {value : Bytes} (h : IsText value) :
    IsText (encoding.format value) := by
  have double : IsText (Encoding.formatDouble value) :=
    h.formatQuoted (by decide) (by decide) _
  cases encoding with
  | doubleQuoted => exact double
  | singleQuoted => exact h.formatQuoted (by decide) (by decide) _
  | unquoted =>
      rw [Encoding.format]
      split
      · exact h
      · exact double
  | bracedDouble => exact brace (quote (by decide) (h.escape (by decide)))
  | bracedSingle => exact brace (quote (by decide) (h.escape (by decide)))
  | bracedTemplate => exact brace (quote (by decide) (escapeTemplate (u := []) h))

theorem writeAttribute {name value : Bytes} (hn : IsText name) (hv : IsText value) :
    IsText (MarkupEdit.writeAttribute name value) :=
  hn.append (cons (by decide) (hv.format .doubleQuoted))

end IsText

namespace Style

def Declaration.IsText : Declaration → Prop
  | .property name value => MarkupEdit.IsText name ∧ MarkupEdit.IsText value
  | .other piece => MarkupEdit.IsText piece

theorem Declaration.IsText.format {d : Declaration} (h : d.IsText) :
    MarkupEdit.IsText d.format := by
  cases d with
  | property name value => exact h.1.append ((isText_utf8 ": ").append h.2)
  | other piece => exact h

theorem isText_ofPiece {piece : Bytes} (h : IsText piece) : (Declaration.ofPiece piece).IsText := by
  rw [Declaration.ofPiece]
  split
  · exact h
  next width found =>
    obtain ⟨inside, colon, -⟩ := List.idxOf?_eq_some_iff.1 found
    have stands : piece[width]? = some Byte.colon := List.getElem?_eq_some_iff.2 ⟨inside, colon⟩
    have ends := h.boundary_of_ascii stands (by decide)
    exact ⟨ends.1.front.trim, ends.2.back.trim⟩

theorem isText_parse {style : Bytes} (h : IsText style) : ∀ d ∈ parse style, d.IsText := by
  intro d mem
  obtain ⟨piece, inked, rfl⟩ := List.mem_map.1 mem
  obtain ⟨raw, inPieces, rfl⟩ := List.mem_map.1 (List.mem_filter.1 inked).1
  exact isText_ofPiece (h.pieces (by decide) raw inPieces).trim

theorem isText_format {declarations : List Declaration} (h : ∀ d ∈ declarations, d.IsText)
    (closed : Bool) : IsText (format declarations closed) := by
  have joined : IsText ((utf8 "; ").intercalate (declarations.map Declaration.format)) := by
    apply IsText.intercalate (isText_utf8 _)
    intro part mem
    obtain ⟨d, hd, rfl⟩ := List.mem_map.1 mem
    exact (h d hd).format
  simp only [format]
  split
  · exact joined.append (.ascii (by decide))
  · exact joined

theorem isText_set {property value : Bytes} (hp : IsText property) (hv : IsText value)
    {declarations : List Declaration} (h : ∀ d ∈ declarations, d.IsText) :
    ∀ d ∈ set property value declarations, d.IsText := by
  induction declarations with
  | nil => exact List.forall_mem_singleton.2 ⟨hp, hv⟩
  | cons d rest ih =>
      have hd := h d List.mem_cons_self
      have hr : ∀ d ∈ rest, d.IsText := fun e mem => h e (List.mem_cons_of_mem d mem)
      cases d with
      | property name old =>
          rw [set]
          split
          · exact List.forall_mem_cons.2 ⟨⟨hd.1, hv⟩, hr⟩
          · exact List.forall_mem_cons.2 ⟨hd, ih hr⟩
      | other piece => exact List.forall_mem_cons.2 ⟨hd, ih hr⟩

theorem isText_remove (property : Bytes) {declarations : List Declaration}
    (h : ∀ d ∈ declarations, d.IsText) : ∀ d ∈ remove property declarations, d.IsText :=
  fun d mem => h d (List.mem_filter.1 mem).1

end Style

namespace Edit

theorem isText_declarationValue {value : Bytes} (h : IsText value) :
    IsText (declarationValue value) := by
  have split :=
    List.takeWhile_append_dropWhile (p := (· == Byte.semicolon)) (l := value.trim.reverse)
  have parts := congrArg List.reverse split
  rw [List.reverse_append, List.reverse_reverse] at parts
  have whole := h.trim
  rw [← parts] at whole
  refine whole.left (.ofAscii ?_)
  intro c mem
  have semicolon := List.all_eq_true.1 List.all_takeWhile c (List.mem_reverse.1 mem)
  rw [beq_iff_eq.1 semicolon]
  decide

theorem isText_distinct {classes : List Bytes} (h : ∀ c ∈ classes, IsText c) :
    ∀ c ∈ distinct classes, IsText c := by
  have keeps (seen : List Bytes) (hs : ∀ c ∈ seen, IsText c) : ∀ c ∈ classes.foldl
      (fun seen c => if seen.contains c then seen else seen ++ [c]) seen, IsText c := by
    induction classes generalizing seen with
    | nil => exact hs
    | cons c rest ih =>
        refine ih (fun d mem => h d (List.mem_cons_of_mem c mem)) _ ?_
        dsimp only
        split
        · exact hs
        · exact List.forall_mem_append.2
            ⟨hs, List.forall_mem_singleton.2 (h c List.mem_cons_self)⟩
  exact keeps [] (fun c mem => absurd mem List.not_mem_nil)

end Edit

namespace Encoding

/-- A literal is its content between two marks. -/
theorem content?_split {raw content : Bytes} (h : content? raw = some content) :
    ∃ first last, first < 0x80 ∧ last < 0x80 ∧ raw = first :: (content ++ [last]) := by
  rw [content?.eq_def] at h
  split at h
  · cases h
  next c t =>
    split at h
    next quote =>
      split at h
      next ends =>
        cases h
        have ascii := Scan.isQuote_ascii quote
        have closed : Scan.quotedEnd c 1 t = some (1 + t.length) := by
          rw [Nat.add_comm]
          exact ends
        exact ⟨c, c, ascii, ascii, congrArg (c :: ·) (Scan.quotedEnd_endsIn closed).last⟩
      next => cases h
    next =>
      split at h
      next backtick =>
        split at h
        next ends =>
          cases h
          have closed : Scan.templateEnd 1 t = some (1 + t.length) := by
            have unit := ends.1
            rw [Units.templateEnd, List.drop_zero] at unit
            simpa [backtick, Nat.add_comm] using unit
          exact ⟨c, Byte.backtick, by rw [backtick]; decide, by decide,
            congrArg (c :: ·) (Scan.templateEnd_endsIn closed).last⟩
        next => cases h
      next => cases h

theorem isText_content? {raw content : Bytes} (hr : IsText raw)
    (h : content? raw = some content) : IsText content := by
  obtain ⟨first, last, hf, hl, rfl⟩ := content?_split h
  exact (hr.tail_ascii hf).left (.ascii hl)

theorem unbraced?_split {raw inner : Bytes} (h : unbraced? raw = some inner) :
    ∃ body, raw = Byte.openBrace :: (body ++ [Byte.closeBrace]) ∧ inner = Bytes.trim body := by
  rw [unbraced?.eq_def] at h
  split at h
  · cases h
  next c t =>
    split at h
    next both =>
      cases h
      obtain ⟨init, rfl⟩ := List.getLast?_eq_some_iff.1 both.2
      rw [both.1, List.dropLast_concat]
      exact ⟨init, rfl, rfl⟩
    next => cases h

theorem isText_unbraced? {raw inner : Bytes} (hr : IsText raw) (h : unbraced? raw = some inner) :
    IsText inner := by
  obtain ⟨body, rfl, rfl⟩ := unbraced?_split h
  exact ((hr.tail_ascii (by decide)).left (.ascii (by decide))).trim

theorem isText_parse {raw text : Bytes} {encoding : Encoding} (hr : IsText raw)
    (h : parse raw = some (encoding, text)) : IsText text := by
  rw [parse.eq_def] at h
  split at h
  · cases h
  next c t =>
    split at h
    next =>
      obtain ⟨content, read, same⟩ := Option.map_eq_some_iff.1 h
      cases same
      exact isText_content? hr read
    next =>
      split at h
      next =>
        obtain ⟨inner, unbraced, h⟩ := Option.bind_eq_some_iff.1 h
        obtain ⟨content, read, h⟩ := Option.bind_eq_some_iff.1 h
        obtain ⟨first, -, h⟩ := Option.bind_eq_some_iff.1 h
        cases h
        exact isText_content? (isText_unbraced? hr unbraced) read
      next =>
        split at h
        next => cases h
        next =>
          cases h
          exact hr

end Encoding

end MarkupEdit
