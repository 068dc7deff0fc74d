import MarkupEdit.Edit.Style
import MarkupEdit.Proofs.TrimmedTexts

/-!
Declarations and the styles that hold them. The declarations of a style are trimmed and hold no
semicolon, and written one behind the other they are read again as they were.
-/

namespace MarkupEdit

open Bytes

namespace Bytes

theorem pieces_cons_mark (mark : UInt8) (t : Bytes) :
    pieces (mark :: t) mark = [] :: t.pieces mark := by
  simp [pieces]

theorem pieces_cons {c mark : UInt8} (ne : c ≠ mark) (t : Bytes) :
    pieces (c :: t) mark = consByte c (t.pieces mark) := by
  simp [pieces, ne]

theorem consByte_ne_nil (c : UInt8) (rest : List Bytes) : consByte c rest ≠ [] := by
  cases rest with
  | nil => exact List.cons_ne_nil _ _
  | cons piece rest => exact List.cons_ne_nil _ _

theorem consByte_append (c : UInt8) {front : List Bytes} (ne : front ≠ []) (back : List Bytes) :
    consByte c (front ++ back) = consByte c front ++ back := by
  cases front with
  | nil => exact absurd rfl ne
  | cons piece rest => rfl

theorem pieces_ne_nil (mark : UInt8) (t : Bytes) : t.pieces mark ≠ [] := by
  cases t with
  | nil => exact List.cons_ne_nil _ _
  | cons c t =>
      by_cases here : c = mark
      · rw [here, pieces_cons_mark]
        exact List.cons_ne_nil _ _
      · rw [pieces_cons here]
        exact consByte_ne_nil c _

theorem pieces_append (mark : UInt8) (front back : Bytes) :
    pieces (front ++ mark :: back) mark = front.pieces mark ++ back.pieces mark := by
  induction front with
  | nil => exact pieces_cons_mark mark back
  | cons c front ih =>
      rw [List.cons_append]
      by_cases here : c = mark
      · rw [here, pieces_cons_mark, pieces_cons_mark, ih, List.cons_append]
      · rw [pieces_cons here, pieces_cons here, ih, consByte_append c (pieces_ne_nil mark front)]

theorem pieces_of_notMem {mark : UInt8} {t : Bytes} (none : mark ∉ t) : t.pieces mark = [t] := by
  induction t with
  | nil => rfl
  | cons c t ih =>
      obtain ⟨ne, later⟩ := not_or.1 (mt List.mem_cons.2 none)
      rw [pieces_cons (Ne.symm ne), ih later, consByte]

theorem notMem_of_mem_pieces {mark : UInt8} {t piece : Bytes} (mem : piece ∈ t.pieces mark) :
    mark ∉ piece := by
  induction t generalizing piece with
  | nil =>
      rw [List.mem_singleton.1 mem]
      exact List.not_mem_nil
  | cons c t ih =>
      by_cases here : c = mark
      · rw [here, pieces_cons_mark] at mem
        rcases List.mem_cons.1 mem with rfl | later
        · exact List.not_mem_nil
        · exact ih later
      · rw [pieces_cons here] at mem
        cases split : pieces t mark with
        | nil => exact absurd split (pieces_ne_nil mark t)
        | cons first rest =>
            rw [split] at mem ih
            rcases List.mem_cons.1 mem with rfl | later
            · exact List.not_mem_cons_of_ne_of_not_mem (Ne.symm here) (ih List.mem_cons_self)
            · exact ih (List.mem_cons_of_mem first later)

end Bytes

namespace Style

/-- The bytes of a declaration's name and value, or of its piece, that `ofPiece` gives back: the
parts are trimmed, and no colon or semicolon stands where it would be read as a mark. -/
def Declaration.Tidy : Declaration → Prop
  | .property name value =>
    Trimmed name ∧ Trimmed value ∧ Byte.colon ∉ name ∧ Byte.semicolon ∉ name ∧
      Byte.semicolon ∉ value
  | .other piece => Trimmed piece ∧ piece ≠ [] ∧ Byte.colon ∉ piece ∧ Byte.semicolon ∉ piece

def ofPieces (pieces : List Bytes) : List Declaration :=
  ((pieces.map Bytes.trim).filter (!·.isEmpty)).map Declaration.ofPiece

theorem parse_eq (style : Bytes) : parse style = ofPieces (style.pieces Byte.semicolon) := rfl

theorem ofPieces_append (front back : List Bytes) :
    ofPieces (front ++ back) = ofPieces front ++ ofPieces back := by
  simp only [ofPieces, List.map_append, List.filter_append]

theorem ofPieces_consByte {pieces : List Bytes} (ne : pieces ≠ []) :
    ofPieces (consByte Byte.space pieces) = ofPieces pieces := by
  cases pieces with
  | nil => exact absurd rfl ne
  | cons piece rest => simp only [consByte, ofPieces, List.map_cons, trim_space]

theorem colon_ink : Ink Byte.colon := by decide +kernel

theorem semicolon_ink : Ink Byte.semicolon := by decide +kernel

namespace Declaration

theorem ofPiece_other {piece : Bytes} (none : Byte.colon ∉ piece) :
    ofPiece piece = other piece := by
  have absent : piece.idxOf? Byte.colon = Option.none := List.idxOf?_eq_none_iff.2 none
  rw [ofPiece, absent]

theorem ofPiece_property {name : Bytes} (none : Byte.colon ∉ name) (rest : Bytes) :
    ofPiece (name ++ Byte.colon :: rest) = property name.trim rest.trim := by
  rw [ofPiece, idxOf?_append_cons none]
  dsimp only
  rw [List.take_left, List.append_cons, List.drop_left' (by simp)]

theorem tidy_ofPiece {piece : Bytes} (trimmed : Trimmed piece) (ne : piece ≠ [])
    (none : Byte.semicolon ∉ piece) : (ofPiece piece).Tidy := by
  by_cases colon : Byte.colon ∈ piece
  · obtain ⟨name, rest, split, first⟩ := List.eq_append_cons_of_mem colon
    have front : Byte.semicolon ∉ name := fun mem => none (by rw [split]; simp [mem])
    have back : Byte.semicolon ∉ rest := fun mem => none (by rw [split]; simp [mem])
    rw [split, ofPiece_property first]
    exact ⟨trimmed_trim name, trimmed_trim rest, fun mem => first (trim_subset name mem),
      fun mem => front (trim_subset name mem), fun mem => back (trim_subset rest mem)⟩
  · rw [ofPiece_other colon]
    exact ⟨trimmed, ne, colon, none⟩

variable {d : Declaration} (tidy : d.Tidy)

include tidy

theorem Tidy.semicolon_notMem : Byte.semicolon ∉ d.format := by
  cases d with
  | property name value =>
      obtain ⟨-, -, -, front, back⟩ := tidy
      have between : Byte.semicolon ∉ utf8 ": " := by decide +kernel
      simp [format, front, back, between]
  | other piece => exact tidy.2.2.2

/-- A tidy declaration is read as it was written. -/
theorem Tidy.ofPiece_format : ofPiece d.format.trim = d ∧ d.format.trim ≠ [] := by
  cases d with
  | property name value =>
      obtain ⟨hname, hvalue, colon, -, -⟩ := tidy
      have written : (property name value).format = name ++ Byte.colon :: Byte.space :: value := rfl
      have trimmed := trim_ink_append colon_ink hname (Byte.space :: value)
      rw [written, trimmed, ofPiece_property colon, hname, trimEnd_space, hvalue.trimEnd]
      refine ⟨?_, List.append_ne_nil_of_right_ne_nil name (List.cons_ne_nil _ _)⟩
      split
      next empty => rw [empty, trimmed_nil]
      next => rw [trim_space, hvalue]
  | other piece =>
      obtain ⟨trimmed, ne, colon, -⟩ := tidy
      have written : (other piece).format.trim = piece := trimmed
      rw [written]
      exact ⟨ofPiece_other colon, ne⟩

theorem Tidy.trimEnd_format : d.format.trimEnd ≠ [] := by
  cases d with
  | property name value =>
      have written : (property name value).format = name ++ Byte.colon :: Byte.space :: value := rfl
      rw [written, trimEnd_append_ink colon_ink]
      exact List.append_ne_nil_of_right_ne_nil name (List.cons_ne_nil _ _)
  | other piece =>
      have written : (other piece).format.trimEnd = piece := Trimmed.trimEnd tidy.1
      rw [written]
      exact tidy.2.1

theorem Tidy.ofPieces_format : ofPieces [d.format] = [d] := by
  obtain ⟨same, ne⟩ := tidy.ofPiece_format
  simp [ofPieces, ne, same]

end Declaration

/-- The declarations of a style are tidy. -/
theorem tidy_parse {style : Bytes} : ∀ d ∈ parse style, d.Tidy := by
  intro d mem
  obtain ⟨trimmed, kept, rfl⟩ := List.mem_map.1 mem
  obtain ⟨among, ne⟩ := List.mem_filter.1 kept
  obtain ⟨piece, here, rfl⟩ := List.mem_map.1 among
  exact Declaration.tidy_ofPiece (trimmed_trim piece) (by simpa using ne)
    fun mem => notMem_of_mem_pieces here (trim_subset piece mem)

theorem parse_append (front back : Bytes) :
    parse (front ++ Byte.semicolon :: back) = parse front ++ parse back := by
  rw [parse_eq, pieces_append, ofPieces_append]
  rfl

theorem parse_space (style : Bytes) : parse (Byte.space :: style) = parse style := by
  rw [parse_eq, pieces_cons (by decide), ofPieces_consByte (pieces_ne_nil _ _)]
  rfl

theorem parse_nil : parse [] = [] := by
  simp [parse_eq, Bytes.pieces, ofPieces, show trim [] = [] from trimmed_nil]

/-- The formats of declarations, with a semicolon and a blank between each two. -/
def joined (declarations : List Declaration) : Bytes :=
  (utf8 "; ").intercalate (declarations.map Declaration.format)

theorem joined_cons_cons (d e : Declaration) (rest : List Declaration) :
    joined (d :: e :: rest) = d.format ++ Byte.semicolon :: Byte.space :: joined (e :: rest) := by
  have mark : utf8 "; " = [Byte.semicolon, Byte.space] := rfl
  simp [joined, List.intercalate_cons_cons, mark]

theorem joined_singleton (d : Declaration) : joined [d] = d.format := by
  simp [joined]

theorem format_eq (declarations : List Declaration) (closed : Bool) :
    format declarations closed =
      if closed && !(joined declarations).isEmpty then joined declarations ++ [Byte.semicolon]
      else joined declarations := rfl

theorem trimEnd_closed (front : Bytes) :
    (front ++ [Byte.semicolon]).trimEnd = front ++ [Byte.semicolon] := by
  rw [trimEnd_append_ink semicolon_ink, trimmed_nil.trimEnd]

variable {declarations : List Declaration} (tidy : ∀ d ∈ declarations, d.Tidy)

include tidy

theorem parse_joined : parse (joined declarations) = declarations := by
  induction declarations with
  | nil => exact parse_nil
  | cons d rest ih =>
      obtain ⟨first, later⟩ := List.forall_mem_cons.1 tidy
      have single : parse d.format = [d] := by
        rw [parse_eq, pieces_of_notMem first.semicolon_notMem, first.ofPieces_format]
      cases rest with
      | nil => rw [joined_singleton, single]
      | cons e rest => rw [joined_cons_cons, parse_append, single, parse_space, ih later]; rfl

/-- What declarations are written as is read as these declarations. -/
theorem parse_format (closed : Bool) : parse (format declarations closed) = declarations := by
  rw [format_eq]
  split
  · rw [parse_append, parse_nil, List.append_nil, parse_joined tidy]
  · exact parse_joined tidy

/-- No semicolon stands behind the last declaration. -/
theorem trimEnd_joined (ne : declarations ≠ []) :
    (joined declarations).trimEnd ≠ [] ∧
      (joined declarations).trimEnd.getLast? ≠ some Byte.semicolon := by
  induction declarations with
  | nil => exact absurd rfl ne
  | cons d rest ih =>
      obtain ⟨first, later⟩ := List.forall_mem_cons.1 tidy
      cases rest with
      | nil =>
          rw [joined_singleton]
          refine ⟨first.trimEnd_format, fun last => first.semicolon_notMem ?_⟩
          exact (trimEnd_begins _).subset (List.mem_of_getLast? last)
      | cons e rest =>
          obtain ⟨ink, last⟩ := ih later (List.cons_ne_nil e rest)
          rw [joined_cons_cons, trimEnd_append_ink semicolon_ink, trimEnd_space, if_neg ink]
          refine ⟨List.append_ne_nil_of_right_ne_nil _ (List.cons_ne_nil _ _), ?_⟩
          have behind : d.format ++ Byte.semicolon :: Byte.space :: (joined (e :: rest)).trimEnd =
              (d.format ++ [Byte.semicolon, Byte.space]) ++ (joined (e :: rest)).trimEnd := by
            simp
          rwa [behind, List.getLast?_append_of_ne_nil _ ink]

theorem format_closed (ne : declarations ≠ []) :
    format declarations true = joined declarations ++ [Byte.semicolon] := by
  have full : joined declarations ≠ [] := by
    intro empty
    have read := parse_joined tidy
    rw [empty, parse_nil] at read
    exact ne read.symm
  simp [format_eq, full]

/-- What is written is closed exactly if it was to be closed. -/
theorem isClosed_format (ne : declarations ≠ []) (closed : Bool) :
    isClosed (format declarations closed) = closed := by
  cases closed with
  | false =>
      have written : format declarations false = joined declarations := rfl
      rw [written, isClosed, beq_eq_false_iff_ne]
      exact (trimEnd_joined tidy ne).2
  | true =>
      rw [format_closed tidy ne, isClosed, trimEnd_closed, List.getLast?_concat]
      exact beq_self_eq_true _

theorem getLast?_format (ne : declarations ≠ []) (closed : Bool) :
    (format declarations closed).getLast? = some Byte.semicolon ↔ closed = true := by
  cases closed with
  | false =>
      have written : format declarations false = joined declarations := rfl
      refine iff_of_false (fun last => ?_) Bool.false_ne_true
      obtain ⟨front, split⟩ := List.getLast?_eq_some_iff.1 last
      have ends := (trimEnd_joined tidy ne).2
      rw [← written, split, trimEnd_closed] at ends
      exact ends List.getLast?_concat
  | true =>
      rw [format_closed tidy ne, List.getLast?_concat]
      exact iff_of_true rfl rfl

end Style
end MarkupEdit
