import MarkupEdit.Proofs.AttributeOrder
import MarkupEdit.Proofs.ContentLocality

/-!
The closing tag that ends an element, in a text of any bytes. The search for it gives only the
offset behind it; here the search also tells which tag it was. That tag bears the name sought and
stands as written up to that offset, so no other closing tag ends there.
-/

namespace MarkupEdit

/-- A closing tag is read as its name, white space and `>`. -/
theorem CloseTag.after?_eq_some {i : Nat} {s : Bytes} {close : CloseTag}
    (h : CloseTag.after? i s = some close) :
    ∃ gap r, (∀ c ∈ close.name, isNameByte c = true) ∧ AllBlank gap ∧
      s = close.name ++ (gap ++ Byte.greater :: r) ∧
      close.stop = i + (close.name ++ (gap ++ [Byte.greater])).length := by
  simp only [CloseTag.after?] at h
  split at h
  · cases h
  next c r behind =>
    split at h
    next greater =>
      cases h
      let name := s.takeWhile isNameByte
      let gap := (s.drop name.length).takeWhile Byte.isBlank
      have isName : name <+: s := List.takeWhile_prefix isNameByte
      have isGap : gap <+: s.drop name.length := List.takeWhile_prefix Byte.isBlank
      refine ⟨gap, r, List.all_eq_true.1 List.all_takeWhile, List.all_eq_true.1 List.all_takeWhile,
        ?_, ?_⟩
      · rw [← greater, ← behind]
        exact (List.prefix_append_drop isName).trans
          (congrArg (name ++ ·) (List.prefix_append_drop isGap))
      · simp only [List.length_append, List.length_singleton, gap, name]
        omega
    next => cases h

namespace Scan

/-- The closing tag `</name>` that leaves `depth` open elements of that name behind, with the
offset of its `<`. It is searched for as in `contentEnd`. -/
def closing? (i : Nat) (name : Bytes) (depth : Nat) : Bytes → Option (Nat × CloseTag)
  | [] => none
  | c :: t =>
    if c = Byte.openBrace then
      match blockEnd (i + 1) 0 t with
      | none => none
      | some j => closing? j name depth (goOn (i + 1) j t)
    else if c = Byte.less then
      if t.head? = some Byte.slash then
        match CloseTag.after? (i + 2) (t.drop 1) with
        | none => closing? (i + 1) name depth t
        | some close =>
          if close.name = name ∧ depth = 0 then some (i, close)
          else
            closing? close.stop name (if close.name = name then depth - 1 else depth)
              (goOn (i + 1) close.stop t)
      else if t.head? = some Byte.bang then
        match declarationEnd (i + 2) (t.drop 1) with
        | none => none
        | some j => closing? j name depth (goOn (i + 1) j t)
      else if t.head? = some Byte.greater then
        closing? (i + 2) name (if name = [] then depth + 1 else depth) (t.drop 1)
      else
        match openTag? i t with
        | none => closing? (i + 1) name depth t
        | some tag =>
          closing? tag.stop name
            (if tag.name = name ∧ tag.closesItself = false then depth + 1 else depth)
            (goOn (i + 1) tag.stop t)
    else closing? (i + 1) name depth t
termination_by s => s.length
decreasing_by all_goals (simp only [List.length_cons, List.length_drop]; omega)

/-- Content ends where its closing tag does. -/
theorem contentEnd_eq_closing? (i : Nat) (name : Bytes) (depth : Nat) (s : Bytes) :
    contentEnd i name depth s = (closing? i name depth s).map (·.2.stop) := by
  fun_induction closing? i name depth s with
  | case1 =>
      rw [contentEnd]
      rfl
  | case2 i depth t unclosed =>
      rw [contentEnd, if_pos rfl, unclosed]
      rfl
  | case3 i depth t j ended ih =>
      rw [contentEnd, if_pos rfl, ended]
      exact ih
  | case4 i depth t slash noTag notBrace ih =>
      rw [contentEnd, if_neg notBrace, if_pos rfl, if_pos slash, noTag]
      exact ih
  | case5 i depth t slash close read here notBrace =>
      rw [contentEnd, if_neg notBrace, if_pos rfl, if_pos slash, read]
      exact if_pos here
  | case6 i depth t slash close read other notBrace ih =>
      rw [contentEnd, if_neg notBrace, if_pos rfl, if_pos slash, read]
      exact (if_neg other).trans ih
  | case7 i depth t notSlash bang unclosed notBrace =>
      rw [contentEnd, if_neg notBrace, if_pos rfl, if_neg notSlash, if_pos bang, unclosed]
      rfl
  | case8 i depth t notSlash bang j ended notBrace ih =>
      rw [contentEnd, if_neg notBrace, if_pos rfl, if_neg notSlash, if_pos bang, ended]
      exact ih
  | case9 i depth t notSlash notBang greater notBrace ih =>
      rw [contentEnd, if_neg notBrace, if_pos rfl, if_neg notSlash, if_neg notBang,
        if_pos greater]
      exact ih
  | case10 i depth t notSlash notBang notGreater noTag notBrace ih =>
      rw [contentEnd, if_neg notBrace, if_pos rfl, if_neg notSlash, if_neg notBang,
        if_neg notGreater, noTag]
      exact ih
  | case11 i depth t notSlash notBang notGreater tag opened notBrace ih =>
      rw [contentEnd, if_neg notBrace, if_pos rfl, if_neg notSlash, if_neg notBang,
        if_neg notGreater, opened]
      exact ih
  | case12 i depth c t notBrace notLess ih =>
      rw [contentEnd, if_neg notBrace, if_neg notLess]
      exact ih

/-- A closing tag as written at offset `k` of a text. -/
structure WrittenAt (text : Bytes) (close : CloseTag) (gap : Bytes) (k : Nat) : Prop where
  named : ∀ c ∈ close.name, isNameByte c = true
  blank : AllBlank gap
  stop : close.stop = k + (closeTagText close.name gap).length
  text : text.slice k close.stop = closeTagText close.name gap

theorem writtenAt_of_after? {text : Bytes} {k : Nat} {t : Bytes} {close : CloseTag}
    (rest : text.drop k = Byte.less :: t) (slash : t.head? = some Byte.slash)
    (read : CloseTag.after? (k + 2) (t.drop 1) = some close) :
    ∃ gap, WrittenAt text close gap k := by
  obtain ⟨gap, r, named, blank, split, stop⟩ := CloseTag.after?_eq_some read
  obtain ⟨u, rfl⟩ := List.head?_eq_some_iff.1 slash
  have width : close.stop = k + (closeTagText close.name gap).length := by
    rw [stop, closeTagText]
    simp only [List.length_cons]
    omega
  refine ⟨gap, named, blank, width, ?_⟩
  have whole : text.drop k = closeTagText close.name gap ++ r := by
    rw [rest, closeTagText, List.cons_append, List.cons_append, List.append_assoc,
      List.append_assoc, List.singleton_append]
    exact congrArg (Byte.less :: Byte.slash :: ·) split
  rw [Bytes.slice, List.drop_take, width, Nat.add_sub_cancel_left, whole, List.take_left]

/-- The closing tag found has the name that was sought, and it is written where it was read. -/
theorem closing?_writtenAt {text name : Bytes} {i depth k : Nat} {close : CloseTag}
    (h : closing? i name depth (text.drop i) = some (k, close)) :
    i ≤ k ∧ close.name = name ∧ ∃ gap, WrittenAt text close gap k := by
  generalize rest : text.drop i = s at h
  fun_induction closing? i name depth s with
  | case1 => cases h
  | case2 => cases h
  | case3 i depth t j ended ih =>
      have bounds := blockEnd_bounds ended
      refine (ih ?_ h).imp_left fun le => by omega
      rw [← (drop_eq_cons rest).2.1, goOn_drop text (by omega)]
  | case4 i depth t slash noTag notBrace ih =>
      exact (ih (drop_eq_cons rest).2.1 h).imp_left Nat.le_of_succ_le
  | case5 i depth t slash close' read here notBrace =>
      cases h
      exact ⟨Nat.le_refl _, here.1, writtenAt_of_after? rest slash read⟩
  | case6 i depth t slash close' read other notBrace ih =>
      have bounds := closeTag_bounds read
      refine (ih ?_ h).imp_left fun le => by omega
      rw [← (drop_eq_cons rest).2.1, goOn_drop text (by omega)]
  | case7 => cases h
  | case8 i depth t notSlash bang j ended notBrace ih =>
      have bounds := declarationEnd_bounds ended
      refine (ih ?_ h).imp_left fun le => by omega
      rw [← (drop_eq_cons rest).2.1, goOn_drop text (by omega)]
  | case9 i depth t notSlash notBang greater notBrace ih =>
      refine (ih ?_ h).imp_left fun le => by omega
      rw [← (drop_eq_cons rest).2.1, List.drop_drop]
  | case10 i depth t notSlash notBang notGreater noTag notBrace ih =>
      exact (ih (drop_eq_cons rest).2.1 h).imp_left Nat.le_of_succ_le
  | case11 i depth t notSlash notBang notGreater tag opened notBrace ih =>
      have bounds := openTag?_bounds opened
      refine (ih ?_ h).imp_left fun le => by omega
      rw [← (drop_eq_cons rest).2.1, goOn_drop text (by omega)]
  | case12 i depth c t notBrace notLess ih =>
      exact (ih (drop_eq_cons rest).2.1 h).imp_left Nat.le_of_succ_le

end Scan

end MarkupEdit
