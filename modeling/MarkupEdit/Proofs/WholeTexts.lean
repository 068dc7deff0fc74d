import MarkupEdit.Mutation
import MarkupEdit.Proofs.Cuts

/-!
Mutations of texts give texts. Each patch of a mutation replaces a part between two boundaries of
the text that the patches before it left, and what it puts there is a text.
-/

namespace MarkupEdit

/-- A patch that keeps a text a text. -/
structure Patch.Legal (text : Bytes) (q : Patch) : Prop where
  cut : Cut text q.start q.stop
  replacement : IsText q.replacement

theorem Patch.Legal.isText_apply {text : Bytes} {q : Patch} (h : q.Legal text) :
    IsText (q.apply text) :=
  h.cut.splice h.replacement

theorem Patch.Seamed.legal {text : Bytes} {q : Patch} (h : q.Seamed text) (ht : IsText text)
    (hr : IsText q.replacement) : q.Legal text :=
  ⟨.ofSeams ht h.start h.stop h.le, hr⟩

theorem isText_patch {text : Bytes} (ht : IsText text) {patches : List Patch}
    (h : text.Each (fun text q => q.Legal text) patches) : IsText (text.patch patches) := by
  induction patches generalizing text with
  | nil => exact ht
  | cons q rest ih =>
      rw [patch_cons]
      exact ih h.1.isText_apply h.2

namespace Edit

theorem legal_of_tagEdit {text : Bytes} {tag : OpenTag} (sound : tag.Sound text)
    (ht : IsText text) {patches : List Patch} (edit : TagEdit IsText text tag patches) :
    text.Each (fun text q => q.Legal text) patches := by
  cases edit with
  | idle => trivial
  | insert hn hv =>
      exact ⟨(sound.insertAttribute_seamed _).legal ht
        (.cons (by decide) (.writeAttribute hn hv)), trivial⟩
  | remove mem => exact ⟨(sound.removeAttribute_seamed mem).legal ht .nil, trivial⟩
  | @replace a mem _ encoding value hv =>
      refine ⟨(sound.replaceValue_seamed mem _).legal ht ?_, trivial⟩
      rw [Attribute.replaceValue]
      split
      · exact .cons (by decide) (hv.format encoding)
      · exact hv.format encoding

theorem isText_className (name : Classes.AttributeName) : IsText name.bytes := by
  cases name with
  | plain => exact isText_utf8 "class"
  | component => exact isText_utf8 "className"

section

variable {text id : Bytes} {patches : List Patch} (ht : IsText text)

include ht

theorem legal_of_located
    (edit : ∃ tag, locateTag? text id = some tag ∧ TagEdit IsText text tag patches) :
    text.Each (fun text q => q.Legal text) patches := by
  obtain ⟨tag, located, edit⟩ := edit
  exact legal_of_tagEdit (sound_of_locateTag? located) ht edit

theorem isText_literal {tag : OpenTag} {value : Bytes} (located : locateTag? text id = some tag)
    (h : HasLiteral text tag value) : IsText value :=
  isText_hasLiteral ((sound_of_locateTag? located).cuts ht) ht h

theorem setStyle_legal {property value : Bytes} (hp : IsText property) (hv : IsText value)
    (h : setStyle text id property value = .ok patches) :
    text.Each (fun text q => q.Legal text) patches := by
  have name := hp.trim
  have declared := isText_declarationValue hv
  refine legal_of_located ht (setStyle_edit (isText_utf8 _) ?_ ?_ h)
  · exact Style.Declaration.IsText.format ⟨name, declared⟩
  · intro tag style located literal
    exact Style.isText_format
      (Style.isText_set name declared (Style.isText_parse (isText_literal ht located literal))) _

theorem removeStyle_legal {property : Bytes} (h : removeStyle text id property = .ok patches) :
    text.Each (fun text q => q.Legal text) patches := by
  refine legal_of_located ht (removeStyle_edit ?_ h)
  intro tag style located literal
  exact Style.isText_format
    (Style.isText_remove _ (Style.isText_parse (isText_literal ht located literal))) _

theorem addClass_legal {classes : Bytes} (hc : IsText classes)
    (h : addClass text id classes = .ok patches) :
    text.Each (fun text q => q.Legal text) patches := by
  refine legal_of_located ht (addClass_edit isText_className ?_ h)
  intro tag current located literal
  exact .unwords (isText_distinct (List.forall_mem_append.2
    ⟨(isText_literal ht located literal).words, hc.words⟩))

theorem removeClass_legal {classes : Bytes} (h : removeClass text id classes = .ok patches) :
    text.Each (fun text q => q.Legal text) patches := by
  refine legal_of_located ht (removeClass_edit isText_className ?_ h)
  intro tag current located literal
  exact .unwords (isText_distinct fun c mem =>
    (isText_literal ht located literal).words c (List.mem_filter.1 mem).1)

theorem replaceTrimmed_legal {start stop : Nat} (h : Cut text start stop) {new : Bytes}
    (hn : IsText new) : (replaceTrimmed text start stop new).Legal text := by
  simp only [replaceTrimmed]
  split
  · exact ⟨h, hn⟩
  · let inner := text.slice start stop
    have isInner : IsText inner := h.part ht
    obtain ⟨front, hf, split⟩ := trimStart_split inner
    obtain ⟨back, hb, ends⟩ := trimEnd_split inner.trimStart
    have core := isInner.trim
    have width : inner.length - inner.trimStart.length = front.length := by
      have := congrArg List.length split
      rw [List.length_append] at this
      omega
    have whole : inner = (front ++ inner.trim) ++ back := by
      rw [List.append_assoc, Bytes.trim, ← ends, ← split]
    have cut : Cut inner front.length (front.length + inner.trim.length) := by
      have first := hf.boundary_append (core.append hb)
      have second := (hf.append core).boundary_append hb
      rw [← List.append_assoc, ← whole] at first
      rw [← whole, List.length_append] at second
      exact ⟨Nat.le_add_right _ _, first, second⟩
    have nested : Cut text (start + front.length) (start + (front.length + inner.trim.length)) :=
      h.nested cut
    rw [← Nat.add_assoc, ← width] at nested
    exact ⟨nested, hn⟩

theorem setText_legal {new : Bytes} {old : Option Bytes} (hn : IsText new)
    (ho : ∀ sought, old = some sought → IsText sought)
    (h : setText text id new old = .ok patches) :
    text.Each (fun text q => q.Legal text) patches := by
  obtain ⟨start, stop, content, found, planned⟩ := setText_edit h
  obtain ⟨loc, located, range, between⟩ := contentOf_eq_ok found
  have cuts := (sound_of_locate? located).cuts ht
  cases planned with
  | inr trimmed =>
      rw [trimmed.2]
      exact ⟨replaceTrimmed_legal ht (cuts.inner _ _ range) hn.escapeText, trivial⟩
  | inl named =>
      obtain ⟨sought, offset, given, ne, found, rfl⟩ := named
      obtain ⟨run, mem, width, index, rfl⟩ := findInRuns?_eq_some found
      have isRun := cuts.run _ _ _ range between run mem
      have stands := (Bytes.indexFrom?_stands index).2
      obtain ⟨first, last⟩ := (isRun.part ht).stands (ho sought given) ne stands
      have place : Cut (text.slice run.1 run.2) width (width + sought.length) :=
        ⟨Nat.le_add_right _ _, first, last⟩
      have nested := isRun.nested place
      rw [← Nat.add_assoc] at nested
      exact ⟨⟨nested, hn.escapeText⟩, trivial⟩

theorem insertBeside_legal {loc : Location} (sound : loc.Sound text) {markup : Bytes}
    (hm : IsText markup) (side : Side) : (insertBeside text loc markup side).Legal text := by
  refine (insertBeside_seamed sound markup side).legal ht ?_
  have lineBreak : IsText (Byte.lineFeed :: text.lineIndent loc.start) :=
    .cons (by decide) (isText_lineIndent ht _)
  cases side with
  | before => exact hm.append lineBreak
  | after => exact lineBreak.append hm

theorem removeLocated_legal {loc : Location} (sound : loc.Sound text) :
    (removeLocated text loc).Legal text := by
  refine (removeLocated_seamed sound).legal ht ?_
  simp only [removeLocated]
  split
  · exact .nil
  · split
    · exact .nil
    · exact .nil

theorem moveElement_legal {target : Bytes} {side : Side}
    (h : moveElement text id target side = .ok patches) :
    text.Each (fun text q => q.Legal text) patches := by
  obtain ⟨loc, goal, located, found, rfl⟩ := moveElement_edit h
  have sound := sound_of_locate? located
  have removal := removeLocated_legal ht sound
  have cuts := sound.cuts ht
  have outer : IsText loc.outer := by
    rw [cuts.isOuter]
    exact cuts.whole.part ht
  exact ⟨removal,
    insertBeside_legal removal.isText_apply (sound_of_locate? found) outer side, trivial⟩

end

end Edit

/-- Every patch of a mutation replaces a part of a text by a text. -/
theorem Mutation.plan_legal {text : Bytes} (ht : IsText text) {m : Mutation}
    {patches : List Patch} (h : m.plan text = .ok patches) :
    text.Each (fun text q => q.Legal text) patches := by
  cases m with
  | replaceElement id markup =>
      obtain ⟨loc, located, rfl⟩ := Edit.replaceElement_edit h
      exact ⟨⟨((sound_of_locate? located).cuts ht).whole, isText_utf8 markup⟩, trivial⟩
  | insertAfter id markup =>
      obtain ⟨loc, located, rfl⟩ := Edit.insertElement_edit h
      exact ⟨Edit.insertBeside_legal ht (sound_of_locate? located) (isText_utf8 markup) _,
        trivial⟩
  | insertBefore id markup =>
      obtain ⟨loc, located, rfl⟩ := Edit.insertElement_edit h
      exact ⟨Edit.insertBeside_legal ht (sound_of_locate? located) (isText_utf8 markup) _,
        trivial⟩
  | removeElement id =>
      obtain ⟨loc, located, rfl⟩ := Edit.removeElement_edit h
      exact ⟨Edit.removeLocated_legal ht (sound_of_locate? located), trivial⟩
  | moveElement id target side => exact Edit.moveElement_legal ht h
  | updateClasses id classes =>
      exact Edit.legal_of_located ht
        (Edit.setClasses_edit Edit.isText_className (isText_utf8 classes) h)
  | addClass id classes => exact Edit.addClass_legal ht (isText_utf8 classes) h
  | removeClass id classes => exact Edit.removeClass_legal ht h
  | updateText id new old =>
      refine Edit.setText_legal ht (isText_utf8 new) ?_ h
      intro sought given
      obtain ⟨s, -, rfl⟩ := Option.map_eq_some_iff.1 given
      exact isText_utf8 s
  | setAttribute id name value =>
      exact Edit.legal_of_located ht
        (Edit.setAttribute_edit (isText_utf8 name) (isText_utf8 value) h)
  | removeAttribute id name => exact Edit.legal_of_located ht (Edit.removeAttribute_edit h)
  | setInlineStyle id property value =>
      exact Edit.setStyle_legal ht (isText_utf8 property) (isText_utf8 value) h
  | removeInlineStyle id property => exact Edit.removeStyle_legal ht h

/-- A mutation of a string gives a string or is refused. -/
theorem Mutation.apply_utf8 (m : Mutation) (s : String) :
    ∃ result : Except Refusal String, m.apply (utf8 s) = result.map utf8 := by
  rw [apply]
  cases planned : m.plan (utf8 s) with
  | error refusal => exact ⟨.error refusal, rfl⟩
  | ok patches =>
      obtain ⟨new, same⟩ := isText_patch (isText_utf8 s) (plan_legal (isText_utf8 s) planned)
      exact ⟨.ok new, congrArg Except.ok same⟩

end MarkupEdit
