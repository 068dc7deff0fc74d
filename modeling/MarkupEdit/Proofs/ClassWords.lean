import MarkupEdit.Proofs.ClassAttributes
import MarkupEdit.Proofs.LiteralForms

/-!
Adding and removing classes as operations on the words of a class list. What is written is a list
of words between double quotes, from which the same words are read; so an edit adds or removes
words, does nothing more when it is made once more, and what was added can be removed again.
-/

namespace MarkupEdit

/-- The words of the class list of an element; without a list there are none. -/
def classWords (text id : Bytes) : List Bytes := ((readClasses? text id).getD []).words

namespace Bytes

theorem words_nil : words [] = [] := by
  rw [words, wordsFrom]
  rfl

theorem mem_consWord {word w : Bytes} {ws : List Bytes} (mem : w ∈ consWord word ws) :
    w = word ∨ w ∈ ws := by
  rw [consWord] at mem
  split at mem
  · exact .inr mem
  · exact List.mem_cons.1 mem

theorem mem_of_mem_wordsFrom {word text w : Bytes} {c : UInt8} (mem : w ∈ wordsFrom word text)
    (hc : c ∈ w) : c ∈ word ∨ c ∈ text := by
  fun_induction wordsFrom word text with
  | case1 word =>
      rcases mem_consWord mem with rfl | mem
      · exact .inl (List.mem_reverse.1 hc)
      · cases mem
  | case2 word d t width ih =>
      rcases ih mem with before | behind
      · rcases List.mem_cons.1 before with rfl | before
        · exact .inr List.mem_cons_self
        · exact .inl before
      · exact .inr (List.mem_cons_of_mem d behind)
  | case3 word d t n width ih =>
      rcases mem_consWord mem with rfl | mem
      · exact .inl (List.mem_reverse.1 hc)
      · rcases ih mem with before | behind
        · cases before
        · exact .inr (List.mem_cons_of_mem d (List.mem_of_mem_drop behind))

theorem mem_of_mem_words {text w : Bytes} (mem : w ∈ text.words) {c : UInt8} (hc : c ∈ w) :
    c ∈ text := by
  rcases mem_of_mem_wordsFrom mem hc with before | inside
  · cases before
  · exact inside

theorem mem_unwords {ws : List Bytes} {c : UInt8} (mem : c ∈ unwords ws) :
    c = Byte.space ∨ ∃ w ∈ ws, c ∈ w := by
  induction ws with
  | nil => cases mem
  | cons w rest ih =>
      cases rest with
      | nil => exact .inr ⟨w, List.mem_cons_self, by simpa [unwords] using mem⟩
      | cons x rest =>
          have split : unwords (w :: x :: rest) = w ++ Byte.space :: unwords (x :: rest) := by
            simp [unwords]
          rw [split, List.mem_append, List.mem_cons] at mem
          obtain first | blank | later := mem
          · exact .inr ⟨w, List.mem_cons_self, first⟩
          · exact .inl blank
          · obtain blank | ⟨y, hy, inside⟩ := ih later
            · exact .inl blank
            · exact .inr ⟨y, List.mem_cons_of_mem w hy, inside⟩

end Bytes

namespace Encoding

theorem Quotable.mono {value w : Bytes} (quotable : Quotable value) (inside : ∀ c ∈ w, c ∈ value) :
    Quotable w :=
  ⟨⟨fun mem => quotable.noLess (inside _ mem), fun mem => quotable.noQuote (inside _ mem)⟩,
    fun mem => quotable.noBackslash (inside _ mem)⟩

theorem Quotable.unwords {ws : List Bytes} (h : ∀ w ∈ ws, Quotable w) :
    Quotable (Bytes.unwords ws) := by
  have inside {c : UInt8} (other : c ≠ Byte.space) (absent : ∀ w ∈ ws, c ∉ w) :
      c ∉ Bytes.unwords ws := fun mem => by
    obtain blank | ⟨w, hw, within⟩ := Bytes.mem_unwords mem
    · exact other blank
    · exact absent w hw within
  exact ⟨⟨inside (by decide) fun w hw => (h w hw).noLess,
    inside (by decide) fun w hw => (h w hw).noQuote⟩,
    inside (by decide) fun w hw => (h w hw).noBackslash⟩

/-- A literal is written in the bytes of its value. -/
theorem mem_of_parse {raw text : Bytes} {encoding : Encoding}
    (h : parse raw = some (encoding, text)) {c : UInt8} (mem : c ∈ text) : c ∈ raw := by
  have quoted {mark : UInt8} : c ∈ quote mark text :=
    List.mem_cons_of_mem _ (List.mem_append_left _ mem)
  cases isLiteral_of_parse h with
  | doubleQuoted => exact quoted
  | singleQuoted => exact quoted
  | unquoted => exact mem
  | bracedDouble => simp [brace, quoted]
  | bracedSingle => simp [brace, quoted]
  | bracedTemplate => simp [brace, quoted]

end Encoding

theorem TagText.mem_of_literal {tag : TagText} {i : Nat} {a : Attribute} (mem : a ∈ tag.written i)
    {encoding : Encoding} {text : Bytes} (literal : a.classify = .literal encoding text) {c : UInt8}
    (hc : c ∈ text) : c ∈ tag.text.tail := by
  obtain ⟨earlier, gap, item, later, split, found⟩ := mem_itemAttributes.1 mem
  rw [(Item.attribute?_eq_some found).2] at literal
  cases item with
  | spread body => cases found
  | flag name => cases literal
  | valued name before after raw =>
      have parsed : Encoding.parse raw = some (encoding, text) := by
        rw [Item.raw?, AttributeValue.classify] at literal
        split at literal
        · cases literal
        · cases literal
          assumption
      have inside := Encoding.mem_of_parse parsed hc
      simp [TagText.text, openTagText, TagText.attributes, split, itemsText_append, itemsText,
        Item.text, inside]

namespace Edit

theorem foldl_distinct (classes seen : List Bytes) :
    classes.foldl (fun seen c => if seen.contains c then seen else seen ++ [c]) seen =
      seen ++ (classes.removeAll seen).eraseDups := by
  induction classes generalizing seen with
  | nil => simp
  | cons c rest ih =>
      rw [List.foldl_cons, ih, List.cons_removeAll]
      by_cases known : seen.contains c = true
      · simp only [known, if_true, Bool.true_eq_false, if_false]
      · have fresh : seen.contains c = false := by simpa using known
        have passed : rest.removeAll (seen ++ [c]) =
            (rest.removeAll seen).filter (fun b => !b == c) := by
          rw [List.removeAll, List.removeAll, List.filter_filter]
          congr 1
          funext b
          by_cases same : b = c
          · simp [same]
          · simp [same]
        simp only [fresh, Bool.false_eq_true, if_false, if_true, List.eraseDups_cons, passed,
          List.append_assoc, List.singleton_append]

theorem distinct_eq (classes : List Bytes) : distinct classes = classes.eraseDups := by
  have whole : classes.removeAll [] = classes := List.removeAll_nil
  rw [distinct, foldl_distinct, whole, List.nil_append]

section

variable {text id classes : Bytes} {tag : OpenTag} {current : Option Bytes}
  (located : locateTag? text id = some tag)

theorem currentClasses_eq_ok (h : currentClasses text id tag = .ok current) :
    current = Classes.literal? (tag.attributes text) := by
  simp only [currentClasses] at h
  split at h
  next classes read =>
    cases h
    exact read.symm
  next absent =>
    split at h
    · cases h
    · cases h
      exact absent.symm

include located

theorem classWords_eq (h : currentClasses text id tag = .ok current) :
    classWords text id = (current.getD []).words := by
  rw [classWords, readClasses?, located, Option.bind_some, currentClasses_eq_ok h]

theorem addClass_eq (h : currentClasses text id tag = .ok current) :
    addClass text id classes =
      if ∀ w ∈ classes.words, w ∈ classWords text id then .ok []
      else setClassesOf text id tag
        (Bytes.unwords (classWords text id ++ classes.words).eraseDups) := by
  rw [addClass, findTag_eq_ok.2 located]
  simp only [bind, Except.bind, h, ← classWords_eq located h, ← distinct_eq]
  congr 1
  simp

theorem removeClass_eq (h : currentClasses text id tag = .ok current) :
    removeClass text id classes =
      if ∃ w ∈ classWords text id, w ∈ classes.words then
        setClassesOf text id tag
          (Bytes.unwords ((classWords text id).removeAll classes.words).eraseDups)
      else .ok [] := by
  rw [removeClass, findTag_eq_ok.2 located]
  simp only [bind, Except.bind, h, classWords_eq located h, ← distinct_eq]
  cases current with
  | none =>
      have none : ((Option.none : Option Bytes).getD []).words = [] := by
        rw [Option.getD_none, Bytes.words_nil]
      rw [none, if_neg (by simp)]
      rfl
  | some list =>
      have same : (list.words.filter fun c => !classes.words.contains c) =
          list.words.removeAll classes.words := rfl
      dsimp only [Option.getD_some]
      rw [same]
      congr 1
      simp

end

end Edit

theorem ClassSetting.classWords_text {tag : TagText} {ws : List Bytes} {id p s : Bytes}
    (set : ClassSetting tag (Bytes.unwords ws)) (words : ∀ w ∈ ws, Bytes.IsWord w)
    (located : locateTag? (set.text p s) id = some (set.result.reading p.length)) :
    classWords (set.text p s) id = ws := by
  rw [classWords, set.readClasses?_text located, Option.getD_some, Bytes.words_unwords words]

/-- An edit of the classes of a tag as written that holds at most one class attribute, where all
words concerned can stand between double quotes. -/
structure ClassEdit (tag : TagText) (id p s classes : Bytes) where
  place : MarkerPlace tag id
  clear : Byte.less ∉ place.lead
  plain : tag.Plain
  once : Bytes.times (Marker.ofId id) (p ++ (tag.text ++ s)) = 1
  single : tag.ClassedOnce
  known : ∀ w ∈ classWords (p ++ (tag.text ++ s)) id, Encoding.Quotable w
  named : ∀ w ∈ classes.words, Encoding.Quotable w

namespace ClassEdit

variable {tag : TagText} {id p s classes new : Bytes} (edit : ClassEdit tag id p s classes)

def source (_ : ClassEdit tag id p s classes) : Bytes := p ++ (tag.text ++ s)

include edit

theorem located : locateTag? edit.source id = some (tag.reading p.length) :=
  locateTag?_markerPlace edit.place edit.clear p s edit.once

/-- A tag whose class list was set is located where it was, or at least if it is so. -/
theorem located_text {list : Bytes} (set : ClassSetting tag list)
    (quotable : Encoding.Quotable list)
    (stays : Byte.equals ∉ id ∨ (locateTag? (set.text p s) id).map (·.start) = some p.length) :
    locateTag? (set.text p s) id = some (set.result.reading p.length) := by
  rcases stays with noEquals | start
  · exact set.setting.locate_quiet quotable.toQuiet (Edit.className_ne set.name) edit.plain
      edit.clear noEquals edit.once
  · exact TagText.locateTag?_at start

theorem quotable_joined :
    ∀ w ∈ (classWords edit.source id ++ classes.words).eraseDups, Encoding.Quotable w := by
  intro w mem
  rcases List.mem_append.1 (List.mem_eraseDups.1 mem) with known | named
  · exact edit.known w known
  · exact edit.named w named

/-- An accepted edit was not stopped by a class attribute that is bound to an expression. -/
theorem current_of_bind {f : OpenTag → Option Bytes → Plan} {patches : List Patch}
    (planned : (findTag edit.source id >>= fun tag =>
      Edit.currentClasses edit.source id tag >>= f tag) = .ok patches) :
    ∃ current, Edit.currentClasses edit.source id (tag.reading p.length) = .ok current := by
  obtain ⟨tag', found, accepted⟩ := bind_eq_ok.1 planned
  obtain ⟨current, read, -⟩ := bind_eq_ok.1 accepted
  obtain rfl : tag.reading p.length = tag' :=
    Option.some.inj (edit.located.symm.trans (findTag_eq_ok.1 found))
  exact ⟨current, read⟩

end ClassEdit

/-- Adding classes: the words are those there were and those that were named; where the text
changed, the old ones stand first, each once. The same edit changes nothing more, and removing
what was not there before leads back to the old words, the element keeping its place at `start`. -/
structure AddsClasses (source new id classes : Bytes) (start : Nat) : Prop where
  words : ∀ w, w ∈ classWords new id ↔ w ∈ classWords source id ∨ w ∈ classes.words
  order : new ≠ source → classWords new id =
    (classWords source id).eraseDups ++
      (classes.words.removeAll (classWords source id)).eraseDups
  again : (Edit.addClass new id classes).map new.patch = .ok new
  undone : (∀ w ∈ classes.words, w ∉ classWords source id) →
    ∃ back, (Edit.removeClass new id classes).map new.patch = .ok back ∧
      (Byte.equals ∉ id ∨ (locateTag? back id).map (·.start) = some start →
        ∀ w, w ∈ classWords back id ↔ w ∈ classWords source id)

/-- Removing classes: the words are the old ones without those that were named, each once if the
text changed. The same edit changes nothing more. -/
structure RemovesClasses (source new id classes : Bytes) : Prop where
  unchanged : new = source → classWords new id = (classWords source id).removeAll classes.words
  changed : new ≠ source →
    classWords new id = ((classWords source id).removeAll classes.words).eraseDups
  again : (Edit.removeClass new id classes).map new.patch = .ok new

theorem mem_removeAll {ws removed : List Bytes} {w : Bytes} :
    w ∈ ws.removeAll removed ↔ w ∈ ws ∧ w ∉ removed := by
  simp [List.removeAll]

namespace ClassEdit

variable {tag : TagText} {id p s classes new : Bytes} (edit : ClassEdit tag id p s classes)

include edit

theorem addsClasses_unchanged {current : Option Bytes}
    (read : Edit.currentClasses edit.source id (tag.reading p.length) = .ok current)
    (all : ∀ w ∈ classes.words, w ∈ classWords edit.source id) (start : Nat) :
    AddsClasses edit.source edit.source id classes start where
  words w := by
    constructor
    · exact .inl
    · rintro (known | named)
      · exact known
      · exact all w named
  order changed := absurd rfl changed
  again := by
    rw [Edit.addClass_eq edit.located read, if_pos all]
    rfl
  undone fresh := by
    refine ⟨edit.source, ?_, fun _ w => .rfl⟩
    rw [Edit.removeClass_eq edit.located read, if_neg]
    · rfl
    · rintro ⟨w, known, named⟩
      exact fresh w named known

theorem addsClasses_set (missing : ∃ w ∈ classes.words, w ∉ classWords edit.source id)
    (set : ClassSetting tag (Bytes.unwords (classWords edit.source id ++ classes.words).eraseDups))
    (located : locateTag? (set.text p s) id = some (set.result.reading p.length)) :
    AddsClasses edit.source (set.text p s) id classes p.length := by
  have isWord : ∀ w ∈ (classWords edit.source id ++ classes.words).eraseDups, Bytes.IsWord w := by
    intro w mem
    rcases List.mem_append.1 (List.mem_eraseDups.1 mem) with known | named
    · exact Bytes.isWord_of_mem_words known
    · exact Bytes.isWord_of_mem_words named
  have words := set.classWords_text isWord located
  have mem_words (w : Bytes) : w ∈ classWords (set.text p s) id ↔
      w ∈ classWords edit.source id ∨ w ∈ classes.words := by
    rw [words, List.mem_eraseDups, List.mem_append]
  have read : Edit.currentClasses (set.text p s) id (set.result.reading p.length) = .ok (some _) :=
    set.currentClasses_text
  refine ⟨mem_words, fun _ => by rw [words, List.eraseDups_append], ?_, fun fresh => ?_⟩
  · rw [Edit.addClass_eq located read, if_pos fun w named => (mem_words w).2 (.inr named)]
    rfl
  · have some' : ∃ w ∈ classWords (set.text p s) id, w ∈ classes.words := by
      obtain ⟨w, named, -⟩ := missing
      exact ⟨w, (mem_words w).2 (.inr named), named⟩
    have quotable : Encoding.Quotable
        (Bytes.unwords ((classWords (set.text p s) id).removeAll classes.words).eraseDups) := by
      refine .unwords fun w mem => edit.quotable_joined w ?_
      rw [← words]
      exact (mem_removeAll.1 (List.mem_eraseDups.1 mem)).1
    refine ⟨(set.other quotable).text p s, ?_, fun stays w => ?_⟩
    · rw [Edit.removeClass_eq located read, if_pos some', set.setClassesOf_text]
      exact congrArg Except.ok (set.replace_text quotable)
    · have back := edit.located_text (set.other quotable) quotable stays
      rw [(set.other quotable).classWords_text ?_ back]
      · rw [List.mem_eraseDups, mem_removeAll, mem_words]
        constructor
        · rintro ⟨known | named, other⟩
          · exact known
          · exact absurd named other
        · exact fun known => ⟨.inl known, fun named => fresh w named known⟩
      · intro w mem
        exact Bytes.isWord_of_mem_words (mem_removeAll.1 (List.mem_eraseDups.1 mem)).1

theorem removesClasses_unchanged {current : Option Bytes}
    (read : Edit.currentClasses edit.source id (tag.reading p.length) = .ok current)
    (none : ∀ w ∈ classWords edit.source id, w ∉ classes.words) :
    RemovesClasses edit.source edit.source id classes where
  unchanged _ := by
    refine (List.filter_eq_self.2 fun w known => ?_).symm
    simpa using none w known
  changed changed := absurd rfl changed
  again := by
    rw [Edit.removeClass_eq edit.located read, if_neg]
    · rfl
    · rintro ⟨w, known, named⟩
      exact none w known named

theorem removesClasses_set (present : ∃ w ∈ classWords edit.source id, w ∈ classes.words)
    (set : ClassSetting tag
      (Bytes.unwords ((classWords edit.source id).removeAll classes.words).eraseDups))
    (located : locateTag? (set.text p s) id = some (set.result.reading p.length)) :
    RemovesClasses edit.source (set.text p s) id classes := by
  have kept {w : Bytes}
      (mem : w ∈ ((classWords edit.source id).removeAll classes.words).eraseDups) :
      w ∈ classWords edit.source id ∧ w ∉ classes.words :=
    mem_removeAll.1 (List.mem_eraseDups.1 mem)
  have words := set.classWords_text (fun w mem => Bytes.isWord_of_mem_words (kept mem).1) located
  refine ⟨fun same => ?_, fun _ => words, ?_⟩
  · -- A word that was there is there no more.
    obtain ⟨w, known, named⟩ := present
    rw [← same, words] at known
    exact absurd named (kept known).2
  · have read : Edit.currentClasses (set.text p s) id (set.result.reading p.length) =
        .ok (some _) := set.currentClasses_text
    rw [Edit.removeClass_eq located read, if_neg]
    · rfl
    · rintro ⟨w, mem, named⟩
      rw [words] at mem
      exact (kept mem).2 named

/-- Adding and removing classes, as long as the element keeps its place. -/
theorem operations
    (stays : Byte.equals ∉ id ∨ (locateTag? new id).map (·.start) = some p.length) :
    ((Edit.addClass edit.source id classes).map edit.source.patch = .ok new →
      AddsClasses edit.source new id classes p.length) ∧
    ((Edit.removeClass edit.source id classes).map edit.source.patch = .ok new →
      RemovesClasses edit.source new id classes) := by
  constructor
  · intro edited
    obtain ⟨patches, planned, rfl⟩ := map_eq_ok.1 edited
    obtain ⟨current, read⟩ := edit.current_of_bind planned
    rw [Edit.addClass_eq edit.located read] at planned
    split at planned
    next all =>
      cases planned
      exact edit.addsClasses_unchanged read all p.length
    next missing =>
      obtain ⟨set, text⟩ := Edit.setClassesOf_setting (.unwords edit.quotable_joined) edit.single
        edit.place.lookup_ne_none planned
      rw [source, text] at stays ⊢
      have quotable := Encoding.Quotable.unwords edit.quotable_joined
      exact edit.addsClasses_set (by simpa using missing) set
        (edit.located_text set quotable stays)
  · intro edited
    obtain ⟨patches, planned, rfl⟩ := map_eq_ok.1 edited
    obtain ⟨current, read⟩ := edit.current_of_bind planned
    rw [Edit.removeClass_eq edit.located read] at planned
    split at planned
    next present =>
      have quotable : Encoding.Quotable
          (Bytes.unwords ((classWords edit.source id).removeAll classes.words).eraseDups) :=
        .unwords fun w mem => edit.known w (mem_removeAll.1 (List.mem_eraseDups.1 mem)).1
      obtain ⟨set, text⟩ := Edit.setClassesOf_setting quotable edit.single
        edit.place.lookup_ne_none planned
      rw [source, text] at stays ⊢
      exact edit.removesClasses_set present set (edit.located_text set quotable stays)
    next absent =>
      cases planned
      exact edit.removesClasses_unchanged read (by simpa using absent)

end ClassEdit

theorem MarkerPlace.mem_tail {tag : TagText} {id : Bytes} (place : MarkerPlace tag id) {c : UInt8}
    (mem : c ∈ place.lead) : c ∈ tag.text.tail := by
  rw [place.text_eq, List.tail_cons]
  exact List.mem_append_left _ mem

/-- Let a tag without spread blocks, and without `<` and backslash behind its first byte, carry a
marker that stands in the text once, and let it have at most one class attribute, whose list holds
no double quote. For words that can stand between double quotes, adding and removing classes are
operations on the words of the list, if the id holds no `=`, and for any other id as long as the
element is still located where it was. -/
theorem classEdits_setOperations {tag : TagText} {id : Bytes} (place : MarkerPlace tag id)
    (plain : tag.Plain) (p s : Bytes)
    (once : Bytes.times (Marker.ofId id) (p ++ (tag.text ++ s)) = 1)
    (bytes : ∀ c ∈ tag.text.tail, c ≠ Byte.less ∧ c ≠ Byte.backslash) (single : tag.ClassedOnce)
    (quoteless : ∀ list, readClasses? (p ++ (tag.text ++ s)) id = some list →
      Byte.doubleQuote ∉ list)
    {classes new : Bytes} (named : ∀ w ∈ classes.words, Encoding.Quotable w)
    (stays : Byte.equals ∉ id ∨ (locateTag? new id).map (·.start) = some p.length) :
    ((Edit.addClass (p ++ (tag.text ++ s)) id classes).map (p ++ (tag.text ++ s)).patch = .ok new →
      AddsClasses (p ++ (tag.text ++ s)) new id classes p.length) ∧
    ((Edit.removeClass (p ++ (tag.text ++ s)) id classes).map (p ++ (tag.text ++ s)).patch =
        .ok new →
      RemovesClasses (p ++ (tag.text ++ s)) new id classes) := by
  have clear : Byte.less ∉ place.lead := fun mem => (bytes _ (place.mem_tail mem)).1 rfl
  have located := locateTag?_markerPlace place clear p s once
  have known : ∀ w ∈ classWords (p ++ (tag.text ++ s)) id, Encoding.Quotable w := by
    intro w mem
    rw [classWords] at mem
    cases read : readClasses? (p ++ (tag.text ++ s)) id with
    | none =>
        rw [read, Option.getD_none, Bytes.words_nil] at mem
        cases mem
    | some list =>
        have quotes := quoteless list read
        rw [read, Option.getD_some] at mem
        rw [readClasses?, located, Option.bind_some, tag.attributes_in] at read
        obtain ⟨⟨a, text⟩, chosen, rfl⟩ := Option.map_eq_some_iff.1 read
        obtain ⟨written, encoding, literal⟩ := Edit.choose?_literal chosen
        have inside {c : UInt8} (hc : c ∈ text) :=
          bytes c (TagText.mem_of_literal written literal hc)
        have quotable : Encoding.Quotable text :=
          ⟨⟨fun mem => (inside mem).1 rfl, quotes⟩, fun mem => (inside mem).2 rfl⟩
        exact quotable.mono fun c hc => Bytes.mem_of_mem_words mem hc
  let edit : ClassEdit tag id p s classes := ⟨place, clear, plain, once, single, known, named⟩
  exact edit.operations stays

/-- The items of `<p class='b c b' data-eid="a">`. -/
def classedItems : List SpacedItem :=
  [([Byte.space], .quoted Byte.singleQuote (utf8 "class") (utf8 "b c b")),
    ([Byte.space], markerItem (utf8 "a"))]

theorem classedItems_valid : ∀ x ∈ classedItems, SpacedItem.Valid x := by
  have blank : AllBlank [Byte.space] := by decide
  have list : QuotedText Byte.singleQuote (utf8 "b c b") := .ofBytes (by decide)
  have marked : QuotedText Byte.doubleQuote (utf8 "a") := .ofBytes (by decide)
  intro x mem
  simp only [classedItems, List.mem_cons, List.not_mem_nil, or_false] at mem
  obtain rfl | rfl := mem
  · exact ⟨List.cons_ne_nil _ _, blank, Item.valid_quoted rfl (by decide) list⟩
  · exact ⟨List.cons_ne_nil _ _, blank, Item.valid_quoted rfl isItemName_attributeName marked⟩

def classedTag : TagText where
  name := utf8 "p"
  items := classedItems
  gap := []
  slashed := false
  isName := markedParagraph.isName
  valid := classedItems_valid
  blank := .nil

def classedPlace : MarkerPlace classedTag (utf8 "a") :=
  ⟨[([Byte.space], .quoted Byte.singleQuote (utf8 "class") (utf8 "b c b"))], [Byte.space], [], rfl⟩

/-- The classes `b`, `c`, `b`: adding two of which one is there, and removing one. -/
theorem classedTag_edited :
    let source := utf8 "<q '" ++ (classedTag.text ++ utf8 "</q>")
    let added := utf8 "<q '<p class=\"b c d\" data-eid=\"a\"></q>"
    let removed := utf8 "<q '<p class=\"c\" data-eid=\"a\"></q>"
    classedTag.Plain ∧ Bytes.times (Marker.ofId (utf8 "a")) source = 1 ∧
      (∀ c ∈ classedTag.text.tail, c ≠ Byte.less ∧ c ≠ Byte.backslash) ∧ classedTag.ClassedOnce ∧
      readClasses? source (utf8 "a") = some (utf8 "b c b") ∧
      (Edit.addClass source (utf8 "a") (utf8 "c d")).map source.patch = .ok added ∧
      AddsClasses source added (utf8 "a") (utf8 "c d") 4 ∧
      (Edit.removeClass source (utf8 "a") (utf8 "b")).map source.patch = .ok removed ∧
      RemovesClasses source removed (utf8 "a") (utf8 "b") := by
  intro source added removed
  have plain : classedTag.Plain := by decide
  have once : Bytes.times (Marker.ofId (utf8 "a")) source = 1 := by decide +kernel
  have bytes : ∀ c ∈ classedTag.text.tail, c ≠ Byte.less ∧ c ≠ Byte.backslash := by decide +kernel
  have single : classedTag.ClassedOnce := by decide
  have read : readClasses? source (utf8 "a") = some (utf8 "b c b") := by decide +kernel
  have quoteless : ∀ list, readClasses? source (utf8 "a") = some list →
      Byte.doubleQuote ∉ list := by
    intro list same
    obtain rfl : utf8 "b c b" = list := Option.some.inj (read.symm.trans same)
    decide
  have add : (Edit.addClass source (utf8 "a") (utf8 "c d")).map source.patch = .ok added := by
    decide +kernel
  have remove : (Edit.removeClass source (utf8 "a") (utf8 "b")).map source.patch =
      .ok removed := by decide +kernel
  have quotable {classes : Bytes} (whole : Encoding.Quotable classes) :
      ∀ w ∈ classes.words, Encoding.Quotable w :=
    fun w mem => whole.mono fun c hc => Bytes.mem_of_mem_words mem hc
  have noEquals : Byte.equals ∉ utf8 "a" := by decide
  exact ⟨plain, once, bytes, single, read, add,
    (classEdits_setOperations classedPlace plain _ _ once bytes single quoteless
      (quotable (.ofBytes (by decide))) (.inl noEquals)).1 add, remove,
    (classEdits_setOperations classedPlace plain _ _ once bytes single quoteless
      (quotable (.ofBytes (by decide))) (.inl noEquals)).2 remove⟩

/-- The items of `<p a=" data-eid=" class='x' data-eid=" class=">`. The end of the first value and
the name behind it would make a marker, if the class list stood between double quotes. -/
def nearlyMarkedClassItems : List SpacedItem :=
  [([Byte.space], .quoted Byte.doubleQuote (utf8 "a") (utf8 " data-eid=")),
    ([Byte.space], .quoted Byte.singleQuote (utf8 "class") (utf8 "x")),
    ([Byte.space], markerItem (utf8 " class="))]

theorem nearlyMarkedClassItems_valid : ∀ x ∈ nearlyMarkedClassItems, SpacedItem.Valid x := by
  have blank : AllBlank [Byte.space] := by decide
  have first : QuotedText Byte.doubleQuote (utf8 " data-eid=") := .ofBytes (by decide)
  have list : QuotedText Byte.singleQuote (utf8 "x") := .ofBytes (by decide)
  have last : QuotedText Byte.doubleQuote (utf8 " class=") := .ofBytes (by decide)
  intro x mem
  simp only [nearlyMarkedClassItems, List.mem_cons, List.not_mem_nil, or_false] at mem
  obtain rfl | rfl | rfl := mem
  · exact ⟨List.cons_ne_nil _ _, blank, Item.valid_quoted rfl (by decide) first⟩
  · exact ⟨List.cons_ne_nil _ _, blank, Item.valid_quoted rfl (by decide) list⟩
  · exact ⟨List.cons_ne_nil _ _, blank, Item.valid_quoted rfl isItemName_attributeName last⟩

def nearlyMarkedClass : TagText where
  name := utf8 "p"
  items := nearlyMarkedClassItems
  gap := []
  slashed := false
  isName := markedParagraph.isName
  valid := nearlyMarkedClassItems_valid
  blank := .nil

/-- An id with a `=`. The edit writes the class list between double quotes; this makes a second
marker, in front of the old one, and the tag that begins earlier owns it. That tag has no class. -/
theorem equals_in_id_loses_classes :
    let source := utf8 "<q b=\"" ++ (nearlyMarkedClass.text ++ utf8 "\">")
    let new := utf8 "<q b=\"<p a=\" data-eid=\" class=\"x y\" data-eid=\" class=\">\">"
    nearlyMarkedClass.Plain ∧ nearlyMarkedClass.Carries (utf8 " class=") ∧
      (locate? source (utf8 " class=")).map (·.start) = some 6 ∧
      Bytes.times (Marker.ofId (utf8 " class=")) source = 1 ∧
      (∀ c ∈ nearlyMarkedClass.text.tail, c ≠ Byte.less ∧ c ≠ Byte.backslash) ∧
      nearlyMarkedClass.ClassedOnce ∧ readClasses? source (utf8 " class=") = some (utf8 "x") ∧
      (Edit.addClass source (utf8 " class=") (utf8 "y")).map source.patch = .ok new ∧
      classWords source (utf8 " class=") = [utf8 "x"] ∧ classWords new (utf8 " class=") = [] := by
  intro source new
  refine ⟨by decide, ⟨[Byte.space], ?_⟩, by decide +kernel, by decide +kernel, by decide +kernel,
    by decide, by decide +kernel, by decide +kernel, by decide +kernel, by decide +kernel⟩
  exact List.mem_cons_of_mem _ (List.mem_cons_of_mem _ List.mem_cons_self)

end MarkupEdit
