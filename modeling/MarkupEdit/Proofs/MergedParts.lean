import MarkupEdit.Proofs.AttributeRemoval

/-!
Parts of a tag that come to stand at each other and go on with each other. The name of the tag
grows, or two names become one, or a value takes in what stands behind it, or the slash at the end
of a value ends the tag. In each case something other than what was taken away is read differently.
-/

namespace MarkupEdit

theorem name_openTag? {i : Nat} {s : Bytes} {tag : OpenTag} (h : Scan.openTag? i s = some tag) :
    tag.name = s.takeWhile isNameByte := by
  rw [Scan.openTag?.eq_def] at h
  split at h
  · cases h
  next c t =>
    split at h
    next letter =>
      dsimp only at h
      split at h
      · cases h
      · cases h
        have first : isNameByte c = true := by simp [isNameByte, Byte.isAlphanumeric, letter]
        rw [List.takeWhile_cons_of_pos first]
    · cases h

/-- A name that goes on is read as another one. -/
theorem name_grows {p name r : Bytes} (isName : IsTagName name) {c : UInt8}
    (goesOn : isNameByte c = true) {tag : OpenTag}
    (opens : Units.openTag? (p ++ Byte.less :: (name ++ c :: r)) p.length = some tag) :
    tag.name ≠ name := by
  obtain ⟨t, rest, opened⟩ := Units.openTag?_eq_some_iff.1 opens
  rw [List.drop_left] at rest
  obtain ⟨-, rfl⟩ := List.cons.inj rest
  rw [name_openTag? opened, List.takeWhile_append_of_pos isName.all,
    List.takeWhile_cons_of_pos goesOn]
  intro same
  have width := congrArg List.length same
  rw [List.length_append, List.length_cons] at width
  omega

/-- What may stand where a value without delimiters is read: it, or the end of the tag. -/
def beginsWord (c : UInt8) : Bool := isWordByte c || c == Byte.greater

theorem opensValue_of_beginsWord {c : UInt8} (h : beginsWord c = true) :
    Attribute.opensValue c = false := by
  rw [beginsWord, Bool.or_eq_true, beq_iff_eq] at h
  rcases h with word | rfl
  · exact opensValue_of_word word
  · decide

theorem isBlank_of_beginsWord {c : UInt8} (h : beginsWord c = true) : Byte.isBlank c = false := by
  rw [beginsWord, Bool.or_eq_true, beq_iff_eq] at h
  rcases h with word | rfl
  · exact isBlank_of_word word
  · decide

/-- A value without delimiters is read up to white space or the end of the tag. -/
theorem valueEnd_limit {u s : Bytes} (begins : ∀ c, (u ++ s).head? = some c → beginsWord c = true)
    (i : Nat) :
    Attribute.valueEnd (i + u.length) i (u ++ s) =
      some (i + (u.takeWhile (!Byte.isBlank ·)).length) := by
  cases whole : u ++ s with
  | nil =>
      obtain ⟨rfl, -⟩ := List.append_eq_nil_iff.1 whole
      rw [Attribute.valueEnd]
      rfl
  | cons c t =>
      have bare := opensValue_of_beginsWord (begins c (by rw [whole]; rfl))
      rw [Attribute.valueEnd_run bare, ← whole, Nat.add_sub_cancel_left, List.take_left]

section

variable {items : List SpacedItem} {gap label before after u : Bytes}

/-- Items, and a name with a value up to the end. -/
def valueLast (items : List SpacedItem) (gap label before after u : Bytes) : Bytes :=
  itemsText items ++ (gap ++ (label ++ (before ++ Byte.equals :: (after ++ u))))

variable (valid : ∀ x ∈ items, SpacedItem.Loose x) (hgap : AllBlank gap)
  (isLabel : IsItemName label) (hbefore : AllBlank before) (hafter : AllBlank after)
  (apart : Separate .name (items ++ [(gap, .flag label)]))

include valid hgap isLabel hbefore hafter apart

theorem scan_valueLast (unnamed : lookup? items label = none) (i : Nat) {s : Bytes}
    (begins : ∀ c, (u ++ s).head? = some c → beginsWord c = true) :
    ((Attribute.scan (i + (valueLast items gap label before after u).length) i
      (valueLast items gap label before after u ++ s)).find? (·.name = label)).map (·.classify) =
        some (.classify (some (u.takeWhile (!Byte.isBlank ·)))) := by
  let w := u.takeWhile (!Byte.isBlank ·)
  let d := u.dropWhile (!Byte.isBlank ·)
  let j := i + (itemsText items).length + gap.length
  let limit := j + label.length + before.length + 1 + after.length + u.length
  have parts : u = w ++ d := List.takeWhile_append_dropWhile.symm
  have width : i + (valueLast items gap label before after u).length = limit := by
    simp only [valueLast, List.length_append, List.length_cons, limit, j]
    omega
  have text : valueLast items gap label before after u ++ s =
      itemsText items ++ (gap ++ ((Item.valued label before after w).text ++ (d ++ s))) := by
    conv_lhs => rw [valueLast, parts]
    simp [Item.text]
  have shorter : w.length ≤ u.length := by
    rw [parts, List.length_append]
    omega
  have itemWidth : j + (Item.valued label before after w).text.length ≤ limit := by
    simp only [Item.length_text_valued, limit]
    omega
  have ended : Attribute.valueEnd limit (j + label.length + before.length + 1 + after.length)
      (w ++ (d ++ s)) = some (j + label.length + before.length + 1 + after.length + w.length) := by
    rw [← List.append_assoc, ← parts]
    exact valueEnd_limit begins _
  have value := Attribute.rawValue?_value hbefore hafter
    (fun c hc => isBlank_of_beginsWord (begins c (by
      rwa [← List.append_assoc, ← parts] at hc)))
    (by omega) ended
  obtain ⟨separate, ⟨apart, -⟩⟩ := separate_append.1 apart
  obtain ⟨c, t, rfl⟩ := List.exists_cons_of_ne_nil isLabel.1
  have first := isLabel.2 c List.mem_cons_self
  have here : ∀ e, (gap ++ ((Item.valued (c :: t) before after w).text ++ (d ++ s))).head? =
      some e → (Edge.name.behind items).goesOn e = false := by
    intro e he
    have head : (gap ++ (Item.flag (c :: t)).text).head? = some e := by
      rw [← he]
      cases gap <;> rfl
    rwa [head, Option.any_some] at apart
  have ahead : Attribute.Ahead limit (i + (itemsText items).length)
      (gap ++ ((Item.valued (c :: t) before after w).text ++ (d ++ s))) := by
    refine ⟨gap, _, rfl, hgap, by omega, .inr ⟨c, _, rfl, ?_, ?_⟩⟩
    · simp_all [isItemNameByte, Attribute.isAttributeNameByte]
    · rintro rfl
      exact absurd first (by decide)
  rw [width, text, scan_in_front valid separate (by omega) (.inr here) ahead,
    Attribute.scan_blanks hgap _ (by omega),
    Attribute.scan_valued isLabel hbefore itemWidth value, List.find?_append,
    find?_eq_none_of_lookup? unnamed, Option.none_or, List.find?_cons_of_pos (by simp)]
  rfl

theorem read_valueLast (unnamed : lookup? items label = none) {name p s id : Bytes}
    {slashed : Bool} (isName : IsTagName name)
    (markup : Markup .attributes (valueLast items gap label before after u))
    (bounded : Bounded (valueLast items gap label before after u) slashed)
    (begins : ∀ c, u.head? = some c → beginsWord c = true)
    (located : (locateTag? (p ++ (openTagText name (valueLast items gap label before after u)
      slashed ++ s)) id).map (·.start) = some p.length) :
    readAttribute? (p ++ (openTagText name (valueLast items gap label before after u)
      slashed ++ s)) id label = some (.classify (some (u.takeWhile (!Byte.isBlank ·)))) := by
  let attributes := valueLast items gap label before after u
  let tag : OpenTag := ⟨p.length, name, p.length + 1 + name.length + attributes.length, slashed⟩
  have opens := openTag?_in_context isName markup bounded p s
  have found : locateTag? (p ++ (openTagText name attributes slashed ++ s)) id = some tag := by
    rw [locateTag?_of_start located, opens]
  have behindName : (p ++ (openTagText name attributes slashed ++ s)).drop tag.start =
      Byte.less :: (name ++ (attributes ++ (tagEnding slashed ++ s))) := by
    rw [List.drop_left, Scan.openTagText_append]
  have nameEnd : tag.nameEnd - tag.start = name.length + 1 := by
    simp only [OpenTag.nameEnd, tag]
    omega
  have ends : ∀ c, (u ++ (tagEnding slashed ++ s)).head? = some c → beginsWord c = true := by
    cases u with
    | nil =>
        intro c hc
        rw [List.nil_append, Scan.head?_tagEnding] at hc
        cases slashed <;> cases hc <;> decide
    | cons d u => exact begins
  rw [readAttribute?, found, Option.bind_some, OpenTag.attributes, OpenTag.attributesIn, behindName,
    nameEnd, List.drop_succ_cons, List.drop_left]
  exact scan_valueLast valid hgap isLabel hbefore hafter apart unnamed _ ends

omit apart in
theorem markup_valueLast (markup : Markup .attributes u) :
    Markup .attributes (valueLast items gap label before after u) := by
  refine itemsText_markup valid ?_
  apply Markup.attributesBytes fun c hc => isPlain_of_isBlank (hgap c hc)
  apply Markup.attributesBytes fun c hc => isPlain_of_isItemNameByte (isLabel.2 c hc)
  apply Markup.attributesBytes fun c hc => isPlain_of_isBlank (hbefore c hc)
  apply Markup.attributesByte (by decide)
  exact .attributesBytes (fun c hc => isPlain_of_isBlank (hafter c hc)) markup

omit hbefore hafter in
theorem bounded_valueLast {slashed : Bool}
    (unslashed : slashed = false →
      (valueLast items gap label before after u).getLast? ≠ some Byte.slash) :
    Bounded (valueLast items gap label before after u) slashed where
  apart c hc := by
    have loose : ∀ x ∈ items ++ [(gap, .flag label)], SpacedItem.Loose x := by
      rintro x mem
      rcases List.mem_append.1 mem with mem | mem
      · exact valid x mem
      · obtain rfl := List.mem_singleton.1 mem
        exact ⟨hgap, isLabel⟩
    have first : (itemsText (items ++ [(gap, .flag label)]) ++
        (before ++ Byte.equals :: (after ++ u))).head? = some c := by
      rw [← hc]
      simp [valueLast, itemsText_append, itemsText, Item.text]
    cases whole : items ++ [(gap, .flag label)] with
    | nil => simp at whole
    | cons x rest =>
        rw [whole] at apart loose first
        exact apart.head (loose x List.mem_cons_self).item first
  unslashed := unslashed

end

/-- Values without delimiters that differ are read differently. -/
theorem classify_ne {v w : Bytes} (ne : v ≠ []) (word : ∀ c ∈ v, isWordByte c = true)
    (begins : ∀ c, w.head? = some c → beginsWord c = true) (other : w ≠ v) :
    AttributeValue.classify (some w) ≠ .classify (some v) := by
  have plain {c : UInt8} {t : Bytes} (bare : Attribute.opensValue c = false) :
      AttributeValue.classify (some (c :: t)) = .literal .unquoted (c :: t) := by
    simp only [Attribute.opensValue, Bool.or_eq_false_iff, beq_eq_false_iff_ne] at bare
    simp [AttributeValue.classify, Encoding.parse, bare]
  obtain ⟨c, v, rfl⟩ := List.exists_cons_of_ne_nil ne
  rw [plain (opensValue_of_word (word c List.mem_cons_self))]
  cases w with
  | nil =>
      intro same
      cases same
  | cons d w =>
      rw [plain (opensValue_of_beginsWord (begins d rfl))]
      rintro ⟨⟩
      exact other rfl

def Item.prepend (front : Bytes) : Item → Item
  | .spread body => .spread body
  | .flag name => .flag (front ++ name)
  | .valued name before after value => .valued (front ++ name) before after value

section

variable {front : Bytes} {item : Item}

theorem Item.text_prepend {c : UInt8} {t : Bytes} (text : item.text = c :: t)
    (goesOn : Attribute.isAttributeNameByte c = true) :
    (item.prepend front).text = front ++ item.text := by
  cases item with
  | spread body =>
      obtain rfl : Byte.openBrace = c := (List.cons.inj text).1
      exact absurd goesOn (by decide)
  | flag name => rfl
  | valued name before after value => simp [prepend, Item.text]

theorem Item.edge_prepend : (item.prepend front).edge = item.edge := by
  cases item <;> rfl

variable (loose : item.Loose)

include loose

theorem Item.loose_prepend (bytes : ∀ b ∈ front, isItemNameByte b = true) :
    (item.prepend front).Loose := by
  have longer {name : Bytes} (isName : IsItemName name) : IsItemName (front ++ name) :=
    ⟨List.append_ne_nil_of_right_ne_nil _ isName.1, List.forall_mem_append.2 ⟨bytes, isName.2⟩⟩
  cases item with
  | spread body => exact loose
  | flag name => exact longer loose
  | valued name before after value => exact ⟨longer loose.1, loose.2⟩

theorem Item.name_prepend : (item.prepend front).name? ≠ some front := by
  have longer {name : Bytes} (isName : IsItemName name) : front ++ name ≠ front :=
    fun same => isName.1 (by simpa using same)
  cases item with
  | spread body => nofun
  | flag name => exact fun same => longer loose (Option.some.inj same)
  | valued name before after value => exact fun same => longer loose.1 (Option.some.inj same)

end

/-- The tag that a tag is read as when a name without a value goes on with the item behind it. -/
def LooseTag.merge (tag : LooseTag) {front rest : List SpacedItem} {blank label : Bytes}
    {next : Item} (items : tag.items = front ++ (blank, .flag label) :: ([], next) :: rest) :
    LooseTag where
  name := tag.name
  items := front ++ (blank, next.prepend label) :: rest
  gap := tag.gap
  slashed := tag.slashed
  isName := tag.isName
  valid := fun x mem => by
    have loose := items ▸ tag.valid
    have hflag := loose (blank, .flag label) (by simp)
    have hnext := loose ([], next) (by simp)
    rcases List.mem_append.1 mem with mem | mem
    · exact loose x (by simp [mem])
    · rcases List.mem_cons.1 mem with rfl | mem
      · exact ⟨hflag.blank, Item.loose_prepend hnext.item hflag.item.2⟩
      · exact loose x (by simp [mem])
  blank := tag.blank

section

variable {tag : LooseTag} {front rest : List SpacedItem} {blank label : Bytes} {next : Item}
  (items : tag.items = front ++ (blank, .flag label) :: ([], next) :: rest)
  {c : UInt8} {t : Bytes} (text : next.text = c :: t)
  (goesOn : Attribute.isAttributeNameByte c = true)

include text goesOn

theorem LooseTag.attributes_merge : (tag.merge items).attributes = tag.attributes := by
  have flag : (Item.flag label).text = label := rfl
  have merged : (next.prepend label).text = label ++ next.text := Item.text_prepend text goesOn
  rw [attributes, attributes, items]
  simp only [merge, itemsText_append, itemsText, flag, merged, List.append_assoc, List.nil_append]

theorem LooseTag.text_merge : (tag.merge items).text = tag.text := by
  rw [LooseTag.text, LooseTag.text, attributes_merge items text goesOn]
  rfl

theorem LooseTag.stands_merge (separate : Separate .name (front ++ [(blank, .flag label)]))
    (apart : Separate next.edge rest)
    (unslashed : tag.slashed = false → tag.attributes.getLast? ≠ some Byte.slash) :
    (tag.merge items).Stands := by
  obtain ⟨hfront, junction, -⟩ := separate_append.1 separate
  have isLabel : IsItemName label :=
    (tag.valid (blank, .flag label) (by rw [items]; simp)).item
  have merged : (next.prepend label).text = label ++ next.text := Item.text_prepend text goesOn
  refine ⟨separate_append.2 ⟨hfront, ?_, ?_⟩, ?_⟩
  · obtain ⟨d, r, rfl⟩ := List.exists_cons_of_ne_nil isLabel.1
    have head : (blank ++ (next.prepend (d :: r)).text).head? =
        (blank ++ (Item.flag (d :: r)).text).head? := by
      rw [merged]
      cases blank <;> rfl
    rw [head]
    exact junction
  · rw [Item.edge_prepend]
    exact apart
  · rw [attributes_merge items text goesOn]
    exact unslashed

end

/-- An item that ends with a slash ends with a value without delimiters. -/
theorem Item.Loose.word_of_slash {item : Item} (loose : item.Loose)
    (slash : item.text.getLast? = some Byte.slash) :
    ∃ label pre post w, item = .valued label pre post (w ++ [Byte.slash]) ∧
      ∀ c ∈ w ++ [Byte.slash], isWordByte c = true := by
  cases item with
  | spread body => exact absurd slash (getLast?_literal (.braces loose))
  | flag name => exact absurd slash (getLast?_ne_slash (by decide) loose.2)
  | valued label pre post v =>
      obtain ⟨-, -, -, value⟩ := loose
      have text : (Item.valued label pre post v).text =
          (label ++ (pre ++ Byte.equals :: post)) ++ v := by
        simp [Item.text]
      rw [text] at slash
      rcases value with literal | ⟨ne, word⟩
      · obtain ⟨c, t, rfl, -⟩ := Scan.head_literal literal
        rw [List.getLast?_append_of_ne_nil _ (List.cons_ne_nil c t)] at slash
        exact absurd slash (getLast?_literal literal)
      · rw [List.getLast?_append_of_ne_nil _ ne] at slash
        obtain ⟨w, rfl⟩ := List.getLast?_eq_some_iff.1 slash
        exact ⟨label, pre, post, w, rfl, word⟩

theorem itemsText_ne_nil {items : List SpacedItem} (valid : ∀ x ∈ items, SpacedItem.Loose x)
    (ne : items ≠ []) : itemsText items ≠ [] := by
  obtain ⟨⟨gap, item⟩, rest, rfl⟩ := List.exists_cons_of_ne_nil ne
  obtain ⟨c, t, text, -⟩ : ∃ c t, item.text = c :: t ∧ _ := (valid _ List.mem_cons_self).item.head
  simp [itemsText, text]

theorem RemovesOnly.opens {source new id name : Bytes} {tag : OpenTag} {i : Nat}
    (removes : RemovesOnly source new id name) (before : locateTag? source id = some tag)
    (start : tag.start = i) :
    (locateTag? new id).map (·.start) = some i ∧
      ∃ found, Units.openTag? new i = some found ∧ found.name = tag.name := by
  obtain ⟨old, loc, here, there, same, name⟩ := removes.located
  rw [locate?, before] at here
  cases here
  obtain ⟨found, located, rfl⟩ := Option.map_eq_some_iff.1 there
  have stays : (locateTag? new id).map (·.start) = some i := by
    rw [located, ← start]
    exact congrArg some same
  refine ⟨stays, found, ?_, name⟩
  rw [← locateTag?_of_start stays, located]

section

variable {tag : LooseTag} (distinct : tag.Distinct) {earlier later : List SpacedItem}
  {gap name : Bytes} {item : Item} (split : tag.items = earlier ++ (gap, item) :: later)
  (named : item.name? = some name)

include distinct split named

theorem attributes_without :
    (tag.without name).attributes = itemsText earlier ++ (itemsText later ++ tag.gap) := by
  have gap' : (tag.without name).gap = tag.gap := rfl
  rw [LooseTag.attributes, LooseTag.items_without distinct split named, gap', itemsText_append,
    List.append_assoc]

/-- What ends the tag is still there. -/
theorem unslashed_without (stands : tag.Stands) (ne : itemsText later ++ tag.gap ≠ [])
    (open' : tag.slashed = false) :
    (tag.without name).attributes.getLast? ≠ some Byte.slash := by
  have last := stands.unslashed open'
  have text : tag.attributes =
      (itemsText earlier ++ (gap ++ item.text)) ++ (itemsText later ++ tag.gap) := by
    simp [LooseTag.attributes, split, itemsText_append, itemsText]
  rw [text, List.getLast?_append_of_ne_nil _ ne] at last
  rwa [attributes_without distinct split named, List.getLast?_append_of_ne_nil _ ne]

variable {p s id : Bytes}
  (before : locateTag? (p ++ (tag.text ++ s)) id = some (tag.reading p.length))
  (removes : RemovesOnly (p ++ (tag.text ++ s)) (p ++ ((tag.without name).text ++ s)) id name)

include before removes

/-- The name of the tag does not go on with what comes to stand behind it. -/
theorem name_apart (first : earlier = []) {next : Item} {rest : List SpacedItem}
    (behind : later = ([], next) :: rest) {c : UInt8} {t : Bytes} (text : next.text = c :: t) :
    isNameByte c = false := by
  obtain ⟨-, found, opens, same⟩ := removes.opens before rfl
  have whole : p ++ ((tag.without name).text ++ s) =
      p ++ Byte.less :: (tag.name ++ c :: (t ++ (itemsText rest ++
        (tag.gap ++ (tagEnding tag.slashed ++ s))))) := by
    have name' : (tag.without name).name = tag.name := rfl
    have slashed' : (tag.without name).slashed = tag.slashed := rfl
    simp [LooseTag.text, openTagText, attributes_without distinct split named, name', slashed',
      first, behind, itemsText, text]
  rw [whole] at opens
  by_contra goesOn
  exact name_grows tag.isName (Bool.not_eq_false _ ▸ goesOn) opens same

variable (stands : tag.Stands)

include stands

/-- The attribute in front of the one that goes is read as it was. -/
theorem read_in_front {front : List SpacedItem} {x : SpacedItem} {label : Bytes}
    (last : earlier = front ++ [x]) (labelled : x.2.name? = some label) :
    lookup? front label = none ∧ lookup? later label = none ∧
      readAttribute? (p ++ ((tag.without name).text ++ s)) id label =
        some (.classify x.2.raw?) := by
  have split' : tag.items = front ++ x :: (gap, item) :: later := by rw [split, last]; simp
  obtain ⟨unnamed, behind⟩ := distinct.alone split' labelled
  have other : label ≠ name := by
    rintro rfl
    rw [lookup?_cons_of_eq named] at behind
    cases behind
  have passed : (gap, item).2.name? ≠ some label := by
    rw [named]
    exact fun same => other (Option.some.inj same).symm
  rw [lookup?_cons_of_ne passed] at behind
  refine ⟨unnamed, behind, ?_⟩
  rw [removes.others label other, stands.readAttribute?_in before, split', lookup?_append, unnamed,
    Option.none_or, lookup?_cons_of_eq labelled]

/-- A name without a value does not go on with what comes to stand behind it. -/
theorem flag_apart (separate : Separate .name earlier) {front : List SpacedItem}
    {blank label : Bytes} (last : earlier = front ++ [(blank, .flag label)]) {next : Item}
    {rest : List SpacedItem} (behind : later = ([], next) :: rest) (apart : Separate next.edge rest)
    {c : UInt8} {t : Bytes} (text : next.text = c :: t) :
    Attribute.isAttributeNameByte c = false := by
  by_contra goesOn
  rw [Bool.not_eq_false] at goesOn
  obtain ⟨unnamed, unnamed', read⟩ :=
    read_in_front distinct split named before removes stands last rfl
  have items : (tag.without name).items = front ++ (blank, .flag label) :: ([], next) :: rest := by
    rw [LooseTag.items_without distinct split named, last, behind]
    simp
  let new := (tag.without name).merge items
  have standsNew : new.Stands := by
    refine LooseTag.stands_merge items text goesOn (last ▸ separate) apart ?_
    exact unslashed_without distinct split named stands (by simp [behind, itemsText, text])
  obtain ⟨stays, -⟩ := removes.opens before rfl
  rw [← LooseTag.text_merge items text goesOn] at stays read
  have located := standsNew.locateTag?_at stays
  rw [standsNew.readAttribute?_in located] at read
  have loose : next.Loose := (tag.valid ([], next) (by simp [split, behind])).item
  have gone : lookup? new.items label = none := by
    have passed : ([], next).2.name? ≠ some label :=
      lookup?_eq_none.1 unnamed' _ (by rw [behind]; exact List.mem_cons_self)
    rw [behind, lookup?_cons_of_ne passed] at unnamed'
    change lookup? (front ++ (blank, next.prepend label) :: rest) label = none
    rw [lookup?_append, unnamed, Option.none_or, lookup?_cons_of_ne (Item.name_prepend loose),
      unnamed']
  rw [gone] at read
  cases read

/-- A value without delimiters is read whole. -/
theorem word_whole (separate : Separate .name earlier) {front : List SpacedItem}
    {blank label pre post v : Bytes}
    (last : earlier = front ++ [(blank, .valued label pre post v)]) (ne : v ≠ [])
    (word : ∀ c ∈ v, isWordByte c = true) {u : Bytes} {slashed : Bool}
    (text : (tag.without name).text =
      openTagText tag.name (valueLast front blank label pre post u) slashed)
    (markup : Markup .attributes u)
    (unslashed : slashed = false →
      (valueLast front blank label pre post u).getLast? ≠ some Byte.slash)
    (begins : ∀ c, u.head? = some c → beginsWord c = true) :
    u.takeWhile (!Byte.isBlank ·) = v := by
  obtain ⟨unnamed, -, read⟩ := read_in_front distinct split named before removes stands last rfl
  have loose : ∀ x ∈ front ++ [(blank, .valued label pre post v)], SpacedItem.Loose x :=
    fun x mem => tag.valid x (by rw [split, last]; exact List.mem_append_left _ mem)
  obtain ⟨hfront, hlast⟩ := List.forall_mem_append.1 loose
  obtain ⟨hblank, isLabel, hpre, hpost, -⟩ := hlast _ List.mem_cons_self
  have apart : Separate .name (front ++ [(blank, .flag label)]) := by
    obtain ⟨hfront, junction, -⟩ := separate_append.1 (last ▸ separate)
    refine separate_append.2 ⟨hfront, ?_, trivial⟩
    obtain ⟨c, t, rfl⟩ := List.exists_cons_of_ne_nil isLabel.1
    cases blank <;> exact junction
  obtain ⟨located, -⟩ := removes.opens before rfl
  rw [text] at located read
  rw [read_valueLast hfront hblank isLabel hpre hpost apart unnamed tag.isName
    (markup_valueLast hfront hblank isLabel hpre hpost markup)
    (bounded_valueLast hfront hblank isLabel apart unslashed) begins located] at read
  by_contra other
  refine classify_ne ne word (fun c hc => ?_) other (Option.some.inj read)
  apply begins
  cases u with
  | nil => cases hc
  | cons d u =>
      rw [List.head?_takeWhile, List.head?_cons] at hc
      exact (Option.filter_eq_some_iff.1 hc).1 ▸ rfl

/-- Nothing comes to stand right at a value without delimiters. -/
theorem word_apart (separate : Separate .name earlier) {front : List SpacedItem}
    {blank label pre post v : Bytes}
    (last : earlier = front ++ [(blank, .valued label pre post v)]) (ne : v ≠ [])
    (word : ∀ c ∈ v, isWordByte c = true) {next : Item} {rest : List SpacedItem} :
    later ≠ ([], next) :: rest := by
  intro behind
  obtain ⟨c, t, text, first⟩ : ∃ c t, next.text = c :: t ∧
      (c = Byte.openBrace ∨ isItemNameByte c = true) :=
    (tag.valid ([], next) (by simp [split, behind])).item.head
  have ink : Byte.isBlank c = false := by
    rcases first with rfl | isName
    · decide
    · simp_all [isItemNameByte, Attribute.isAttributeNameByte]
  obtain ⟨d, w, rfl⟩ := List.exists_cons_of_ne_nil ne
  have attributes : (tag.without name).attributes =
      valueLast front blank label pre post ((d :: w) ++ (itemsText later ++ tag.gap)) := by
    rw [attributes_without distinct split named, last]
    simp [valueLast, itemsText_append, itemsText, Item.text]
  have text' : (tag.without name).text = openTagText tag.name
      (valueLast front blank label pre post ((d :: w) ++ (itemsText later ++ tag.gap)))
        tag.slashed := by
    rw [← attributes]
    rfl
  have markup : Markup .attributes ((d :: w) ++ (itemsText later ++ tag.gap)) :=
    .attributesBytes (fun b hb => isPlain_of_isWordByte (word b hb))
      (itemsText_markup (fun x mem => tag.valid x (by simp [split, mem])) (markup_blank tag.blank))
  have begins : ∀ b, ((d :: w) ++ (itemsText later ++ tag.gap)).head? = some b →
      beginsWord b = true := by
    rintro b ⟨⟩
    rw [beginsWord, word d List.mem_cons_self, Bool.true_or]
  have whole := word_whole distinct split named before removes stands separate last ne word
    text' markup (fun open' => attributes ▸ unslashed_without distinct split named stands
      (by simp [behind, itemsText, text]) open') begins
  rw [List.takeWhile_append_of_pos (fun b hb => by simp [isBlank_of_word (word b hb)])] at whole
  simp [behind, itemsText, text, ink] at whole

/-- A value without delimiters that ends with a slash does not come to stand at the end. -/
theorem slash_apart (separate : Separate .name earlier) {front : List SpacedItem}
    {blank label pre post w : Bytes}
    (last : earlier = front ++ [(blank, .valued label pre post (w ++ [Byte.slash]))])
    (word : ∀ c ∈ w ++ [Byte.slash], isWordByte c = true) (none : later = [])
    (gap' : tag.gap = []) : tag.slashed = true := by
  rw [← Bool.not_eq_false]
  intro open'
  have bytes : ∀ c ∈ w, isWordByte c = true := fun c hc => word c (by simp [hc])
  have text : (tag.without name).text =
      openTagText tag.name (valueLast front blank label pre post w) true := by
    have name' : (tag.without name).name = tag.name := rfl
    have slashed' : (tag.without name).slashed = tag.slashed := rfl
    rw [LooseTag.text, attributes_without distinct split named, last]
    simp [openTagText, tagEnding, valueLast, itemsText_append, itemsText, Item.text, none, gap',
      name', slashed', open']
  have markup : Markup .attributes w := by
    have parts := Markup.attributesBytes (fun b hb => isPlain_of_isWordByte (bytes b hb))
      .attributesNil
    rwa [List.append_nil] at parts
  have whole := word_whole distinct split named before removes stands separate last (by simp) word
    text markup (fun closed => absurd closed (by decide)) (fun c hc => by
      rw [beginsWord, bytes c (List.mem_of_head? hc), Bool.true_or])
  have begins : w.takeWhile (!Byte.isBlank ·) <+: w := List.takeWhile_prefix _
  have shorter := begins.length_le
  rw [whole, List.length_append] at shorter
  exact Nat.not_succ_le_self _ shorter

variable (separate : Separate .name earlier)

include separate

/-- What stands behind the item that goes is kept apart from what was in front of it. -/
theorem later_apart (apart : Separate item.edge later) :
    Separate (Edge.name.behind earlier) later := by
  have loose : ∀ x ∈ earlier ++ later, SpacedItem.Loose x := fun x mem =>
    tag.valid x (by rw [split]; exact List.mem_append.2 ((List.mem_append.1 mem).imp_right
      (List.mem_cons_of_mem _)))
  obtain ⟨hearlier, hlater⟩ := List.forall_mem_append.1 loose
  match later, hlater with
  | [], _ => trivial
  | (c :: blanks, next) :: rest, hlater =>
      exact ⟨Edge.goesOn_blank _ ((hlater _ List.mem_cons_self).blank c List.mem_cons_self),
        apart.2⟩
  | ([], next) :: rest, hlater =>
      obtain ⟨c, t, text, -⟩ : ∃ c t, next.text = c :: t ∧ _ :=
        (hlater _ List.mem_cons_self).item.head
      refine ⟨?_, apart.2⟩
      rw [List.nil_append, text, List.head?_cons, Option.any_some]
      cases earlier using List.reverseRecOn with
      | nil => exact name_apart distinct split named before removes rfl rfl text
      | append_singleton front x =>
          obtain ⟨blank, last⟩ := x
          obtain ⟨-, loose⟩ := hearlier (blank, last) (by simp)
          rw [Edge.behind_concat]
          cases last with
          | spread body => rfl
          | flag label =>
              exact flag_apart distinct split named before removes stands separate rfl rfl
                apart.2 text
          | valued label pre post v =>
              obtain ⟨-, -, -, literal | ⟨ne, word⟩⟩ := loose
              · rw [Item.edge, opensValue_of_literal literal]
                rfl
              · exact absurd rfl
                  (word_apart distinct split named before removes stands separate rfl ne word)

/-- No slash of a value comes to end the tag. -/
theorem unslashed_apart (open' : tag.slashed = false) :
    (tag.without name).attributes.getLast? ≠ some Byte.slash := by
  by_cases behind : itemsText later ++ tag.gap = []
  · intro slash
    obtain ⟨empty, gap'⟩ := List.append_eq_nil_iff.1 behind
    have none : later = [] := by
      by_contra ne
      exact itemsText_ne_nil (fun x mem => tag.valid x (by simp [split, mem])) ne empty
    rw [attributes_without distinct split named, behind, List.append_nil] at slash
    cases earlier using List.reverseRecOn with
    | nil => cases slash
    | append_singleton front x =>
        obtain ⟨blank, last⟩ := x
        have loose : last.Loose := (tag.valid (blank, last) (by simp [split])).item
        obtain ⟨c, t, text, -⟩ := loose.head
        have text : last.text = c :: t := text
        have ends : last.text.getLast? = some Byte.slash := by
          rw [← slash, itemsText_append, itemsText_single,
            List.getLast?_append_of_ne_nil _ (by simp [text]),
            List.getLast?_append_of_ne_nil _ (by simp [text])]
        obtain ⟨label, pre, post, w, rfl, word⟩ := loose.word_of_slash ends
        have slashed : tag.slashed = true :=
          slash_apart distinct split named before removes stands separate rfl word none gap'
        exact absurd (open'.symm.trans slashed) (by decide)
  · exact unslashed_without distinct split named stands behind open'

end

/-- If nothing but the attribute is taken away, the parts of the tag are still kept apart. -/
theorem stands_of_removesOnly {tag : LooseTag} (stands : tag.Stands) (distinct : tag.Distinct)
    {p s id name : Bytes}
    (before : locateTag? (p ++ (tag.text ++ s)) id = some (tag.reading p.length))
    (removes : RemovesOnly (p ++ (tag.text ++ s)) (p ++ ((tag.without name).text ++ s)) id name) :
    (tag.without name).Stands := by
  by_cases absent : lookup? tag.items name = none
  · rwa [LooseTag.without_of_absent absent]
  · obtain ⟨earlier, gap, item, later, split, named, -⟩ := exists_first_of_present absent
    obtain ⟨separate, -, apart⟩ := separate_append.1 (split ▸ stands.separate)
    exact {
      separate := LooseTag.items_without distinct split named ▸ separate_append.2
        ⟨separate, later_apart distinct split named before removes stands separate apart⟩
      unslashed := unslashed_apart distinct split named before removes stands separate }

/-- White space in front of each item keeps the rest apart, whichever attribute goes. -/
theorem LooseTag.stands_without_of_valid {tag : LooseTag}
    (valid : ∀ x ∈ tag.items, SpacedItem.Valid x) (name : Bytes) : (tag.without name).Stands := by
  let rest : TagText := {
    name := tag.name
    items := tag.items.filter fun x => x.2.name? ≠ some name
    gap := tag.gap
    slashed := tag.slashed
    isName := tag.isName
    valid := fun x mem => valid x (List.mem_filter.1 mem).1
    blank := tag.blank }
  exact rest.stands_loose

/-- For a tag as written whose attributes have different names, nothing but the attribute is taken
away exactly if the parts of the tag are still kept apart and the element is still located. With
white space in front of each item the parts always are, and an element that carries its marker
alone is always located if they are. -/
theorem Edit.removeAttribute_others_kept {tag : LooseTag} {p s id name new : Bytes}
    (stands : tag.Stands) (distinct : tag.Distinct)
    (located : locateTag? (p ++ (tag.text ++ s)) id = some (tag.reading p.length))
    (edited : (Edit.removeAttribute (p ++ (tag.text ++ s)) id name).map
      (p ++ (tag.text ++ s)).patch = .ok new) :
    (RemovesOnly (p ++ (tag.text ++ s)) new id name ↔
      (tag.without name).Stands ∧ (locateTag? new id).map (·.start) = some p.length) ∧
    ((∀ x ∈ tag.items, SpacedItem.Valid x) → (tag.without name).Stands) ∧
    ∀ place : LoosePlace tag id, Byte.less ∉ place.lead → (∀ x ∈ tag.items, x.2.name? ≠ none) →
      Byte.equals ∉ id → Bytes.times (Marker.ofId id) (p ++ (tag.text ++ s)) = 1 →
      (RemovesOnly (p ++ (tag.text ++ s)) new id name ↔ (tag.without name).Stands) := by
  obtain ⟨unmarked, rfl⟩ := removeAttribute_text stands distinct located edited
  refine ⟨⟨fun removes => ?_, fun ⟨stands', start⟩ => ?_⟩,
    fun valid => tag.stands_without_of_valid valid name, fun place clear plain noEquals once =>
      ⟨stands_of_removesOnly stands distinct located, fun stands' => ?_⟩⟩
  · exact ⟨stands_of_removesOnly stands distinct located removes, (removes.opens located rfl).1⟩
  · exact LooseTag.removesOnly stands located stands' (stands'.locateTag?_at start)
  · exact LooseTag.removesOnly stands located stands'
      (place.locate_without distinct stands' unmarked clear plain noEquals once)

/-- The items of `<p a="1"b="2" c data-eid="x">`, two of which touch. -/
def closePairItems : List SpacedItem :=
  [([Byte.space], .quoted Byte.doubleQuote (utf8 "a") (utf8 "1")),
    ([], .quoted Byte.doubleQuote (utf8 "b") (utf8 "2")), ([Byte.space], .flag (utf8 "c")),
    ([Byte.space], markerItem (utf8 "x"))]

theorem closePairItems_loose : ∀ x ∈ closePairItems, SpacedItem.Loose x := by
  have blank : AllBlank [Byte.space] := by decide
  have one : QuotedText Byte.doubleQuote (utf8 "1") := .ofBytes (by decide)
  have two : QuotedText Byte.doubleQuote (utf8 "2") := .ofBytes (by decide)
  have marked : QuotedText Byte.doubleQuote (utf8 "x") := .ofBytes (by decide)
  intro x mem
  simp only [closePairItems, List.mem_cons, List.not_mem_nil, or_false] at mem
  obtain rfl | rfl | rfl | rfl := mem
  · exact ⟨blank, (Item.valid_quoted rfl (by decide) one).loose⟩
  · exact ⟨.nil, (Item.valid_quoted rfl (by decide) two).loose⟩
  · exact ⟨blank, show IsItemName (utf8 "c") by decide⟩
  · exact ⟨blank, (Item.valid_quoted rfl isItemName_attributeName marked).loose⟩

def closePair : LooseTag where
  name := utf8 "p"
  items := closePairItems
  gap := []
  slashed := false
  isName := markedParagraph.isName
  valid := closePairItems_loose
  blank := .nil

/-- Behind `a="1"` the attribute `b` goes, and what is behind it has white space in front. -/
theorem closePair_second_removed :
    let source := utf8 "<p a=\"1\"b=\"2\" c data-eid=\"x\">t</p>"
    let new := utf8 "<p a=\"1\" c data-eid=\"x\">t</p>"
    closePair.Stands ∧ closePair.Distinct ∧
      locateTag? source (utf8 "x") = some (closePair.reading 0) ∧
      (Edit.removeAttribute source (utf8 "x") (utf8 "b")).map source.patch = .ok new ∧
      (closePair.without (utf8 "b")).Stands ∧ RemovesOnly source new (utf8 "x") (utf8 "b") := by
  intro source new
  have stands : closePair.Stands := by decide +kernel
  have distinct : closePair.Distinct := by decide +kernel
  have located : locateTag? source (utf8 "x") = some (closePair.reading 0) := by decide +kernel
  have edited : (Edit.removeAttribute source (utf8 "x") (utf8 "b")).map source.patch = .ok new := by
    decide +kernel
  have rest : (closePair.without (utf8 "b")).Stands := by decide +kernel
  let place : LoosePlace closePair (utf8 "x") :=
    ⟨closePairItems.take 3, [Byte.space], [], rfl, List.cons_ne_nil _ _⟩
  obtain ⟨-, -, kept⟩ :=
    Edit.removeAttribute_others_kept stands distinct (p := []) (s := utf8 "t</p>") located edited
  exact ⟨stands, distinct, located, edited, rest, (kept place (by decide +kernel)
    (by decide +kernel) (by decide +kernel) (by decide +kernel)).2 rest⟩

/-- When the first one of the two goes, the name of the tag goes on with the second. A name without
a value and a value without delimiters do so too, and a slash that is left at the end of such a
value ends the tag. -/
theorem parts_go_on_when_joined :
    let source := utf8 "<p a=\"1\"b=\"2\" c data-eid=\"x\">t</p>"
    let new := utf8 "<pb=\"2\" c data-eid=\"x\">t</p>"
    let flag := utf8 "<p c a=\"1\"b=\"2\" data-eid=\"x\">t</p>"
    let word := utf8 "<p c=v a=\"1\"b=\"2\" data-eid=\"x\">t</p>"
    let slash := utf8 "<a data-eid=\"x\" href=/dir/ b>t</a>"
    (closePair.Stands ∧ closePair.Distinct ∧
      locateTag? source (utf8 "x") = some (closePair.reading 0) ∧
      (Edit.removeAttribute source (utf8 "x") (utf8 "a")).map source.patch = .ok new ∧
      (locate? new (utf8 "x")).map (·.tag) = some (utf8 "pb") ∧
      ¬ RemovesOnly source new (utf8 "x") (utf8 "a")) ∧
    ((Edit.removeAttribute flag (utf8 "x") (utf8 "a")).map flag.patch =
        .ok (utf8 "<p cb=\"2\" data-eid=\"x\">t</p>") ∧
      ¬ RemovesOnly flag (utf8 "<p cb=\"2\" data-eid=\"x\">t</p>") (utf8 "x") (utf8 "a")) ∧
    ((Edit.removeAttribute word (utf8 "x") (utf8 "a")).map word.patch =
        .ok (utf8 "<p c=vb=\"2\" data-eid=\"x\">t</p>") ∧
      ¬ RemovesOnly word (utf8 "<p c=vb=\"2\" data-eid=\"x\">t</p>") (utf8 "x") (utf8 "a")) ∧
    ((Edit.removeAttribute slash (utf8 "x") (utf8 "b")).map slash.patch =
        .ok (utf8 "<a data-eid=\"x\" href=/dir/>t</a>") ∧
      ¬ RemovesOnly slash (utf8 "<a data-eid=\"x\" href=/dir/>t</a>") (utf8 "x") (utf8 "b")) := by
  intro source new flag word slash
  refine ⟨⟨by decide +kernel, by decide +kernel, by decide +kernel, by decide +kernel,
      by decide +kernel, fun removes => ?_⟩,
    ⟨by decide +kernel, fun removes => ?_⟩, ⟨by decide +kernel, fun removes => ?_⟩,
    ⟨by decide +kernel, fun removes => ?_⟩⟩
  · exact absurd (removes.others (utf8 "b") (by decide)) (by decide +kernel)
  · exact absurd (removes.others (utf8 "c") (by decide)) (by decide +kernel)
  · exact absurd (removes.others (utf8 "c") (by decide)) (by decide +kernel)
  · exact absurd (removes.others (utf8 "href") (by decide)) (by decide +kernel)

end MarkupEdit
