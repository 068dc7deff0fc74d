import MarkupEdit.Markup.Siblings

/-!
The loops that count open braces and open elements, with counters that cannot go below 0: where
one would, the loop has no answer at all. Here a block counts its own opening brace and content the
element that it belongs to, so what the loops elsewhere call depth 0 is 1. Each loop has an
answer, and it is the one of the loop that subtracts freely.
-/

namespace MarkupEdit.Checked

/-- One less, if there is one. -/
def pred? : Nat → Option Nat
  | 0 => none
  | n + 1 => some n

theorem pred?_eq (n : Nat) : pred? n = if n = 0 then none else some (n - 1) := by
  cases n with
  | zero => rfl
  | succ n => rfl

/-- Past the brace block of which `depth` braces are open. -/
def blockEnd? (i depth : Nat) : Bytes → Option (Option Nat)
  | [] => some none
  | c :: t =>
    if c = Byte.openBrace then blockEnd? (i + 1) (depth + 1) t
    else if c = Byte.closeBrace then
      match pred? depth with
      | none => none
      | some left => if left = 0 then some (some (i + 1)) else blockEnd? (i + 1) left t
    else if Byte.isQuote c then
      match Scan.quotedEnd c (i + 1) t with
      | none => some none
      | some j => blockEnd? j depth (Scan.goOn (i + 1) j t)
    else if c = Byte.backtick then
      match Scan.templateEnd (i + 1) t with
      | none => some none
      | some j => blockEnd? j depth (Scan.goOn (i + 1) j t)
    else if c = Byte.less then
      match Scan.elementEnd i t with
      | none => blockEnd? (i + 1) depth t
      | some j => blockEnd? j depth (Scan.goOn (i + 1) j t)
    else blockEnd? (i + 1) depth t
termination_by s => s.length
decreasing_by all_goals (simp only [List.length_cons, List.length_drop]; omega)

/-- Past the closing tag of an element, `depth` elements of its name being open. -/
def contentEnd? (i : Nat) (name : Bytes) (depth : Nat) : Bytes → Option (Option Nat)
  | [] => some none
  | c :: t =>
    if c = Byte.openBrace then
      match Scan.blockEnd (i + 1) 0 t with
      | none => some none
      | some j => contentEnd? j name depth (Scan.goOn (i + 1) j t)
    else if c = Byte.less then
      if t.head? = some Byte.slash then
        match CloseTag.after? (i + 2) (t.drop 1) with
        | none => contentEnd? (i + 1) name depth t
        | some close =>
          if close.name = name then
            if depth = 1 then some (some close.stop)
            else
              match pred? depth with
              | none => none
              | some left => contentEnd? close.stop name left (Scan.goOn (i + 1) close.stop t)
          else contentEnd? close.stop name depth (Scan.goOn (i + 1) close.stop t)
      else if t.head? = some Byte.bang then
        match Scan.declarationEnd (i + 2) (t.drop 1) with
        | none => some none
        | some j => contentEnd? j name depth (Scan.goOn (i + 1) j t)
      else if t.head? = some Byte.greater then
        contentEnd? (i + 2) name (if name = [] then depth + 1 else depth) (t.drop 1)
      else
        match Scan.openTag? i t with
        | none => contentEnd? (i + 1) name depth t
        | some tag =>
          contentEnd? tag.stop name
            (if tag.name = name ∧ tag.closesItself = false then depth + 1 else depth)
            (Scan.goOn (i + 1) tag.stop t)
    else contentEnd? (i + 1) name depth t
termination_by s => s.length
decreasing_by all_goals (simp only [List.length_cons, List.length_drop]; omega)

/-- The brace that opens a block, going back from where `depth` blocks are open. -/
def openingBrace? (depth : Nat) : List Place → Option (Option Nat)
  | [] => some none
  | place :: rest =>
    match place.rest.head? with
    | none => openingBrace? depth rest
    | some c =>
      if c = Byte.closeBrace then openingBrace? (depth + 1) rest
      else if c = Byte.openBrace then
        match pred? depth with
        | none => none
        | some left => if left = 0 then some (some place.offset) else openingBrace? left rest
      else openingBrace? depth rest

/-- Past the opening tag of the parent, going back over `depth` closing tags. -/
def parentStart? (before depth : Nat) : List Place → Option Nat
  | [] => some 0
  | place :: rest =>
    match place.rest with
    | [] => parentStart? before depth rest
    | c :: t =>
      if c = Byte.greater then
        match Siblings.commentStart? rest with
        | none => parentStart? before depth rest
        | some start => parentStart? before depth (rest.drop (place.offset - start))
      else if c = Byte.closeBrace then
        match Siblings.openingBrace? 0 rest with
        | none => some 0
        | some start => parentStart? before depth (rest.drop (place.offset - start))
      else if c = Byte.less then
        match Siblings.turnAt before place.offset t with
        | .neither => parentStart? before depth rest
        | .closes => parentStart? before (depth + 1) rest
        | .opens stop =>
          if depth = 0 then some stop
          else
            match pred? depth with
            | none => none
            | some left => parentStart? before left rest
      else parentStart? before depth rest
termination_by places => places.length
decreasing_by all_goals (simp only [List.length_cons, List.length_drop]; omega)

/-- The closing tag of the parent, `depth` elements behind `i` being open. -/
def parentEnd? (i depth : Nat) : Bytes → Option Nat
  | [] => some i
  | c :: t =>
    if c = Byte.openBrace then
      match Scan.blockEnd (i + 1) 0 t with
      | none => some (i + 1 + t.length)
      | some j => parentEnd? j depth (Scan.goOn (i + 1) j t)
    else if c = Byte.less then
      if t.head? = some Byte.slash then
        match CloseTag.after? (i + 2) (t.drop 1) with
        | none => parentEnd? (i + 1) depth t
        | some close =>
          if depth = 0 then some i
          else
            match pred? depth with
            | none => none
            | some left => parentEnd? close.stop left (Scan.goOn (i + 1) close.stop t)
      else if t.head? = some Byte.bang then
        match Scan.declarationEnd (i + 2) (t.drop 1) with
        | none => some (i + 1 + t.length)
        | some j => parentEnd? j depth (Scan.goOn (i + 1) j t)
      else if t.head? = some Byte.greater then parentEnd? (i + 2) (depth + 1) (t.drop 1)
      else
        match Scan.openTag? i t with
        | none => parentEnd? (i + 1) depth t
        | some tag =>
          parentEnd? tag.stop (if tag.closesItself then depth else depth + 1)
            (Scan.goOn (i + 1) tag.stop t)
    else parentEnd? (i + 1) depth t
termination_by s => s.length
decreasing_by all_goals (simp only [List.length_cons, List.length_drop]; omega)

theorem blockEnd?_eq (i depth : Nat) (s : Bytes) :
    blockEnd? i (depth + 1) s = some (Scan.blockEnd i depth s) := by
  generalize counted : depth + 1 = n
  fun_induction blockEnd? i n s generalizing depth with
  | case1 => rw [Scan.blockEnd]
  | _ =>
      rw [Scan.blockEnd]
      grind [pred?_eq]

theorem contentEnd?_eq (i : Nat) (name : Bytes) (depth : Nat) (s : Bytes) :
    contentEnd? i name (depth + 1) s = some (Scan.contentEnd i name depth s) := by
  generalize counted : depth + 1 = n
  fun_induction contentEnd? i name n s generalizing depth with
  | case1 => rw [Scan.contentEnd]
  | _ =>
      rw [Scan.contentEnd]
      grind [pred?_eq]

theorem openingBrace?_eq (depth : Nat) (places : List Place) :
    openingBrace? (depth + 1) places = some (Siblings.openingBrace? depth places) := by
  generalize counted : depth + 1 = n
  fun_induction openingBrace? n places generalizing depth with
  | case1 => rfl
  | _ =>
      rw [Siblings.openingBrace?]
      grind [pred?_eq]

theorem parentStart?_eq (before depth : Nat) (places : List Place) :
    parentStart? before depth places = some (Siblings.parentStart before depth places) := by
  fun_induction parentStart? before depth places with
  | case1 => rw [Siblings.parentStart]
  | _ =>
      rw [Siblings.parentStart]
      grind [pred?_eq]

theorem parentEnd?_eq (i depth : Nat) (s : Bytes) :
    parentEnd? i depth s = some (Siblings.parentEnd i depth s) := by
  fun_induction parentEnd? i depth s with
  | case1 => rw [Siblings.parentEnd]
  | _ =>
      rw [Siblings.parentEnd]
      grind [pred?_eq]

end MarkupEdit.Checked
