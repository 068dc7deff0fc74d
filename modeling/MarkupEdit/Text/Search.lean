import MarkupEdit.Text.Bytes

/-!
Finding one text inside another: the first place, the last place, and all places that do not
overlap, read from the left.
-/

namespace MarkupEdit.Bytes

/-- The first place at or after offset `i` where `needle` stands; the text goes on with the
given bytes there. -/
def indexFrom? (needle : Bytes) (i : Nat) : Bytes → Option Nat
  | [] => if needle.isEmpty then some i else none
  | c :: t => if needle.isPrefixOf (c :: t) then some i else indexFrom? needle (i + 1) t

def index? (text needle : Bytes) : Option Nat := indexFrom? needle 0 text

def lastIndexFrom (needle : Bytes) (i : Nat) (found : Option Nat) : Bytes → Option Nat
  | [] => if needle.isEmpty then some i else found
  | c :: t =>
    lastIndexFrom needle (i + 1) (if needle.isPrefixOf (c :: t) then some i else found) t

def lastIndex? (text needle : Bytes) : Option Nat := lastIndexFrom needle 0 none text

def hasSubtext (text needle : Bytes) : Bool := (text.index? needle).isSome

/-- The places where `needle` stands, from the left, each search going on behind the place
found before. -/
def occurrencesFrom (needle : Bytes) (i : Nat) : Bytes → List Nat
  | [] => []
  | c :: t =>
    if needle.isPrefixOf (c :: t) then
      i :: occurrencesFrom needle (i + 1 + (needle.length - 1)) (t.drop (needle.length - 1))
    else occurrencesFrom needle (i + 1) t
termination_by s => s.length
decreasing_by all_goals (simp only [List.length_cons, List.length_drop]; omega)

def occurrences (text needle : Bytes) : List Nat := occurrencesFrom needle 0 text

def consByte (c : UInt8) : List Bytes → List Bytes
  | [] => [[c]]
  | piece :: rest => (c :: piece) :: rest

/-- The pieces of a text between the bytes equal to `mark`, empty ones included. -/
def pieces (text : Bytes) (mark : UInt8) : List Bytes :=
  text.foldr (fun c rest => if c = mark then [] :: rest else consByte c rest) [[]]

end MarkupEdit.Bytes
