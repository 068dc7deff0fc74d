import MarkupEdit.Json.Token
import MarkupEdit.Json.Value

/-!
Reading a value from tokens. The reader takes one token after the other and keeps a stack of
the arrays and objects that are waiting for the value being read.
-/

namespace MarkupEdit.Json

namespace Reader

/-- An array or object that waits for a value; what it holds so far is listed last first. -/
inductive Frame where
  | item (done : List Value)
  | field (done : List (String × Value)) (key : String)

/-- What the reader expects next. In front of a first item or key, and behind each item and field,
the container may end instead. -/
inductive Mode where
  | value
  | firstItem
  | afterItem (done : List Value)
  | firstKey
  | nextKey (done : List (String × Value))
  | colon (done : List (String × Value)) (key : String)
  | afterField (done : List (String × Value))

inductive Step where
  | fault
  | done (v : Value)
  | more (stack : List Frame) (mode : Mode)

/-- How exact a reader is. One that only passes over a value lets pass what has no meaning as a
value: broken strings, numbers that are too great, and any depth. -/
inductive Rigour where
  | exact
  | passing
  deriving DecidableEq

def depthLimit : Nat := 128

def complete (v : Value) : List Frame → Step
  | [] => .done v
  | .item done :: stack => .more stack (.afterItem (v :: done))
  | .field done key :: stack => .more stack (.afterField ((key, v) :: done))

def string? (rigour : Rigour) : Token → Option String
  | .string s => some s
  | .brokenString => if rigour = .passing then some "" else none
  | _ => none

def enter (rigour : Rigour) (stack : List Frame) (mode : Mode) : Step :=
  if rigour = .exact ∧ depthLimit ≤ stack.length + 1 then .fault else .more stack mode

def start (rigour : Rigour) (stack : List Frame) : Token → Step
  | .openBracket => enter rigour stack .firstItem
  | .openBrace => enter rigour stack .firstKey
  | .null => complete .null stack
  | .bool b => complete (.bool b) stack
  | .number n =>
    if rigour = .passing ∨ n.isFinite then complete (.number n) stack else .fault
  | .string s => complete (.string s) stack
  | .brokenString => if rigour = .passing then complete (.string "") stack else .fault
  | _ => .fault

def step (rigour : Rigour) (stack : List Frame) (mode : Mode) (token : Token) : Step :=
  match mode with
  | .value => start rigour stack token
  | .firstItem =>
    if token = .closeBracket then complete (.array []) stack
    else start rigour (.item [] :: stack) token
  | .afterItem done =>
    if token = .comma then .more (.item done :: stack) .value
    else if token = .closeBracket then complete (.array done.reverse) stack
    else .fault
  | .firstKey =>
    if token = .closeBrace then complete (.object []) stack
    else
      match string? rigour token with
      | none => .fault
      | some key => .more stack (.colon [] key)
  | .nextKey done =>
    match string? rigour token with
    | none => .fault
    | some key => .more stack (.colon done key)
  | .colon done key =>
    if token = .colon then .more (.field done key :: stack) .value else .fault
  | .afterField done =>
    if token = .comma then .more stack (.nextKey done)
    else if token = .closeBrace then complete (.object done.reverse) stack
    else .fault

/-- Reads on in a mode; `n` tokens were read so far. -/
def run (rigour : Rigour) (n : Nat) (stack : List Frame) (mode : Mode) :
    List Token → Option (Value × Nat)
  | [] => none
  | token :: rest =>
    match step rigour stack mode token with
    | .fault => none
    | .done v => some (v, n + 1)
    | .more stack mode => run rigour (n + 1) stack mode rest

def read? (rigour : Rigour) (tokens : List Token) : Option (Value × Nat) :=
  run rigour 0 [] .value tokens

end Reader

/-- The value that a text is, with nothing else than white space around it. -/
def parse? (text : String) : Option Value :=
  let tokens := Token.ofChars text.toList
  match Reader.read? .exact tokens with
  | none => none
  | some (v, n) => if (tokens.drop n).isEmpty then some v else none

end MarkupEdit.Json
