/-!
Options on a command line. An option has a long name and perhaps a letter; the letters of several
options may share one hyphen. A value stands behind `=`, directly behind the letter, or in the
next argument, which then must not look like an option. Behind `--` there are no options.
-/

namespace MarkupEdit.CommandLine

inductive OptionKind where
  | flag
  /-- A flag behind which nothing is read. -/
  | final
  | value
  deriving DecidableEq

structure OptionSpec where
  name : String
  letter : Option Char
  kind : OptionKind
  accepts : String → Bool

namespace OptionSpec

def flag (name : String) (letter : Option Char) : OptionSpec :=
  ⟨name, letter, .flag, fun _ => false⟩

def final (name : String) (letter : Option Char) : OptionSpec :=
  ⟨name, letter, .final, fun _ => false⟩

def value (name : String) (letter : Char) (accepts : String → Bool) : OptionSpec :=
  ⟨name, some letter, .value, accepts⟩

end OptionSpec

structure Form where
  options : List OptionSpec
  /-- What the operands may be, in order. -/
  places : List (String → Bool)

inductive Item where
  | flag (name : String)
  | value (name value : String)
  | operand (s : String)
  deriving DecidableEq

inductive Sequel where
  | more
  | valueOf (name : String)
  | nothing
  deriving DecidableEq

structure Parsed where
  items : List Item
  sequel : Sequel

/-- The argument looks like an option; a single hyphen does not. -/
def isHyphenated (arg : String) : Bool := arg.startsWith "-" && arg != "-"

def splitEquals (s : List Char) : List Char × Option (List Char) :=
  match s.dropWhile (· != '=') with
  | [] => (s, none)
  | _ :: value => (s.takeWhile (· != '='), some value)

def flag (o : OptionSpec) : Parsed :=
  ⟨[.flag o.name], if o.kind = .final then .nothing else .more⟩

def readLong (options : List OptionSpec) (s : List Char) : Option Parsed :=
  let (name, value) := splitEquals s
  match options.find? (·.name = String.ofList name), value with
  | none, _ => none
  | some o, none => some (if o.kind = .value then ⟨[], .valueOf o.name⟩ else flag o)
  | some o, some value =>
    if o.kind = .value then some ⟨[.value o.name (String.ofList value)], .more⟩ else none

/-- The value of an option behind its letter; an `=` in front of it does not belong to it. -/
def attached (value : List Char) : String :=
  match value with
  | '=' :: value => String.ofList value
  | _ => String.ofList value

/-- Reads letters behind one hyphen. What stands behind the letter of an option that takes a
value is the value. -/
def readLetters (options : List OptionSpec) : List Char → Option Parsed
  | [] => some ⟨[], .more⟩
  | c :: rest =>
    match options.find? (·.letter = some c) with
    | none => none
    | some o =>
      match o.kind with
      | .value =>
        if rest.isEmpty then some ⟨[], .valueOf o.name⟩
        else some ⟨[.value o.name (attached rest)], .more⟩
      | .final => some (flag o)
      | .flag =>
        (readLetters options rest).map fun p => { p with items := .flag o.name :: p.items }

def readArgument (options : List OptionSpec) (arg : String) : Option Parsed :=
  match arg.toList with
  | '-' :: '-' :: name => readLong options name
  | '-' :: c :: rest => readLetters options (c :: rest)
  | _ => some ⟨[.operand arg], .more⟩

/-- The items of arguments, or nothing when an option is unknown or lacks its value. -/
def readAll (options : List OptionSpec) : List String → Option (List Item)
  | [] => some []
  | arg :: rest =>
    if arg = "--" then some (rest.map .operand)
    else
      match readArgument options arg with
      | none => none
      | some ⟨items, .more⟩ => (readAll options rest).map (items ++ ·)
      | some ⟨items, .nothing⟩ => some items
      | some ⟨items, .valueOf name⟩ =>
        match rest with
        | [] => none
        | value :: rest =>
          if isHyphenated value then none
          else (readAll options rest).map (items ++ .value name value :: ·)

/-- The flags in front of the first operand, that operand, and the arguments behind it. There
are no operands behind `--` and no options with values here. -/
def readHead (options : List OptionSpec) : List String → Option (List Item × List String)
  | [] => some ([], [])
  | arg :: rest =>
    if arg = "--" then none
    else
      match readArgument options arg with
      | some ⟨[.operand s], .more⟩ => some ([.operand s], rest)
      | some ⟨items, .more⟩ => (readHead options rest).map fun (more, tail) => (items ++ more, tail)
      | some ⟨items, .nothing⟩ => some (items, [])
      | _ => none

def operands (items : List Item) : List String :=
  items.filterMap fun
    | .operand s => some s
    | _ => none

def optionNames (items : List Item) : List String :=
  items.filterMap fun
    | .flag name | .value name _ => some name
    | .operand _ => none

def unrepeated (items : List Item) : Bool := decide (optionNames items).Nodup

/-- Nothing among the items is wrong by itself, though something may be missing. -/
def Form.admits (form : Form) (items : List Item) : Bool :=
  unrepeated items && (operands items).length ≤ form.places.length &&
    ((form.places.zip (operands items)).all fun (accepts, s) => accepts s) &&
    items.all fun
      | .value name value => form.options.all fun o => o.name != name || o.accepts value
      | _ => true

def value? (name : String) (items : List Item) : Option String :=
  items.findSome? fun
    | .value other value => if other = name then some value else none
    | _ => none

end MarkupEdit.CommandLine
