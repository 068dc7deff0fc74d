import MarkupEdit.CommandLine.Options

/-!
The commands of the program: showing where an element stands, showing its neighbours, and
applying mutations to a file.
-/

namespace MarkupEdit.CommandLine

inductive Format where
  | text
  | json
  deriving DecidableEq

structure Query where
  file : String
  id : String
  format : Format
  deriving DecidableEq

inductive Source where
  /-- The argument itself is the script. -/
  | argument (script : String)
  | file (path : String)
  deriving DecidableEq

structure Application where
  file : String
  source : Source
  /-- The edited document is printed and not written back. -/
  printOnly : Bool
  deriving DecidableEq

inductive Command where
  | version
  | help
  | locate (query : Query)
  | siblings (query : Query)
  | apply (application : Application)
  deriving DecidableEq

namespace Command

def verboseOption : OptionSpec := .flag "verbose" (some 'v')

def helpOption : OptionSpec := .final "help" (some 'h')

def formatOf? (s : String) : Option Format :=
  match s with
  | "text" => some .text
  | "json" => some .json
  | _ => none

def isPath (s : String) : Bool := !s.isEmpty

def headForm : Form :=
  ⟨[verboseOption, helpOption, .final "version" (some 'V')], [fun _ => true]⟩

def queryForm : Form :=
  ⟨[verboseOption, helpOption, .value "format" 'f' fun s => (formatOf? s).isSome],
    [isPath, fun _ => true]⟩

def applyForm : Form :=
  ⟨[verboseOption, helpOption, .value "mutation" 'm' fun _ => true, .value "script" 's' isPath,
      .flag "stdout" none],
    [isPath]⟩

def queryOf? (items : List Item) : Option Query := do
  let format ← formatOf? ((value? "format" items).getD "text")
  match operands items with
  | [file, id] => some ⟨file, id, format⟩
  | _ => none

/-- Mutations come from exactly one place. -/
def sourceOf? (items : List Item) : Option Source :=
  match value? "mutation" items, value? "script" items with
  | some script, none => some (.argument script)
  | none, some path => some (.file path)
  | _, _ => none

def applicationOf? (items : List Item) : Option Application := do
  let source ← sourceOf? items
  match operands items with
  | [file] => some ⟨file, source, items.contains (.flag "stdout")⟩
  | _ => none

/-- The command that items make, unless they ask for help. -/
def ofItems? (form : Form) (items : List Item) (command? : List Item → Option Command) :
    Option Command :=
  if form.admits items = false then none
  else if items.contains (.flag "help") then some .help
  else command? items

def names : List String := ["locate", "siblings", "apply", "help"]

/-- The command of a name with the arguments behind it. Help is there for one command or for
all of them. -/
def ofName? (name : String) (args : List String) : Option Command :=
  match name with
  | "locate" => do
    ofItems? queryForm (← readAll queryForm.options args) fun items =>
      (queryOf? items).map .locate
  | "siblings" => do
    ofItems? queryForm (← readAll queryForm.options args) fun items =>
      (queryOf? items).map .siblings
  | "apply" => do
    ofItems? applyForm (← readAll applyForm.options args) fun items =>
      (applicationOf? items).map .apply
  | "help" => if args.length ≤ 1 ∧ args.all names.contains then some .help else none
  | _ => none

def parse? (args : List String) : Option Command := do
  let (items, rest) ← readHead headForm.options args
  ofItems? headForm items fun items =>
    if items.contains (.flag "version") then some .version
    else
      match operands items with
      | [name] => ofName? name rest
      | _ => none

end Command

end MarkupEdit.CommandLine
