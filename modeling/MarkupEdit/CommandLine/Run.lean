import MarkupEdit.CommandLine.Command
import MarkupEdit.CommandLine.Report
import MarkupEdit.Config
import MarkupEdit.Document
import MarkupEdit.Files.Path
import MarkupEdit.Mutation.Script

/-!
Carrying out commands. A command is an action on files that ends with a report; what is said of
a text that is not JSON is left to the caller.
-/

namespace MarkupEdit.CommandLine

def versionLine : String := "scalpel 0.1.0"

def usage : String :=
  Report.unlines
    ["Usage: scalpel [OPTIONS] <COMMAND>", "",
      "Commands:",
      "  locate    Show where an element sits in a file",
      "  siblings  Show the previous and next sibling of an element",
      "  apply     Apply mutations to a file",
      "  help      Print this message", "",
      "Options:",
      "  -v, --verbose  Log decisions to stderr",
      "  -h, --help     Print help",
      "  -V, --version  Print version"]

def locate (query : Query) : Action Report := do
  match ← Action.readText query.file with
  | .error e => pure (.failure e.message)
  | .ok text =>
    match MarkupEdit.locate? text (utf8 query.id) with
    | none => pure (.failure s!"Element {query.id} not found in {query.file}")
    | some loc =>
      match query.format with
      | .json => pure (.success (loc.toJson.pretty "" ++ "\n"))
      | .text => pure (.success (showLocation query.id loc))

def siblings (query : Query) : Action Report := do
  match ← Action.readText query.file with
  | .error e => pure (.failure e.message)
  | .ok text =>
    match MarkupEdit.siblings text (utf8 query.id) with
    | .error refusal => pure (.failure s!"{refusal.message} in {query.file}")
    | .ok s =>
      match query.format with
      | .json => pure (.success (s.toJson.pretty "" ++ "\n"))
      | .text => pure (.success (showSiblings query.id s))

def outcomeLine (m : Mutation) : Outcome → String
  | .applied version => s!"✓ {m.description} (v{version})"
  | .unchanged reason => s!"○ {m.description} skipped: {reason}"

/-- The last part of a path that is a name. -/
def fileName? (path : String) : Option String :=
  match ((pathParts path).filter fun part => part != "" && part != ".").getLast? with
  | none | some ".." => none
  | some name => some name

def readScript (malformed : String) (source : Source) :
    Action (Except String (List Mutation × Option String)) := do
  match source with
  | .argument script => pure (mutationsOf script none)
  | .file path =>
    match ← Action.readText path with
    | .error e => pure (.error e.message)
    | .ok content => pure (mutationsOf content.text ((fileName? path).map ("Script " ++ ·)))
where
  mutationsOf (script : String) (description : Option String) :
      Except String (List Mutation × Option String) :=
    match Script.parse script with
    | .error fault => .error (Script.message malformed fault)
    | .ok mutations => .ok (mutations, description)

def copyFile (source target : String) : Action (Except FileError Unit) := do
  match ← Action.readFile source with
  | .error e => pure (.error e)
  | .ok content => Action.writeFile target content

/-- Writes an edited document back, after a copy of the file was made if one is wanted. -/
def writeBack (config : Config) (file : String) (doc : Document) : Action (Except String Unit) := do
  let copied ← if config.backup then copyFile file (Config.backupPath file) else pure (.ok ())
  match copied with
  | .error e => pure (.error e.message)
  | .ok () =>
    match ← doc.save with
    | .error e => pure (.error e.message)
    | .ok _ => pure (.ok ())

def applyTo (config : Config) (a : Application) (mutations : List Mutation)
    (description : Option String) (doc : Document) : Action Report := do
  let (outcomes, doc) := doc.applyAll mutations description
  let lines := Report.unlines ((mutations.zip outcomes).map fun (m, o) => outcomeLine m o)
  if a.printOnly then pure ⟨0, doc.text.text, lines⟩
  else if doc.isDirty = false then pure (.success (lines ++ "Done Nothing to write\n"))
  else
    match ← writeBack config a.file doc with
    | .error message => pure (.failureAfter lines message)
    | .ok () =>
      let applied := (outcomes.filter Outcome.isApplied).length
      pure (.success (lines ++
        s!"Done {applied} of {mutations.length} mutations applied to {a.file}\n"))

def apply (malformed : String) (a : Application) : Action Report := do
  match ← Config.load with
  | .error (.file e) => pure (.failure e.message)
  | .error (.content _) => pure (.failure malformed)
  | .ok config =>
    match ← readScript malformed a.source with
    | .error message => pure (.failure message)
    | .ok (mutations, description) =>
      match ← Document.load a.file with
      | .error e => pure (.failure e.message)
      | .ok doc =>
        applyTo config a mutations description (doc.withHistoryCapacity config.historyCapacity)

/-- Runs the program with arguments. `malformed` is said of a text that is not JSON as wanted. -/
def run (malformed : String) (args : List String) : Action Report :=
  match Command.parse? args with
  | none => pure (.misuse usage)
  | some .version => pure (.success (versionLine ++ "\n"))
  | some .help => pure (.success usage)
  | some (.locate query) => locate query
  | some (.siblings query) => siblings query
  | some (.apply a) => apply malformed a

end MarkupEdit.CommandLine
