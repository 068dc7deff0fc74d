import MarkupEdit.Files.Action
import MarkupEdit.Files.Path

/-!
A directory as a value: files by their paths relative to it. The directories on the way to a
file are there with it. A path may lead out of the directory; there it finds what every system
has: the directories at its root and the null device.
-/

namespace MarkupEdit

structure Directory where
  /-- The files in the order in which they were made. -/
  files : List (FilePath × Bytes)
  deriving DecidableEq

namespace Directory

def maxNameBytes : Nat := 255

def maxPathBytes : Nat := 4095

/-- Where the directory stands, seen from the root of the system. -/
def location : FilePath := ["tmp", "work"]

def rootDirectories : List String :=
  ["bin", "boot", "dev", "etc", "home", "lib", "media", "mnt", "opt", "proc", "root", "run",
    "sbin", "srv", "sys", "tmp", "usr", "var"]

/-- The device that is always empty and that nothing written to is kept in. -/
def nullDevice : FilePath := ["dev", "null"]

inductive Entry where
  | file (path : FilePath) (content : Bytes)
  | device
  | directory
  /-- Nothing yet, in a directory that is there. -/
  | free (path : FilePath)
  | blocked (e : FileError)

def find? (dir : Directory) (path : FilePath) : Option Bytes :=
  (dir.files.find? (·.1 = path)).map (·.2)

/-- Some file lies beneath the path. -/
def isDirectory (dir : Directory) (path : FilePath) : Bool :=
  path.isEmpty || dir.files.any fun file => path.isPrefixOf file.1 && file.1 != path

def entry (dir : Directory) (path : FilePath) : Entry :=
  match dir.find? path with
  | some content => .file path content
  | none => if dir.isDirectory path then .directory else .free path

def outerEntry : FilePath → Entry
  | [] => .directory
  | [name] => if rootDirectories.contains name then .directory else .blocked .missing
  | path => if path = nullDevice then .device else .blocked .missing

def entryAt (dir : Directory) (path : FilePath) : Entry :=
  if location.isPrefixOf path then dir.entry (path.drop location.length) else outerEntry path

/-- Follows the parts of a path, one by one, from the directory that stands at `here`, seen from
the root. An empty part and a dot stay where they are, and two dots go up; nothing is above the
root. -/
def follow (dir : Directory) (here : FilePath) : List String → Entry
  | [] => dir.entryAt here
  | part :: rest =>
    if maxNameBytes < part.utf8ByteSize then .blocked .nameTooLong
    else if part = "" ∨ part = "." then dir.follow here rest
    else if part = ".." then dir.follow here.dropLast rest
    else
      match rest, dir.entryAt (here ++ [part]) with
      | [], found => found
      | _, .directory => dir.follow (here ++ [part]) rest
      | _, .file .. | _, .device => .blocked .notDirectory
      | _, _ => .blocked .missing

/-- What a written path leads to, from the root if it starts with a slash. -/
def resolve (dir : Directory) (path : String) : Entry :=
  if path = "" then .blocked .missing
  else if maxPathBytes < path.utf8ByteSize then .blocked .nameTooLong
  else dir.follow (if path.toList.head? = some '/' then [] else location) (pathParts path)

def read (dir : Directory) (path : String) : Except FileError Bytes :=
  match dir.resolve path with
  | .file _ content => .ok content
  | .device => .ok []
  | .directory => .error .isDirectory
  | .free _ => .error .missing
  | .blocked e => .error e

def contains (dir : Directory) (path : String) : Bool :=
  match dir.resolve path with
  | .file .. | .device | .directory => true
  | _ => false

/-- The directory with a file in it, in the place of the one that had its path. -/
def put (dir : Directory) (path : FilePath) (content : Bytes) : Directory :=
  if (dir.find? path).isSome then
    ⟨dir.files.map fun file => if file.1 = path then (path, content) else file⟩
  else ⟨dir.files ++ [(path, content)]⟩

def write (dir : Directory) (path : String) (content : Bytes) : Except FileError Directory :=
  match dir.resolve path with
  | .file path _ | .free path => .ok (dir.put path content)
  | .device => .ok dir
  | .directory => .error .isDirectory
  | .blocked e => .error e

def ofFiles (files : List (String × Bytes)) : Directory :=
  ⟨files.map fun (path, content) => (pathParts path, content)⟩

def toFiles (dir : Directory) : List (String × Bytes) :=
  dir.files.map fun (path, content) => ("/".intercalate path, content)

end Directory

def Action.runIn {α : Type} (dir : Directory) : Action α → α × Directory
  | done a => (a, dir)
  | read path next => (next (dir.read path)).runIn dir
  | probe path next => (next (dir.contains path)).runIn dir
  | write path content next =>
    match dir.write path content with
    | .error e => (next (.error e)).runIn dir
    | .ok changed => (next (.ok ())).runIn changed

end MarkupEdit
