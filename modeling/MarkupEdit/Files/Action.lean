import MarkupEdit.Text.Bytes

/-!
What a program does with files, as data. An action is done, or it asks for something and goes on
with the answer; it can be carried out in a directory that is itself a value.
-/

namespace MarkupEdit

inductive FileError where
  | missing
  | isDirectory
  | notDirectory
  | nameTooLong
  /-- The content is not valid UTF-8. -/
  | notText
  | other (reason : String)
  deriving DecidableEq

def FileError.message : FileError → String
  | missing => "No such file or directory (os error 2)"
  | isDirectory => "Is a directory (os error 21)"
  | notDirectory => "Not a directory (os error 20)"
  | nameTooLong => "File name too long (os error 36)"
  | notText => "stream did not contain valid UTF-8"
  | other reason => reason

inductive Action (α : Type) where
  | done (a : α)
  | read (path : String) (next : Except FileError Bytes → Action α)
  | probe (path : String) (next : Bool → Action α)
  | write (path : String) (content : Bytes) (next : Except FileError Unit → Action α)

namespace Action

def bind {α β : Type} (action : Action α) (f : α → Action β) : Action β :=
  match action with
  | done a => f a
  | read path next => .read path fun answer => (next answer).bind f
  | probe path next => .probe path fun answer => (next answer).bind f
  | write path content next => .write path content fun answer => (next answer).bind f

instance : Monad Action where
  pure := done
  bind := bind

def readFile (path : String) : Action (Except FileError Bytes) := read path done

/-- Reads a file that has to be text. -/
def readText (path : String) : Action (Except FileError Bytes) :=
  read path fun
    | .error e => done (.error e)
    | .ok content => done (if content.text?.isSome then .ok content else .error .notText)

def fileExists (path : String) : Action Bool := .probe path done

def writeFile (path : String) (content : Bytes) : Action (Except FileError Unit) :=
  write path content done

end Action

end MarkupEdit
