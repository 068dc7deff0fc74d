import MarkupEdit.CommandLine.Run

/-!
The program: carries its actions out on the files of the system and prints its report.
-/

namespace MarkupEdit

/-- The numbers are those of `EISDIR`, `ENOTDIR` and `ENAMETOOLONG`. -/
def FileError.ofSystem : IO.Error → FileError
  | .noFileOrDirectory .. => .missing
  | .inappropriateType _ 21 _ => .isDirectory
  | .inappropriateType _ 20 _ => .notDirectory
  | .invalidArgument _ 36 _ => .nameTooLong
  | e => .other (toString e)

def attempt {α : Type} (ask : IO α) : IO (Except FileError α) := do
  try
    return .ok (← ask)
  catch e =>
    return .error (.ofSystem e)

def Action.perform {α : Type} : Action α → IO α
  | .done a => pure a
  | .read path next => do
    let content ← attempt (IO.FS.readBinFile path)
    (next (content.map fun bytes => bytes.data.toList)).perform
  | .probe path next => do
    let opened ← attempt (IO.FS.Handle.mk path .read)
    (next (match opened with | .ok _ => true | .error _ => false)).perform
  | .write path content next => do
    let written ← attempt (IO.FS.writeBinFile path ⟨content.toArray⟩)
    (next written).perform

end MarkupEdit

def main (args : List String) : IO UInt32 := do
  let report ← (MarkupEdit.CommandLine.run "the text is not JSON of the expected form" args).perform
  (← IO.getStdout).putStr report.out
  (← IO.getStderr).putStr report.err
  return report.code.toUInt32
