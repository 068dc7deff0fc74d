import MarkupEdit.Json.Writer
import MarkupEdit.Markup.Siblings

/-!
How what the program finds is shown, as lines for people or as JSON.
-/

namespace MarkupEdit

open Json (Value)

def optionValue (s : Option Bytes) : Value := Value.ofOption (s.map Bytes.text)

def Location.toJson (loc : Location) : Value :=
  .object
    [("start", .ofNat loc.start), ("end", .ofNat loc.stop), ("openEnd", .ofNat loc.openEnd),
      ("outerText", .string loc.outer.text), ("tag", .string loc.tag.text),
      ("classes", optionValue loc.classes), ("selfClosing", .bool loc.selfClosing),
      ("closed", .bool loc.closed)]

def Siblings.toJson (s : Siblings) : Value :=
  .object [("previousId", optionValue s.previous), ("nextId", optionValue s.next)]

namespace CommandLine

structure Report where
  code : Nat
  out : String
  err : String
  deriving DecidableEq

namespace Report

def unlines (lines : List String) : String := String.join (lines.map (· ++ "\n"))

def success (out : String) : Report := ⟨0, out, ""⟩

/-- A failure after something was printed. -/
def failureAfter (out message : String) : Report :=
  ⟨1, out, unlines ["", "Error: " ++ message, ""]⟩

def failure (message : String) : Report := failureAfter "" message

def misuse (usage : String) : Report := ⟨2, "", usage⟩

end Report

/-- A text, or a hyphen where there is none. -/
def orHyphen (s : Option Bytes) : String := (s.map Bytes.text).getD "-"

def showLocation (id : String) (loc : Location) : String :=
  Report.unlines <|
    ["Element " ++ id, "   Tag:     <" ++ loc.tag.text ++ ">",
      "   Span:    " ++ toString loc.start ++ ".." ++ toString loc.stop,
      "   Classes: " ++ orHyphen loc.classes] ++
    (if loc.selfClosing then ["   self-closing"] else []) ++
    (if loc.closed then []
      else ["   ⚠ no matching closing tag, span covers the opening tag only"]) ++
    ["", loc.outer.text]

def showSiblings (id : String) (s : Siblings) : String :=
  Report.unlines
    ["Siblings of " ++ id, "   Previous: " ++ orHyphen s.previous,
      "   Next:     " ++ orHyphen s.next]

end CommandLine

end MarkupEdit
