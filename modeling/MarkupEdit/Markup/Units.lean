import MarkupEdit.Markup.Scan

/-!
The units of markup at an offset of a document: each function answers for the unit whose first
byte stands at the offset, and has no answer where no such unit starts or where it never ends.
-/

namespace MarkupEdit.Units

/-- Past the literal whose quote, whatever byte that is, stands at `start`. -/
def quotedEnd (text : Bytes) (start : Nat) : Option Nat :=
  match text.drop start with
  | [] => none
  | quote :: t => Scan.quotedEnd quote (start + 1) t

def templateEnd (text : Bytes) (start : Nat) : Option Nat :=
  match text.drop start with
  | [] => none
  | c :: t => if c = Byte.backtick then Scan.templateEnd (start + 1) t else none

def blockEnd (text : Bytes) (start : Nat) : Option Nat :=
  match text.drop start with
  | [] => none
  | c :: t => if c = Byte.openBrace then Scan.blockEnd (start + 1) 0 t else none

def delimitedEnd (text : Bytes) (start : Nat) : Option Nat :=
  match text.drop start with
  | [] => none
  | c :: _ =>
    if Byte.isQuote c then quotedEnd text start
    else if c = Byte.backtick then templateEnd text start
    else if c = Byte.openBrace then blockEnd text start
    else none

def openTag? (text : Bytes) (start : Nat) : Option OpenTag :=
  match text.drop start with
  | [] => none
  | c :: t => if c = Byte.less then Scan.openTag? start t else none

/-- Past the closing tag that matches an opening tag of the given name ending at `start`. -/
def contentEnd (text : Bytes) (start : Nat) (name : Bytes) : Option Nat :=
  Scan.contentEnd start name 0 (text.drop start)

end MarkupEdit.Units
