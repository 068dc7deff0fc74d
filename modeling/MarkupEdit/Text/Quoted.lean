import MarkupEdit.Text.Printable

/-!
Strings shown in double quotes inside a message. What would not show, or would end the quoted
form, is written as an escape.
-/

namespace MarkupEdit.Quoted

def hex (n : Nat) : String := String.ofList (Nat.toDigits 16 n)

/-- A character inside double quotes. A single quote is left as it is. -/
def encodeChar (c : Char) : String :=
  match c with
  | '\x00' => "\\0"
  | '\t' => "\\t"
  | '\n' => "\\n"
  | '\r' => "\\r"
  | '"' => "\\\""
  | '\\' => "\\\\"
  | _ => if isPrintable c then c.toString else "\\u\x7b" ++ hex c.toNat ++ "\x7d"

def encode (s : String) : String := "\"" ++ String.join (s.toList.map encodeChar) ++ "\""

end MarkupEdit.Quoted
