import MarkupEdit.Text.Space
import MarkupEdit.Markup.Attribute

/-!
The written forms of an attribute value. A value is a literal in one of six encodings, or a
binding to an expression, or it is not there at all. Reading keeps the text between the
delimiters as it is written; writing escapes whatever would end the literal early.
-/

namespace MarkupEdit

/-- The forms `"v"`, `'v'`, `v`, `{"v"}` and `{'v'}` of a value `v`, and a template in braces that
embeds no expression. -/
inductive Encoding where
  | doubleQuoted
  | singleQuoted
  | unquoted
  | bracedDouble
  | bracedSingle
  | bracedTemplate
  deriving DecidableEq, Repr

inductive AttributeValue where
  /-- The text between the delimiters of a literal. -/
  | literal (encoding : Encoding) (text : Bytes)
  | binding (raw : Bytes)
  | bare
  deriving DecidableEq

namespace Encoding

/-- The content of a text that is one quoted literal, or one template without expressions, from
its first byte to its last. -/
def content? (raw : Bytes) : Option Bytes :=
  match raw with
  | [] => none
  | c :: t =>
    if Byte.isQuote c then
      if Units.quotedEnd raw 0 = some raw.length then some t.dropLast else none
    else if c = Byte.backtick then
      if Units.templateEnd raw 0 = some raw.length ∧ raw.hasSubtext (utf8 "$\x7b") = false then
        some t.dropLast
      else none
    else none

/-- What stands between the braces of a text that starts with `{` and ends with `}`, without
white space around it. -/
def unbraced? (raw : Bytes) : Option Bytes :=
  match raw with
  | [] => none
  | c :: t =>
    if c = Byte.openBrace ∧ t.getLast? = some Byte.closeBrace then some (Bytes.trim t.dropLast)
    else none

def braced (first : UInt8) : Encoding :=
  if first = Byte.doubleQuote then bracedDouble
  else if first = Byte.singleQuote then bracedSingle
  else bracedTemplate

def parse (raw : Bytes) : Option (Encoding × Bytes) :=
  match raw with
  | [] => none
  | c :: _ =>
    if Byte.isQuote c then
      (content? raw).map (if c = Byte.doubleQuote then doubleQuoted else singleQuoted, ·)
    else if c = Byte.openBrace then do
      let inner ← unbraced? raw
      let text ← content? inner
      let first ← inner.head?
      pure (braced first, text)
    else if c = Byte.backtick then none
    else some (unquoted, raw)

def refer (mark : UInt8) (reference : String) (value : Bytes) : Bytes :=
  value.flatMap fun b => if b = mark then utf8 reference else [b]

def escape (mark : UInt8) (value : Bytes) : Bytes :=
  value.flatMap fun b => if b = mark ∨ b = Byte.backslash then [Byte.backslash, b] else [b]

/-- A backslash in front of every backtick, every backslash and every `${`. -/
def escapeTemplate (value : Bytes) : Bytes :=
  value.foldr (fun b rest =>
    if b = Byte.backtick ∨ b = Byte.backslash ∨
        (b = Byte.dollar ∧ rest.head? = some Byte.openBrace) then Byte.backslash :: b :: rest
    else b :: rest) []

def quote (mark : UInt8) (value : Bytes) : Bytes := mark :: (value ++ [mark])

def brace (value : Bytes) : Bytes := Byte.openBrace :: (value ++ [Byte.closeBrace])

/-- A value between the given quotes, or between the `other` ones when it holds the given ones
only; where it holds both, the given ones are written as references. -/
def formatQuoted (mark other : UInt8) (reference : String) (value : Bytes) : Bytes :=
  if value.contains mark ∧ value.contains other = false then quote other value
  else quote mark (refer mark reference value)

def isPlainByte (b : UInt8) : Bool :=
  !(Byte.isBlank b || Byte.isQuote b || b == Byte.backtick || b == Byte.equals ||
    b == Byte.less || b == Byte.greater || b == Byte.openBrace || b == Byte.closeBrace ||
    b == Byte.slash)

def formatDouble (value : Bytes) : Bytes :=
  formatQuoted Byte.doubleQuote Byte.singleQuote "&quot;" value

/-- A value written in an encoding. One that cannot stand without delimiters gets quotes. -/
def format (encoding : Encoding) (value : Bytes) : Bytes :=
  match encoding with
  | doubleQuoted => formatDouble value
  | singleQuoted => formatQuoted Byte.singleQuote Byte.doubleQuote "&#39;" value
  | unquoted =>
    if value.isEmpty = false ∧ value.all isPlainByte then value else formatDouble value
  | bracedDouble => brace (quote Byte.doubleQuote (escape Byte.doubleQuote value))
  | bracedSingle => brace (quote Byte.singleQuote (escape Byte.singleQuote value))
  | bracedTemplate => brace (quote Byte.backtick (escapeTemplate value))

end Encoding

namespace AttributeValue

def classify : Option Bytes → AttributeValue
  | none => bare
  | some raw =>
    match Encoding.parse raw with
    | none => binding raw
    | some (encoding, text) => literal encoding text

def literal? : AttributeValue → Option Bytes
  | literal _ text => some text
  | _ => none

end AttributeValue

def Attribute.classify (a : Attribute) : AttributeValue := AttributeValue.classify a.raw

end MarkupEdit
