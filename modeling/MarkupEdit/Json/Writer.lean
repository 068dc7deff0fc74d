import MarkupEdit.Json.Value

/-!
Writing values, on one line or with an indentation of two blanks for each level.
-/

namespace MarkupEdit.Json

def escapeChar (c : Char) : String :=
  match c with
  | '"' => "\\\""
  | '\\' => "\\\\"
  | '\x08' => "\\b"
  | '\x0c' => "\\f"
  | '\n' => "\\n"
  | '\r' => "\\r"
  | '\t' => "\\t"
  | _ =>
    if c.toNat < 0x20 then
      "\\u00" ++ String.ofList [Nat.digitChar (c.toNat / 16), Nat.digitChar (c.toNat % 16)]
    else c.toString

def quote (s : String) : String := "\"" ++ String.join (s.toList.map escapeChar) ++ "\""

namespace Value

mutual

/-- A value on one line without blanks. -/
def compact : Value → String
  | null => "null"
  | bool b => if b then "true" else "false"
  | number n => n.format
  | string s => quote s
  | array items => "[" ++ ",".intercalate (compactItems items) ++ "]"
  | object fields => "\x7b" ++ ",".intercalate (compactFields fields) ++ "\x7d"

def compactItems : List Value → List String
  | [] => []
  | v :: rest => compact v :: compactItems rest

def compactFields : List (String × Value) → List String
  | [] => []
  | (key, v) :: rest => (quote key ++ ":" ++ compact v) :: compactFields rest

end

/-- Lines between brackets; nothing stands between them when there are no lines. -/
def bracket (opening closing indent : String) (lines : List String) : String :=
  if lines.isEmpty then opening ++ closing
  else
    opening ++ "\n" ++ ",\n".intercalate (lines.map (indent ++ "  " ++ ·)) ++ "\n" ++ indent ++
      closing

mutual

/-- A value with each item and field on its own line; `indent` is the indentation of the line
that the value starts on. -/
def pretty (indent : String) : Value → String
  | array items => bracket "[" "]" indent (prettyItems (indent ++ "  ") items)
  | object fields => bracket "\x7b" "\x7d" indent (prettyFields (indent ++ "  ") fields)
  | v => compact v

def prettyItems (indent : String) : List Value → List String
  | [] => []
  | v :: rest => pretty indent v :: prettyItems indent rest

def prettyFields (indent : String) : List (String × Value) → List String
  | [] => []
  | (key, v) :: rest =>
    (quote key ++ ": " ++ pretty indent v) :: prettyFields indent rest

end

end Value

end MarkupEdit.Json
