import MarkupEdit.Files.Action
import MarkupEdit.Json.Fault
import MarkupEdit.Json.Reader

/-!
The configuration of a directory. It is read token by token, and the first fault counts: a value
of a wrong kind is told before anything behind it is looked at.
-/

namespace MarkupEdit

structure Config where
  /-- The number of steps kept for undoing; 0 keeps all. -/
  historyCapacity : Nat
  backup : Bool
  deriving DecidableEq

namespace Config

open Json (Token)

def default : Config := ⟨100, false⟩

def fileName : String := "scalpel.config.json"

def backupPath (path : String) : String := path ++ ".bak"

abbrev Read (α : Type) := Except Json.Fault α

def maxCapacity : Nat := UInt64.size - 1

/-- A value of a wrong kind starts with a token; the fault of the token itself counts first. -/
def mismatch {α : Type} : Token → Read α
  | .number n => .error (if n.isFinite then .mismatched else .malformed)
  | .openBracket | .openBrace | .null | .bool _ | .string _ => .error .mismatched
  | _ => .error .malformed

/-- The capacity that a token is: a natural number of 64 bits, without point and exponent. -/
def capacityOf (token : Token) : Read Nat :=
  match token with
  | .number n =>
    match n.toNat? with
    | none => mismatch token
    | some capacity => if capacity ≤ maxCapacity then .ok capacity else mismatch token
  | _ => mismatch token

def switchOf (token : Token) : Read Bool :=
  match token with
  | .bool b => .ok b
  | _ => mismatch token

structure Settings where
  historyCapacity : Option Nat
  backup : Option Bool

def Settings.config (settings : Settings) : Config :=
  ⟨settings.historyCapacity.getD default.historyCapacity, settings.backup.getD default.backup⟩

def finish (config : Config) (rest : List Token) : Read Config :=
  if rest.isEmpty then .ok config else .error .malformed

/-- The settings in an array whose `[` was read: the capacity and then the switch for backups,
both of which may be left out at the end. -/
def ofItems : List Token → Read Config
  | .closeBracket :: rest => finish default rest
  | capacity :: rest => do
    let capacity ← capacityOf capacity
    match rest with
    | .closeBracket :: rest => finish ⟨capacity, default.backup⟩ rest
    | .comma :: .closeBracket :: _ => .error .malformed
    | .comma :: backup :: rest =>
      let backup ← switchOf backup
      match rest with
      | .closeBracket :: rest => finish ⟨capacity, backup⟩ rest
      | _ => .error .malformed
    | _ => .error .malformed
  | [] => .error .malformed

/-- The settings after the field with the given key, and the number of tokens of its value. -/
def readField (settings : Settings) (key : String) (tokens : List Token) :
    Read (Settings × Nat) :=
  if key = "historyCapacity" then
    if settings.historyCapacity.isSome then .error .mismatched
    else
      match tokens with
      | .colon :: token :: _ => do
        pure ({ settings with historyCapacity := some (← capacityOf token) }, 2)
      | _ => .error .malformed
  else if key = "backup" then
    if settings.backup.isSome then .error .mismatched
    else
      match tokens with
      | .colon :: token :: _ => do
        pure ({ settings with backup := some (← switchOf token) }, 2)
      | _ => .error .malformed
  else
    match tokens with
    | .colon :: rest =>
      match Json.Reader.read? .passing rest with
      | none => .error .malformed
      | some (_, n) => .ok (settings, n + 1)
    | _ => .error .malformed

def ofFields (settings : Settings) : List Token → Read Config
  | .string key :: rest =>
    match readField settings key rest with
    | .error fault => .error fault
    | .ok (settings, n) =>
      match rest.drop n with
      | .closeBrace :: rest => finish settings.config rest
      | .comma :: _ => ofFields settings (rest.drop (n + 1))
      | _ => .error .malformed
  | _ => .error .malformed
termination_by tokens => tokens.length
decreasing_by simp only [List.length_cons, List.length_drop]; omega

def parse (text : String) : Read Config :=
  match Token.ofChars text.toList with
  | [] => .error .malformed
  | .openBracket :: rest => ofItems rest
  | .openBrace :: .closeBrace :: rest => finish default rest
  | .openBrace :: rest => ofFields ⟨none, none⟩ rest
  | token :: _ => mismatch token

inductive Failure where
  | file (e : FileError)
  | content (fault : Json.Fault)
  deriving DecidableEq

/-- The configuration of the directory; without a file it is the default one. -/
def load : Action (Except Failure Config) := do
  if ← Action.fileExists fileName then
    match ← Action.readText fileName with
    | .error e => pure (.error (.file e))
    | .ok content =>
      match parse content.text with
      | .error fault => pure (.error (.content fault))
      | .ok config => pure (.ok config)
  else pure (.ok default)

end Config

end MarkupEdit
