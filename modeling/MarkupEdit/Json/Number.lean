/-!
Numbers of JSON as they are written: a sign, digits, and perhaps a fraction and an exponent.
A number is read into a 64-bit significand and a decimal exponent, and has to stay below the
bound of binary floating point with 53 bits and exponents up to 1023.
-/

namespace MarkupEdit.Json

structure Number where
  negative : Bool
  whole : List Nat
  /-- The digits behind the point, none when there is no point. -/
  fraction : List Nat
  /-- Whether the exponent has a minus sign, and its digits. -/
  exponent : Option (Bool × List Nat)
  deriving DecidableEq

namespace Number

def digitsOf (n : Nat) : List Nat := (Nat.toDigits 10 n).map fun c => c.toNat - '0'.toNat

def ofNat (n : Nat) : Number := ⟨false, digitsOf n, [], none⟩

def value (digits : List Nat) : Nat := digits.foldl (fun n d => 10 * n + d) 0

def isPlain (n : Number) : Bool := n.fraction.isEmpty && n.exponent.isNone

/-- The natural number that is written without sign, point and exponent. -/
def toNat? (n : Number) : Option Nat :=
  if n.negative = false ∧ n.isPlain then some (value n.whole) else none

def maxSignificand : Nat := UInt64.size - 1

/-- Takes in whole digits while the significand has room; `full` says that it had none. Digits
beyond count in the exponent. -/
def takeWhole (significand exponent : Nat) (full : Bool) : List Nat → Nat × Nat
  | [] => (significand, exponent)
  | d :: rest =>
    if full ∨ maxSignificand < 10 * significand + d then
      takeWhole significand (exponent + 1) true rest
    else takeWhole (10 * significand + d) exponent false rest

def takeFraction (significand : Nat) (exponent : Int) : List Nat → Nat × Int
  | [] => (significand, exponent)
  | d :: rest =>
    if maxSignificand < 10 * significand + d then (significand, exponent)
    else takeFraction (10 * significand + d) (exponent - 1) rest

def writtenExponent (n : Number) : Int :=
  match n.exponent with
  | none => 0
  | some (true, digits) => -(value digits : Int)
  | some (false, digits) => value digits

def scientific (n : Number) : Nat × Int :=
  let (significand, exponent) := takeWhole 0 0 false n.whole
  let (significand, exponent) := takeFraction significand exponent n.fraction
  (significand, exponent + n.writtenExponent)

/-- The nearest number with 53 significant bits; of two nearest ones the even one. -/
def round53 (n : Nat) : Nat :=
  if n < Nat.pow 2 53 then n
  else
    let unit := Nat.pow 2 (n.log2 - 52)
    let low := n / unit * unit
    let excess := 2 * (n % unit)
    if unit < excess ∨ (unit = excess ∧ n / unit % 2 = 1) then low + unit else low

/-- The least number that is rounded to infinity. -/
def infinityBound : Nat := Nat.pow 2 1024 - Nat.pow 2 970

/-- The number stays below infinity: the rounded significand times the rounded power of ten is
no overflow. -/
def isFinite (n : Number) : Bool :=
  let (significand, exponent) := n.scientific
  significand = 0 || exponent < 0 ||
    (exponent ≤ 308 && round53 significand * round53 (Nat.pow 10 exponent.toNat) < infinityBound)

def format (n : Number) : String :=
  let digits (ds : List Nat) : String := String.ofList (ds.map Nat.digitChar)
  (if n.negative then "-" else "") ++ digits n.whole ++
    (if n.fraction.isEmpty then "" else "." ++ digits n.fraction) ++
    match n.exponent with
    | none => ""
    | some (negative, ds) => "e" ++ (if negative then "-" else "") ++ digits ds

end Number

end MarkupEdit.Json
