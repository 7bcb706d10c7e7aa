/-
SyntaxTree/Json/Numeral.lean

Numbers in JSON text: an optional minus sign, a whole part without a superfluous leading
zero, an optional fraction and an optional exponent.  The digits are kept as they stand.

A numeral is refused if its magnitude is beyond the largest binary number of double
precision.  What counts is the nearest double to the product of two doubles: the leading
digits, as many as a 64-bit word can hold, and the power of ten they are to be scaled
by.  Scaling down never overflows.
-/
import SyntaxTree.Json.Reader

namespace SyntaxTree.Json

open Reader

/-- A number as written. -/
structure Numeral where
  negative : Bool
  /-- The values of the digits before the point. -/
  whole : List Nat
  /-- The values of the digits after the point. -/
  fraction : List Nat
  /-- The power of ten written behind the digits. -/
  exponent : Int
deriving DecidableEq, Repr, Inhabited

namespace Numeral

/-- One more than the largest significand: what 64 bits can hold. -/
def significandBound : Nat := Nat.pow 2 64

/-- Appends digits to a significand as long as it stays below the bound: the
significand, and the digits that found no room. -/
def absorb (significand : Nat) : List Nat → Nat × List Nat
  | [] => (significand, [])
  | d :: ds =>
    if significand * 10 + d < significandBound then absorb (significand * 10 + d) ds
    else (significand, d :: ds)

/-- The leading digits of a numeral as one number, and the power of ten that scales it. A
digit of the whole part that found no room counts into the power; so does, downwards, a
digit of the fraction that found room. -/
def scaled (n : Numeral) : Nat × Int :=
  let (wholePart, dropped) := absorb 0 n.whole
  let (significand, unread) := absorb wholePart n.fraction
  (significand, n.exponent + dropped.length - (n.fraction.length - unread.length : Nat))

/-- The nearest number with at most 53 significant bits; of two equally near the even one. -/
def roundToDouble (n : Nat) : Nat :=
  let excess := n.log2 - 52
  let unit := Nat.pow 2 excess
  let below := n / unit
  let twice := 2 * (n % unit)
  if unit < twice ∨ (unit = twice ∧ below % 2 = 1) then (below + 1) * unit else below * unit

/-- The least magnitude that has no nearest double: half a step beyond the largest. -/
def overflowBound : Nat := Nat.pow 2 1024 - Nat.pow 2 970

/-- Whether a numeral is too large for a double. -/
def overflows (n : Numeral) : Bool :=
  let (significand, power) := n.scaled
  significand ≠ 0
    && (308 < power
      || (0 ≤ power
        && overflowBound ≤ roundToDouble significand * roundToDouble (Nat.pow 10 power.toNat)))

end Numeral

/-- Whether a character is a decimal digit. -/
def isDigit (c : Char) : Bool := '0' ≤ c && c ≤ '9'

/-- The value of a decimal digit. -/
def digitValue (c : Char) : Nat := c.toNat - '0'.toNat

/-- Reads one or more digits. -/
def digits : Reader (List Nat) := do
  let c ← peek
  if isDigit c then return (← takeWhile isDigit).map digitValue else refuse .badSyntax

/-- Reads the digits before the point: a zero by itself, or digits that begin otherwise. -/
def wholeDigits : Reader (List Nat) := do
  let ds ← digits
  match ds with
  | 0 :: _ :: _ => refuse .badSyntax
  | _ => return ds

/-- Reads a point and the digits after it, if there is a point. -/
def fractionDigits : Reader (List Nat) := do
  if ← accept (· = '.') then digits else return []

/-- The number written with some digits. -/
def ofDigits (ds : List Nat) : Nat := ds.foldl (fun n d => n * 10 + d) 0

/-- Reads an exponent, if there is one. -/
def exponentPart : Reader Int := do
  if ← accept fun c => c = 'e' || c = 'E' then do
    let negative ← accept (· = '-')
    if negative then return -(ofDigits (← digits) : Int)
    else do
      let _ ← accept (· = '+')
      return (ofDigits (← digits) : Int)
  else return 0

/-- Reads a number. -/
def numeral : Reader Numeral := do
  let negative ← accept (· = '-')
  let whole ← wholeDigits
  let fraction ← fractionDigits
  let exponent ← exponentPart
  let n : Numeral := { negative, whole, fraction, exponent }
  if n.overflows then refuse .badSyntax else return n

end SyntaxTree.Json
