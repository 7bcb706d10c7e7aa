/-
SyntaxTree/Json/Value.lean

JSON values of any shape.  Members of an object keep their order, and names may repeat.

Arrays and objects may nest only so deep: the reader is given the number of brackets
that may still be opened inside one another, and refuses the next one as soon as it sees
it.
-/
import SyntaxTree.Json.Numeral
import SyntaxTree.Json.Text

namespace SyntaxTree.Json

open Reader

/-- A JSON value. -/
inductive Value where
  | null
  | bool (b : Bool)
  | number (n : Numeral)
  | string (s : String)
  | array (elements : List Value)
  | object (members : List (String × Value))
deriving Repr, Inhabited

/-- How many brackets may be open inside one another. -/
def maxNesting : Nat := 127

/-- Whether a character opens an array or an object. -/
def opensNesting (c : Char) : Bool := c = '[' || c = '\x7b'

/-- Reads a value other than an array or an object; `c` is its first character, which has
been seen but not taken. -/
def scalar (c : Char) : Reader Value :=
  if c = '"' then do
    let _ ← next
    return .string (← textBody)
  else if c = 'n' then do
    word "null".toList
    return .null
  else if c = 't' then do
    word "true".toList
    return .bool true
  else if c = 'f' then do
    word "false".toList
    return .bool false
  else if c = '-' ∨ isDigit c then return .number (← numeral)
  else refuse .badSyntax

/-- Reads the name of a member. -/
def memberName : Reader String := do
  skipBlanks
  expect '"'
  textBody

/-- Reads the colon between the name of a member and its value. -/
def colon : Reader Unit := do
  skipBlanks
  expect ':'

/-- Reads a member whose value is read by `value`. -/
def member (value : Reader Value) : Reader (String × Value) := do
  let name ← memberName
  colon
  return (name, ← value)

/-- Reads a value with at most so many brackets open inside one another. -/
def value : Nat → Reader Value
  | 0 => do
    let c ← peekPastBlanks
    if opensNesting c then refuse .badSyntax else scalar c
  | depth + 1 => do
    let c ← peekPastBlanks
    if c = '[' then do
      let _ ← next
      return .array (← listOf ']' (value depth))
    else if c = '\x7b' then do
      let _ ← next
      return .object (← listOf '\x7d' (member (value depth)))
    else scalar c

end SyntaxTree.Json
