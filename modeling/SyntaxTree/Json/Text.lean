/-
SyntaxTree/Json/Text.lean

Strings in JSON text.  Between the quotes a character stands for itself unless it is a
quote, a backslash or a control character below U+0020.  A backslash begins an escape:
one of eight short ones, or `u` with the four hexadecimal digits of a UTF-16 unit.  A
high surrogate must be followed at once by the escape of a low one, and the two make one
character; a surrogate that stands alone is refused.

Writing uses the short escapes where there are any, four digits for the other control
characters, and leaves all else as it is.
-/
import SyntaxTree.Json.Reader

namespace SyntaxTree.Json

open Reader

/-- The short escapes: the letter after the backslash and the character it means. -/
def shortEscapes : List (Char × Char) :=
  [('"', '"'), ('\\', '\\'), ('/', '/'), ('b', '\x08'), ('f', '\x0c'), ('n', '\n'), ('r', '\r'),
    ('t', '\t')]

/-- The value of a hexadecimal digit of either case. -/
def hexDigit? (c : Char) : Option Nat :=
  if '0' ≤ c ∧ c ≤ '9' then some (c.toNat - '0'.toNat)
  else if 'a' ≤ c ∧ c ≤ 'f' then some (c.toNat - 'a'.toNat + 10)
  else if 'A' ≤ c ∧ c ≤ 'F' then some (c.toNat - 'A'.toNat + 10)
  else none

/-- The value of four hexadecimal digits. -/
def hexUnit? (a b c d : Char) : Option Nat := do
  return (((← hexDigit? a) * 16 + (← hexDigit? b)) * 16 + (← hexDigit? c)) * 16 + (← hexDigit? d)

/-- The number of bytes that characters take in UTF-8. -/
def byteCount (cs : List Char) : Nat := cs.foldr (fun c n => c.utf8Size + n) 0

/-- Reads four hexadecimal digits. Fewer than four bytes of text are too few, whatever they
hold. -/
def hexUnit : Reader Nat := fun cs =>
  if byteCount (cs.take 4) < 4 then .error .endOfText
  else
    match cs with
    | a :: b :: c :: d :: rest =>
      match hexUnit? a b c d with
      | some unit => .ok (unit, rest)
      | none => .error .badSyntax
    | _ => .error .badSyntax

/-- Whether a UTF-16 unit is the first half of a pair. -/
def isHighSurrogate (unit : Nat) : Bool := 0xD800 ≤ unit && unit < 0xDC00

/-- Whether a UTF-16 unit is the second half of a pair. -/
def isLowSurrogate (unit : Nat) : Bool := 0xDC00 ≤ unit && unit < 0xE000

/-- The character of a surrogate pair. -/
def pairedChar (high low : Nat) : Char :=
  .ofNat (0x10000 + (high - 0xD800) * 0x400 + (low - 0xDC00))

/-- Reads what follows `\u`: one unit, or both halves of a pair. -/
def escapedUnits : Reader Char := do
  let unit ← hexUnit
  if isLowSurrogate unit then refuse .badSyntax
  else if isHighSurrogate unit then do
    word ['\\', 'u']
    let low ← hexUnit
    if isLowSurrogate low then return pairedChar unit low else refuse .badSyntax
  else return .ofNat unit

/-- Reads what follows a backslash. -/
def escaped : Reader Char := do
  let c ← next
  if c = 'u' then escapedUnits
  else
    match shortEscapes.lookup c with
    | some meant => return meant
    | none => refuse .badSyntax

/-- Reads one character of a string, or the quote that ends it. -/
def textTurn (reversed : List Char) : Reader (Turn (List Char) String) := do
  let c ← next
  if c = '"' then return .finished (.ofList reversed.reverse)
  else if c = '\\' then return .again ((← escaped) :: reversed)
  else if c.toNat < 0x20 then refuse .badSyntax
  else return .again (c :: reversed)

/-- Reads a string whose opening quote has been taken. -/
def textBody : Reader String := loop textTurn []

/-- A character as it is written inside a string. -/
def writtenChar (c : Char) : List Char :=
  if c = '"' then ['\\', '"']
  else if c = '\\' then ['\\', '\\']
  else if c = '\x08' then ['\\', 'b']
  else if c = '\t' then ['\\', 't']
  else if c = '\n' then ['\\', 'n']
  else if c = '\x0c' then ['\\', 'f']
  else if c = '\r' then ['\\', 'r']
  else if c.toNat < 0x20 then
    ['\\', 'u', '0', '0', Nat.digitChar (c.toNat / 16), Nat.digitChar (c.toNat % 16)]
  else [c]

/-- A string as it is written, with its quotes. -/
def writtenText (s : String) : List Char := '"' :: (s.toList.flatMap writtenChar ++ ['"'])

end SyntaxTree.Json
