/-
SyntaxTree/Text/Quoted.lean

Quoted text for human eyes.  A text stands between double quotes; the quote, the
backslash and five control characters have short escapes, every other unprintable
character is given by its code point in hexadecimal, and all else stands as it is.
-/
import SyntaxTree.Text.Unprintable

namespace SyntaxTree.Text

/-- A character as it stands inside a quoted text. -/
def quotedChar (c : Char) : List Char :=
  if c = '\x00' then ['\\', '0']
  else if c = '\t' then ['\\', 't']
  else if c = '\r' then ['\\', 'r']
  else if c = '\n' then ['\\', 'n']
  else if c = '"' then ['\\', '"']
  else if c = '\\' then ['\\', '\\']
  else if isUnprintable c then '\\' :: 'u' :: '\x7b' :: (Nat.toDigits 16 c.toNat ++ ['\x7d'])
  else [c]

/-- A text between double quotes, with its quotes, backslashes and unprintable characters
escaped. -/
def quoted (s : String) : String :=
  .ofList ('"' :: (s.toList.flatMap quotedChar ++ ['"']))

end SyntaxTree.Text
