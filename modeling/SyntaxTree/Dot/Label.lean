/-
SyntaxTree/Dot/Label.lean

Text inside the double quotes of a DOT graph.  Backslashes and quotes are escaped, and
every line break of the text becomes the escape for a centred line break: a line feed, a
carriage return, and the pair of both are one break each.  The right-justifying break is
never written.
-/
namespace SyntaxTree.Dot

/-- The characters of a text as they stand between double quotes. -/
def escapeChars : List Char → List Char
  | [] => []
  | '\r' :: '\n' :: rest => '\\' :: 'n' :: escapeChars rest
  | c :: rest =>
    if c = '\\' then '\\' :: '\\' :: escapeChars rest
    else if c = '"' then '\\' :: '"' :: escapeChars rest
    else if c = '\n' ∨ c = '\r' then '\\' :: 'n' :: escapeChars rest
    else c :: escapeChars rest

/-- A text as it stands between double quotes. -/
def escape (text : String) : String := .ofList (escapeChars text.toList)

end SyntaxTree.Dot
