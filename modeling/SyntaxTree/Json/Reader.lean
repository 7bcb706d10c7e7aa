/-
SyntaxTree/Json/Reader.lean

Reading JSON text from left to right.  A reader takes characters off the front of the
text and answers with what it read and the rest, or with a fault.  There are three
faults, and the first one met decides:

  * the text ended while more was needed;
  * a character stands where it must not;
  * the text is in order, but not of the shape asked for.

Loops are built on one operation, `Reader.loop`.  Every turn of a loop takes at least
one character, so a loop is granted as many turns as there are characters, and a loop
that has used them all stands at the end of the text.
-/
namespace SyntaxTree.Json

/-- Why a text was refused. -/
inductive Fault where
  /-- The text ended while more was needed. -/
  | endOfText
  /-- A character, an escape or a number is not allowed where it stands. -/
  | badSyntax
  /-- What was read is in order but of the wrong shape. -/
  | wrongShape
deriving DecidableEq, Repr, Inhabited

/-- The word for a fault. -/
def Fault.text : Fault → String
  | .endOfText => "eof"
  | .badSyntax => "syntax"
  | .wrongShape => "data"

/-- Reads a value off the front of a text. -/
abbrev Reader (α : Type) := StateT (List Char) (Except Fault) α

/-- Whether a character may stand between the parts of a text. -/
def isBlank (c : Char) : Bool := c = ' ' || c = '\t' || c = '\n' || c = '\r'

/-- The outcome of one turn of a loop. -/
inductive Turn (σ β : Type) where
  /-- Another turn is needed, from this state. -/
  | again (state : σ)
  /-- The loop has come to its result. -/
  | finished (result : β)

namespace Reader

variable {α β σ : Type}

/-- Refuses the text. -/
def refuse (fault : Fault) : Reader α := fun _ => .error fault

/-- Takes the next character, which must be there. -/
def next : Reader Char
  | [] => .error .endOfText
  | c :: rest => .ok (c, rest)

/-- Looks at the next character, which must be there, and leaves it. -/
def peek : Reader Char
  | [] => .error .endOfText
  | c :: rest => .ok (c, c :: rest)

/-- Takes the next character if it is one of those wanted, and says whether it was. -/
def accept (wanted : Char → Bool) : Reader Bool
  | [] => .ok (false, [])
  | c :: rest => if wanted c then .ok (true, rest) else .ok (false, c :: rest)

/-- Takes the next character, which must be `c`. -/
def expect (c : Char) : Reader Unit
  | [] => .error .endOfText
  | d :: rest => if d = c then .ok ((), rest) else .error .badSyntax

/-- Takes the given characters one after another. -/
def word : List Char → Reader Unit
  | [] => pure ()
  | c :: rest => do
    expect c
    word rest

/-- Takes all characters up to the first that fails a test. -/
def takeWhile (p : Char → Bool) : Reader (List Char) := fun cs =>
  .ok (cs.takeWhile p, cs.dropWhile p)

/-- Drops blanks. -/
def skipBlanks : Reader Unit := fun cs => .ok ((), cs.dropWhile isBlank)

/-- Drops blanks and looks at the next character, which must be there. -/
def peekPastBlanks : Reader Char := do
  skipBlanks
  peek

/-- Drops blanks; then the text must have ended. -/
def endOfAll : Reader Unit := fun cs =>
  match cs.dropWhile isBlank with
  | [] => .ok ((), [])
  | _ :: _ => .error .badSyntax

/-- Repeats a turn for at most a number of times. -/
def turns (turn : σ → Reader (Turn σ β)) : Nat → σ → Reader β
  | 0, _ => refuse .endOfText
  | n + 1, s => do
    match ← turn s with
    | .again s' => turns turn n s'
    | .finished b => return b

/-- Repeats a turn, each of which takes at least one character, until it has a result. -/
def loop (turn : σ → Reader (Turn σ β)) (s : σ) : Reader β := fun cs =>
  turns turn cs.length s cs

/-- One turn through the items between brackets: the closing bracket, or an item with the
comma that must stand before every item but the first. -/
def itemTurn (close : Char) (item : σ → Reader σ) : Bool × σ → Reader (Turn (Bool × σ) σ)
  | (isFirst, s) => do
    let c ← peekPastBlanks
    if c = close then do
      let _ ← next
      return .finished s
    else if isFirst then do
      let s' ← item s
      return .again (false, s')
    else do
      expect ','
      let d ← peekPastBlanks
      if d = close then refuse .badSyntax
      else do
        let s' ← item s
        return .again (false, s')

/-- Reads items parted by commas up to the closing bracket; each continues from the state
the one before it left. The opening bracket has been taken already. -/
def items (close : Char) (item : σ → Reader σ) (s : σ) : Reader σ :=
  loop (itemTurn close item) (true, s)

/-- Reads a list of items up to the closing bracket. -/
def listOf (close : Char) (item : Reader α) : Reader (List α) := do
  let reversed ← items close (fun done => return (← item) :: done) []
  return reversed.reverse

/-- What a reader makes of a whole text; what it leaves must be blank. -/
def run (reader : Reader α) (text : String) : Except Fault α :=
  match (do let a ← reader; endOfAll; return a : Reader α) text.toList with
  | .ok (a, _) => .ok a
  | .error fault => .error fault

end Reader

end SyntaxTree.Json
