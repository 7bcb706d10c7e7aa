/-
SyntaxTree/Dot/Sink.lean

Writing a graph into something that may stop accepting text.  A sink takes one character
at a time and may refuse it; writing ends at the first refusal, with what was accepted
until then left in the sink.
-/
import SyntaxTree.Dot.Graph

namespace SyntaxTree.Dot

/-- Something characters can be written to, with its state; `none` is a refusal. -/
structure Sink (σ : Type) where
  /-- Takes one more character, or refuses it. -/
  put : σ → Char → Option σ

namespace Sink

variable {σ : Type}

/-- Writes characters until one is refused: the state afterwards, and whether all were
taken. -/
def writeChars (sink : Sink σ) (s : σ) : List Char → σ × Bool
  | [] => (s, true)
  | c :: rest =>
    match sink.put s c with
    | some s' => sink.writeChars s' rest
    | none => (s, false)

/-- Writes texts one after another until a character is refused. -/
def writeAll (sink : Sink σ) (s : σ) : List String → σ × Bool
  | [] => (s, true)
  | text :: rest =>
    match sink.writeChars s text.toList with
    | (s', true) => sink.writeAll s' rest
    | (s', false) => (s', false)

end Sink

/-- Writes a tree's graph line by line. -/
def write {σ : Type} (sink : Sink σ) (s : σ) (t : Tree) (style : Style) : σ × Bool :=
  sink.writeAll s (lines t style)

/-- A page that has room for a number of complete lines. -/
structure Page where
  /-- The characters written, last first. -/
  written : List Char
  /-- How many more line feeds it takes. -/
  room : Nat
deriving DecidableEq, Repr

namespace Page

/-- A blank page for `room` lines. -/
def blank (room : Nat) : Page := ⟨[], room⟩

/-- The text on the page. -/
def text (p : Page) : String := .ofList p.written.reverse

/-- A page takes characters as long as it has room for another line. -/
def sink : Sink Page where
  put p c :=
    match p.room with
    | 0 => none
    | room + 1 => some ⟨c :: p.written, if c = '\n' then room else room + 1⟩

end Page

end SyntaxTree.Dot
