/-
SyntaxTree/Event/Json.lean

Events as JSON.  A stream is an array; an event in it is an object with the member
`event`, which is `"enter"` or `"exit"`, and, for an enter, the members `rule` and
`label`, of which the label may be missing.  Other members do not matter.  An event may
also be an array of the same parts in that order.

`Event.ofValue?` says which event a value means.  The reader of streams does not wait
for the whole value: it refuses a wrong `event` as soon as it has seen it, while all
other members are looked at when the event has been read to its end.
-/
import SyntaxTree.Event
import SyntaxTree.Json.Value

namespace SyntaxTree

open Json Json.Reader

/-- What an event says it is. -/
inductive EventKind where
  | enters
  | exits
deriving DecidableEq, Repr

namespace EventKind

/-- The kind a value names. -/
def ofValue? : Value → Option EventKind
  | .string "enter" => some .enters
  | .string "exit" => some .exits
  | _ => none

/-- Reads the name of a kind. An array or an object is refused as soon as it begins. -/
def reader : Reader EventKind := do
  let c ← peekPastBlanks
  if opensNesting c then refuse .wrongShape
  else do
    match ofValue? (← scalar c) with
    | some kind => return kind
    | none => refuse .wrongShape

end EventKind

namespace Event

/-- The values of the members of some name. -/
def valuesOf (name : String) (members : List (String × Value)) : List Value :=
  (members.filter fun m => m.1 = name).map Prod.snd

/-- The event of a kind with some members besides the kind. -/
def ofMembers? : EventKind → List (String × Value) → Option Event
  | .exits, _ => some .exit
  | .enters, members =>
    match valuesOf "rule" members, valuesOf "label" members with
    | [.string rule], [] => some (.enter rule "")
    | [.string rule], [.string label] => some (.enter rule label)
    | _, _ => none

/-- The event of a kind with some parts behind the kind. -/
def ofParts? : EventKind → List Value → Option Event
  | .exits, [] => some .exit
  | .enters, [.string rule] => some (.enter rule "")
  | .enters, [.string rule, .string label] => some (.enter rule label)
  | _, _ => none

/-- The event a value means. -/
def ofValue? : Value → Option Event
  | .array (first :: parts) => do ofParts? (← EventKind.ofValue? first) parts
  | .object members =>
    match valuesOf "event" members with
    | [named] => do ofMembers? (← EventKind.ofValue? named) members
    | _ => none
  | _ => none

/-! ### Reading -/

/-- How many brackets may be open inside one another within an event, which itself stands
inside the bracket of the stream and its own. -/
def innerNesting : Nat := maxNesting - 2

/-- What has been read of an event: its kind once that is known, and all else, last first. -/
structure Partial (α : Type) where
  kind : Option EventKind
  others : List α

namespace Partial

variable {α : Type}

/-- Nothing read yet. -/
def start : Partial α := ⟨none, []⟩

/-- The event of what was read, if it has a kind and its other parts are right. -/
def finish (make : EventKind → List α → Option Event) (p : Partial α) : Reader Event :=
  match p.kind.bind fun kind => make kind p.others.reverse with
  | some event => return event
  | none => refuse .wrongShape

end Partial

/-- Reads one more member of an event. A second `event` is refused as soon as its name has
been read. -/
def readMember (p : Partial (String × Value)) : Reader (Partial (String × Value)) := do
  let name ← memberName
  if name = "event" then
    if p.kind.isSome then refuse .wrongShape
    else do
      colon
      return { p with kind := some (← EventKind.reader) }
  else do
    colon
    return { p with others := (name, ← value innerNesting) :: p.others }

/-- Reads one more part of an event, of which the first is its kind. -/
def readPart (p : Partial Value) : Reader (Partial Value) := do
  if p.kind.isSome then return { p with others := (← value innerNesting) :: p.others }
  else return { p with kind := some (← EventKind.reader) }

/-- Reads an event. A value of another type is refused when it has been read. -/
def reader : Reader Event := do
  let c ← peekPastBlanks
  if c = '\x7b' then do
    let _ ← next
    (← items '\x7d' readMember .start).finish ofMembers?
  else if c = '[' then do
    let _ ← next
    (← items ']' readPart .start).finish ofParts?
  else do
    let _ ← scalar c
    refuse .wrongShape

/-- Reads a stream of events. An object is refused as soon as it begins, a value of another
type when it has been read. -/
def streamReader : Reader (List Event) := do
  let c ← peekPastBlanks
  if c = '[' then do
    let _ ← next
    listOf ']' reader
  else if c = '\x7b' then refuse .wrongShape
  else do
    let _ ← scalar c
    refuse .wrongShape

/-- The stream of events that a text holds. -/
def parse (text : String) : Except Fault (List Event) := streamReader.run text

/-! ### Writing -/

/-- The characters of an event as an object without blanks; the label is always written. -/
def written : Event → List Char
  | .enter rule label =>
    "\x7b\"event\":\"enter\",\"rule\":".toList ++ writtenText rule
      ++ ",\"label\":".toList ++ writtenText label ++ ['\x7d']
  | .exit => "\x7b\"event\":\"exit\"\x7d".toList

/-- The characters of a stream as an array without blanks. -/
def writtenStream (events : List Event) : List Char :=
  '[' :: (List.intercalate [','] (events.map written) ++ [']'])

/-- The text of a stream of events. -/
def render (events : List Event) : String := .ofList (writtenStream events)

end Event

end SyntaxTree
