/-
SyntaxTree/CommandLine.lean

The command line: `dot`, `outline` and `stats` print a tree that is given as a stream of
events in JSON, from a file or, under the name `-`, from standard input.

This file holds what the program decides: how arguments are understood (`parse`) and
what is answered to a text (`inspect`).  Fetching the text is left to the caller, which
tells by a `Failure` that it could not.
-/
import SyntaxTree.Assembly
import SyntaxTree.Dot.Graph
import SyntaxTree.Event.Json
import SyntaxTree.Tree.Outline
import SyntaxTree.Tree.Stats

namespace SyntaxTree.CommandLine

/-- The version of the program. -/
def version : String := "0.0.1"

/-- The name and version of the program. -/
def versionLine : String := "heartwood " ++ version ++ "\n"

/-- What is to be printed of a tree. -/
inductive View where
  | dot (style : Dot.Style)
  | outline
  | stats
deriving DecidableEq, Repr

/-- Where the stream of events comes from. -/
inductive Source where
  | standardInput
  | file (path : String)
deriving DecidableEq, Repr

/-- What the arguments ask for. -/
inductive Order where
  | inspect (view : View) (source : Source)
  | showVersion
  | showHelp
  | misuse
deriving DecidableEq, Repr

/-! ### Arguments -/

/-- Whether a path names standard input: its first part is `-`, and no other part leads
anywhere. -/
def isStandardInput (path : String) : Bool :=
  match path.splitOn "/" with
  | first :: others => first = "-" && others.all fun part => part = "" || part = "."
  | [] => false

/-- The source of a path. -/
def Source.ofPath (path : String) : Source :=
  if isStandardInput path then .standardInput else .file path

/-- Whether an argument is meant as an option: it begins with `-` and has more than that. -/
def looksLikeOption (arg : String) : Bool := "-".toList.isPrefixOf arg.toList && arg ≠ "-"

/-- What the arguments of a subcommand have set so far. -/
structure Settings where
  path : Option String
  graphName : Option String
deriving DecidableEq, Repr

namespace Settings

/-- Nothing set. -/
def unset : Settings := ⟨none, none⟩

/-- Sets the path, which must not be empty nor have been set. -/
def setPath (s : Settings) (path : String) : Option Settings :=
  if path = "" ∨ s.path.isSome then none else some { s with path := some path }

/-- Sets the name of the graph, which must not have been set. -/
def setGraphName (s : Settings) (name : String) : Option Settings :=
  if s.graphName.isSome then none else some { s with graphName := some name }

/-- The source that was set; standard input unless there is a path. -/
def source (s : Settings) : Source := s.path.elim .standardInput Source.ofPath

/-- The style that was set. -/
def style (s : Settings) : Dot.Style := s.graphName.elim .standard Dot.Style.named

end Settings

/-- Takes in paths, after which no options are possible any more. -/
def takePaths (s : Settings) (make : Settings → Order) : List String → Order
  | [] => make s
  | path :: rest =>
    match s.setPath path with
    | some s => takePaths s make rest
    | none => .misuse

/-- The value of an option that is given together with it as `name=value`. -/
def attachedValue? (name arg : String) : Option String :=
  let start := (name ++ "=").toList
  if start.isPrefixOf arg.toList then some (.ofList (arg.toList.drop start.length)) else none

/-- Whether an argument asks for help. A cluster of short options that begins with the one
for help does. -/
def asksForHelp (arg : String) : Bool := arg = "--help" || "-h".toList.isPrefixOf arg.toList

/-- Whether an argument asks for the version. -/
def asksForVersion (arg : String) : Bool := arg = "--version" || "-V".toList.isPrefixOf arg.toList

/-- Takes in the arguments of a subcommand from left to right. Only some subcommands know the
option for the name of the graph. -/
def takeArguments (named : Bool) (s : Settings) (make : Settings → Order) : List String → Order
  | [] => make s
  | "--" :: rest => takePaths s make rest
  | "--graph-name" :: rest =>
    if named then
      match rest with
      | [] => .misuse
      | value :: rest =>
        if looksLikeOption value then .misuse
        else
          match s.setGraphName value with
          | some s => takeArguments named s make rest
          | none => .misuse
    else .misuse
  | arg :: rest =>
    match if named then attachedValue? "--graph-name" arg else none with
    | some value =>
      match s.setGraphName value with
      | some s => takeArguments named s make rest
      | none => .misuse
    | none =>
      if asksForHelp arg then .showHelp
      else if looksLikeOption arg then .misuse
      else
        match s.setPath arg with
        | some s => takeArguments named s make rest
        | none => .misuse

/-- The names that help can be asked about, one at a time. -/
def subcommands : List String := ["dot", "outline", "stats", "help"]

/-- What the arguments of the program ask for. -/
def parse : List String → Order
  | [] => .misuse
  | first :: rest =>
    if first = "dot" then
      takeArguments true .unset (fun s => .inspect (.dot s.style) s.source) rest
    else if first = "outline" then
      takeArguments false .unset (fun s => .inspect .outline s.source) rest
    else if first = "stats" then
      takeArguments false .unset (fun s => .inspect .stats s.source) rest
    else if asksForVersion first then .showVersion
    else if asksForHelp first then .showHelp
    else if first = "help" then
      match rest with
      | [] => .showHelp
      | [name] => if subcommands.contains name then .showHelp else .misuse
      | _ => .misuse
    else .misuse

/-! ### Answers -/

/-- Why nothing could be printed. -/
inductive Failure where
  /-- Standard input is not a text. -/
  | unreadableInput
  /-- A file cannot be read as a text. -/
  | unreadableFile (path : String)
  /-- The text does not hold a stream of events. -/
  | notJson (fault : Json.Fault)
  /-- The events do not form a tree. -/
  | notATree (error : TreeError)
deriving DecidableEq, Repr

/-- The text of a failure. -/
def Failure.message : Failure → String
  | .unreadableInput => "failed to read event stream from stdin"
  | .unreadableFile path => "failed to read " ++ path
  | .notJson _ => "event stream is not valid JSON"
  | .notATree _ => "event stream does not form a tree"

/-- The first line of a text: all before the first line feed, without the carriage return that
may belong to the line's end. -/
def firstLine (text : String) : String :=
  let line := text.toList.takeWhile fun c => c ≠ '\n'
  .ofList (if line.getLast? = some '\r' then line.dropLast else line)

/-- The line that tells of a failure. A path may hold line breaks, and what follows the first
of them stands on lines of its own. -/
def Failure.headline (e : Failure) : String := firstLine e.message

/-- What is reported as the cause of a failure, where the program knows it. -/
def Failure.cause? : Failure → Option String
  | .notATree error => some error.message
  | _ => none

/-- The failure to read a source. -/
def Source.failure : Source → Failure
  | .standardInput => .unreadableInput
  | .file path => .unreadableFile path

/-- What is printed on standard output. -/
structure Printed where
  text : String
  /-- Whether printing came to its end and did not break down. -/
  complete : Bool
deriving DecidableEq, Repr

/-- A text printed whole. -/
def Printed.whole (text : String) : Printed := ⟨text, true⟩

/-- Prints a view of a tree. -/
def View.print (t : Tree) : View → Printed
  | .dot style => .whole (Dot.render t style)
  | .outline => ⟨t.outline.text, t.outline.complete⟩
  | .stats => .whole t.stats.text

/-- The tree that a text describes. -/
def load (text : String) : Except Failure Tree :=
  match Event.parse text with
  | .error fault => .error (.notJson fault)
  | .ok events =>
    match (Tree.ofEvents events ⟨1⟩).1 with
    | .error e => .error (.notATree e)
    | .ok t => .ok t

/-- What is printed of the tree that a text describes. -/
def inspect (view : View) (text : String) : Except Failure Printed :=
  (load text).map fun t => view.print t

/-- How the program ends. -/
structure Ending where
  /-- The exit code: 0 for success, 1 for a failure, 2 for misuse, 101 for a breakdown. -/
  code : UInt8
  /-- What is printed on standard output. -/
  output : String
  /-- Why nothing is printed. -/
  failure : Option Failure
deriving DecidableEq, Repr

/-- The ending that a printed text or a failure calls for. -/
def Ending.ofResult : Except Failure Printed → Ending
  | .ok printed => ⟨if printed.complete then 0 else 101, printed.text, none⟩
  | .error failure => ⟨1, "", some failure⟩

/-- A short description of the program. -/
def usage : String :=
  "Inspect syntax trees built from event streams\n\n"
    ++ "Usage: heartwood dot [--graph-name NAME] [INPUT]\n"
    ++ "       heartwood outline [INPUT]\n"
    ++ "       heartwood stats [INPUT]\n"

/-- What the program makes of its arguments, given the means to fetch the text of a source;
`none` tells that a source cannot be read as a text. -/
def execute {m : Type → Type} [Monad m] (fetch : Source → m (Option String))
    (arguments : List String) : m Ending := do
  match parse arguments with
  | .showVersion => return ⟨0, versionLine, none⟩
  | .showHelp => return ⟨0, usage, none⟩
  | .misuse => return ⟨2, "", none⟩
  | .inspect view source =>
    match ← fetch source with
    | some text => return .ofResult (inspect view text)
    | none => return .ofResult (.error source.failure)

end SyntaxTree.CommandLine
