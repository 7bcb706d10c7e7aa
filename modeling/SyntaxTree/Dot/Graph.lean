/-
SyntaxTree/Dot/Graph.lean

A tree as a directed graph in the DOT language.  The graph is a list of statements, one
to a line: the opening with the graph's name, the fonts of nodes and edges, a declaration
for every node, an edge from every parent to every child, and the closing brace.  Nodes
and edges follow the order of arrival.
-/
import SyntaxTree.Dot.Label
import SyntaxTree.Tree

namespace SyntaxTree.Dot

/-- What the head of a graph may be set to. -/
structure Style where
  /-- The name of the graph. -/
  graphName : String
  /-- The font of node and edge labels. -/
  fontName : String
  /-- The size of node labels. -/
  nodeFontSize : Nat
  /-- The size of edge labels. -/
  edgeFontSize : Nat
deriving DecidableEq, Repr

namespace Style

/-- The style used where nothing else is asked for. -/
def standard : Style :=
  { graphName := "ast", fontName := "Helvetica", nodeFontSize := 11, edgeFontSize := 10 }

instance : Inhabited Style := ⟨standard⟩

/-- The standard style under another graph name. -/
def named (graphName : String) : Style := { standard with graphName }

end Style

/-- One line of a graph. -/
inductive Statement where
  /-- Begins a graph of some name. -/
  | opening (name : String)
  /-- Sets the font of all nodes. -/
  | nodeFont (name : String) (size : Nat)
  /-- Sets the font of all edges. -/
  | edgeFont (name : String) (size : Nat)
  /-- Declares a node by identity, rule and label. -/
  | node (id : NodeId) (rule label : String)
  /-- Draws an edge. -/
  | edge (source target : NodeId)
  /-- Ends the graph. -/
  | closing
deriving DecidableEq, Repr

/-- The attributes of a font. -/
def fontText (name : String) (size : Nat) : String :=
  "[fontname=\"" ++ escape name ++ "\",fontsize=" ++ toString size ++ "];"

/-- A statement as a line without its line feed. -/
def Statement.text : Statement → String
  | .opening name => "digraph \"" ++ escape name ++ "\" \x7b"
  | .nodeFont name size => "  node " ++ fontText name size
  | .edgeFont name size => "  edge " ++ fontText name size
  | .node id rule label =>
    "  " ++ id.text ++ " [label=\"" ++ escape rule ++ ": " ++ escape label ++ "\"];"
  | .edge source target => "  " ++ source.text ++ " -> " ++ target.text ++ ";"
  | .closing => "\x7d"

/-- The statements of a tree's graph. -/
def statements (t : Tree) (style : Style) : List Statement :=
  [.opening style.graphName, .nodeFont style.fontName style.nodeFontSize,
    .edgeFont style.fontName style.edgeFontSize]
    ++ t.nodeList.map (fun n => .node n.id n.rule n.label)
    ++ t.nodeList.flatMap (fun n => n.children.map (.edge n.id))
    ++ [.closing]

/-- The lines of a tree's graph, each with its line feed. -/
def lines (t : Tree) (style : Style) : List String :=
  (statements t style).map fun s => s.text ++ "\n"

/-- A tree's graph as one text. -/
def render (t : Tree) (style : Style) : String := String.join (lines t style)

end SyntaxTree.Dot
