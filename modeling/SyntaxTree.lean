import SyntaxTree.Main
import SyntaxTree.Dot.Sink
import SyntaxTree.Evaluation.Schemes
import SyntaxTree.Event.Json
import SyntaxTree.Forest.Locator
import SyntaxTree.Pattern
import SyntaxTree.Proofs.Blame
import SyntaxTree.Proofs.Chronology
import SyntaxTree.Proofs.CommandLine
import SyntaxTree.Proofs.Commute
import SyntaxTree.Proofs.Copying
import SyntaxTree.Proofs.Dot.Escape
import SyntaxTree.Proofs.Dot.Graph
import SyntaxTree.Proofs.Dot.Sink
import SyntaxTree.Proofs.Edit
import SyntaxTree.Proofs.Evaluation
import SyntaxTree.Proofs.Event.Json
import SyntaxTree.Proofs.Event.Truncation
import SyntaxTree.Proofs.Interval
import SyntaxTree.Proofs.Json.Magnitude
import SyntaxTree.Proofs.Outline
import SyntaxTree.Proofs.Propagation
import SyntaxTree.Proofs.Pruning
import SyntaxTree.Proofs.Recall
import SyntaxTree.Proofs.Refusal
import SyntaxTree.Proofs.Removal
import SyntaxTree.Proofs.Report
import SyntaxTree.Proofs.Rewriting
import SyntaxTree.Proofs.Substitution
import SyntaxTree.Proofs.Tolerance
import SyntaxTree.Proofs.Undo
import SyntaxTree.Proofs.Workflow
import SyntaxTree.Tree.Outline
import SyntaxTree.Tree.Stats
import SyntaxTree.Tree.Surgery
