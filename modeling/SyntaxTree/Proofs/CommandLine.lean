/-
SyntaxTree/Proofs/CommandLine.lean

What the program prints as the figures of a tree.  Between the text and the figures stand
the reader of streams, the assembly and the walks on the finished tree; none of them shows
in the end (`execute_stats`): for a text that tells of some events, the figures are those
that are counted in the events, and if the events do not form a tree, that is what is
reported.
-/
import SyntaxTree.Main
import SyntaxTree.Proofs.Event.Json
import SyntaxTree.Proofs.Event.Tally

namespace SyntaxTree

open Event

/-- The text tells of the events: it is the document of an array of values that mean them. -/
def Event.Tells (text : String) (es : List Event) : Prop :=
  ∃ vs, Json.Document Json.Numeral.InRange text (.array vs) ∧ List.Forall₂ Means vs es

theorem Event.Tells.parse_eq {text : String} {es : List Event} (h : Tells text es) :
    parse text = .ok es :=
  parse_eq_ok_iff.mpr h

/-- A written stream tells of the events it was written for. -/
theorem Event.tells_render (es : List Event) : Tells (render es) es := by
  refine ⟨_, document_render es, ?_⟩
  rw [List.forall₂_map_left_iff, List.forall₂_same]
  exact fun e _ => means_asValue e

/-- Whether events form a tree does not depend on the identities. -/
theorem Tree.exists_ofEvents_congr {es : List Event} {next : NodeId} (next' : NodeId)
    (h : ∃ t, (ofEvents es next).1 = .ok t) : ∃ t, (ofEvents es next').1 = .ok t :=
  ((ofEvents_correspondence next').1 es).mpr (((ofEvents_correspondence next).1 es).mp h)

namespace CommandLine

variable {text : String} {es : List Event} {t : Tree} {error : TreeError}

theorem inspect_of_ok (htext : Tells text es) (ht : (Tree.ofEvents es ⟨1⟩).1 = .ok t)
    (view : View) : inspect view text = .ok (view.print t) := by
  rw [inspect, load, htext.parse_eq]
  simp only [ht]
  rfl

theorem inspect_of_error (htext : Tells text es) (ht : (Tree.ofEvents es ⟨1⟩).1 = .error error)
    (view : View) : inspect view text = .error (.notATree error) := by
  rw [inspect, load, htext.parse_eq]
  simp only [ht]
  rfl

/-- With a text that can be fetched, the program ends as the view of the text demands. -/
theorem execute_inspect {m : Type → Type} [Monad m] [LawfulMonad m]
    {fetch : Source → m (Option String)} {arguments : List String} {view : View} {source : Source}
    (harguments : parse arguments = .inspect view source) {reading : m Unit}
    (hfetch : fetch source = do reading; return some text) :
    execute fetch arguments = do reading; return .ofResult (inspect view text) := by
  rw [execute, harguments]
  simp only [hfetch, bind_assoc, pure_bind]

/-- **The figures that are printed describe the stream.** Given a text that tells of events which
form a tree, the program prints the number of enters, the number of enters that an exit follows at
once, and one less than the greatest number of nodes open at a time; the last is the depth of the
deepest leaf, and of the deepest node. If the events do not form a tree, nothing is printed but
the complaint that they do not, and the exit code is 1. -/
theorem execute_stats {m : Type → Type} [Monad m] [LawfulMonad m]
    {fetch : Source → m (Option String)} {arguments : List String} {source : Source}
    (harguments : parse arguments = .inspect .stats source) {reading : m Unit}
    (hfetch : fetch source = do reading; return some text) (htext : Tells text es)
    (next : NodeId) :
    (∀ t, (Tree.ofEvents es next).1 = .ok t →
      execute fetch arguments = (do
        reading
        return ⟨0, "nodes:  " ++ toString (es.countP opens) ++ "\n"
          ++ "leaves: " ++ toString (leafEntries es) ++ "\n"
          ++ "depth:  " ++ toString (peak es - 1).toNat ++ "\n", none⟩) ∧
      (t.leaves.map fun n => t.depthOf n.id).foldl max 0 = (peak es - 1).toNat ∧
      (t.nodeIds.map t.depthOf).foldl max 0 = (peak es - 1).toNat) ∧
    ((¬ ∃ t, (Tree.ofEvents es next).1 = .ok t) → ∃ error ending,
      (Tree.ofEvents es ⟨1⟩).1 = .error error ∧
      execute fetch arguments = (do reading; return ending) ∧
      ending.code = 1 ∧ ending.output = "" ∧
      ending.complaint = "Error: event stream does not form a tree\n"
        ++ ("\nCaused by:\n    " ++ error.message ++ "\n")) := by
  have hends := execute_inspect (m := m) harguments hfetch
  constructor
  · intro t ht
    -- the program numbers its nodes from one on, whatever `t` has been numbered from
    obtain ⟨u, hu⟩ := Tree.exists_ofEvents_congr ⟨1⟩ ⟨t, ht⟩
    rw [inspect_of_ok htext hu] at hends
    obtain ⟨hfigures, hdepth⟩ := Tree.stats_ofEvents ht
    refine ⟨?_, congrArg Stats.depth hfigures, hdepth.symm.trans (congrArg Stats.depth hfigures)⟩
    rw [hends, View.print, (Tree.stats_ofEvents hu).1, tally]
    rfl
  · intro hnone
    cases hu : (Tree.ofEvents es ⟨1⟩).1 with
    | ok u => exact absurd (Tree.exists_ofEvents_congr next ⟨u, hu⟩) hnone
    | error error =>
      rw [inspect_of_error htext hu] at hends
      exact ⟨error, _, rfl, hends, rfl, rfl, rfl⟩

/-- The figures of a sum of two numbers, and the refusal of the same events without the last. -/
theorem stats_of_sum :
    let es : List Event :=
      [.enter "sum" "1+2", .enter "number" "1", .exit, .enter "number" "2", .exit, .exit]
    let given (es : List Event) : Source → Id (Option String) := fun _ => pure (some (render es))
    execute (given es) ["stats"] = ⟨0, "nodes:  3\nleaves: 2\ndepth:  1\n", none⟩ ∧
      ∃ ending, execute (given es.dropLast) ["stats"] = ending ∧
        ending.code = 1 ∧ ending.output = "" := by
  intro es given
  have hstats : parse ["stats"] = .inspect .stats .standardInput := by decide
  have hfetch : ∀ es : List Event, given es .standardInput
      = (pure () : Id Unit) >>= fun _ => pure (some (render es)) := fun _ => rfl
  constructor
  · obtain ⟨hends, -⟩ := (execute_stats hstats (hfetch es) (tells_render es) ⟨1⟩).1 _ rfl
    have hprinted : "nodes:  " ++ toString (es.countP opens) ++ "\n"
        ++ "leaves: " ++ toString (leafEntries es) ++ "\n"
        ++ "depth:  " ++ toString (peak es - 1).toNat ++ "\n"
        = "nodes:  3\nleaves: 2\ndepth:  1\n" := by decide
    exact hends.trans (congrArg (fun text => (⟨0, text, none⟩ : Ending)) hprinted)
  · have hnone : ¬ ∃ t, (Tree.ofEvents es.dropLast ⟨1⟩).1 = .ok t := by rintro ⟨t, ht⟩; cases ht
    obtain ⟨error, ending, -, hends, hcode, houtput, -⟩ :=
      (execute_stats hstats (hfetch es.dropLast) (tells_render es.dropLast) ⟨1⟩).2 hnone
    exact ⟨ending, hends, hcode, houtput⟩

end CommandLine

end SyntaxTree
