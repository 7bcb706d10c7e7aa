/-
SyntaxTree/Proofs/Report.lean

What an evaluation reports while it runs, and that reporting changes nothing.  `Evaluation.report`
gives the report of a run as a whole; here it is written entry by entry, in the loop that makes the
visits and that asks before each of them whether visits are reported (`runReporting`).  On a tree
whose registry is in order the loop makes the run and its report (`runReporting_eq`).

Two runs of one scheme, of which only one reports its visits, leave the same cache, visits and
state and answer all calls alike; and the reports themselves agree but for the visits, of which
there is one for each node, in post-order (`run_reports`).
-/
import Mathlib.Data.List.Forall2
import SyntaxTree.Proofs.Workflow

namespace SyntaxTree

namespace Evaluation

variable {σ ν ρ : Type} {t : Tree} {bs : List Branch}

/-! ### A run entry by entry -/

/-- Makes the visit that is due at an identity, and reports it before if visits are reported. -/
def reportVisit (p : Evaluation σ ν ρ × List LogEntry) (i : NodeId) :
    Evaluation σ ν ρ × List LogEntry :=
  match p.1.tree.node? i with
  | none => p
  | some n => (p.1.visited n, if p.1.config.traced then p.2 ++ [.visited i n.rule] else p.2)

/-- The evaluation after a run, whatever its phase, with the report made on the way. -/
def completedReporting (e : Evaluation σ ν ρ) : Evaluation σ ν ρ × List LogEntry :=
  let (seen, log) := e.tree.postOrder.foldl reportVisit (e.prepared, [.runStarted e.tree.size])
  let after := { seen with phase := .done }
  (after, log ++ [.runFinished after.visits.length after.cache.size])

/-- Runs an evaluation that has not been run, and reports on it. -/
def runReporting (e : Evaluation σ ν ρ) : Except TreeError (Evaluation σ ν ρ × List LogEntry) :=
  match e.phase with
  | .uninitialized => .ok e.completedReporting
  | phase => .error (.illegalWorkflow .run phase)

/-- The entries for some visits. -/
def visitEntries (traced : Bool) (ns : List Node) : List LogEntry :=
  if traced then ns.map fun n => .visited n.id n.rule else []

/-- The visits are made and reported one after another. -/
theorem foldl_reportVisit (hid : ∀ {i n}, t.node? i = some n → n.id = i) (is : List NodeId)
    {e : Evaluation σ ν ρ} (he : e.tree = t) (log : List LogEntry) :
    is.foldl reportVisit (e, log) = ((is.filterMap t.node?).foldl visited e,
      log ++ visitEntries e.config.traced (is.filterMap t.node?)) := by
  induction is generalizing e log with
  | nil => simp [visitEntries]
  | cons i is ih =>
    rw [List.foldl_cons, reportVisit, he]
    cases hn : t.node? i with
    | none => rw [List.filterMap_cons_none hn, ← ih he]
    | some n =>
      rw [List.filterMap_cons_some hn, List.foldl_cons]
      show is.foldl reportVisit
        (e.visited n, if e.config.traced then log ++ [.visited i n.rule] else log) = _
      have hvisited : (e.visited n).tree = t := he
      have hconfig : (e.visited n).config = e.config := rfl
      rw [ih hvisited, hconfig]
      cases e.config.traced with
      | false => rfl
      | true =>
        show (_, log ++ [_] ++ List.map _ _) = (_, log ++ List.map _ _)
        rw [List.map_cons, List.append_assoc, List.singleton_append, hid hn]

/-- **The loop makes the run and its report.** -/
theorem runReporting_eq (hid : ∀ {i n}, t.node? i = some n → n.id = i) {e : Evaluation σ ν ρ}
    (he : e.tree = t) : e.runReporting = e.run.map fun after => (after, e.report) := by
  subst he
  have hloop : e.completedReporting = (e.completed, e.report) := by
    rw [completedReporting, foldl_reportVisit hid _ (e := e.prepared) rfl]
    rfl
  unfold runReporting run
  cases e.phase with
  | uninitialized => exact congrArg Except.ok hloop
  | processing | done => rfl

/-! ### Two runs -/

/-- The evaluation with another configuration. -/
def withConfig (e : Evaluation σ ν ρ) (config : Config) : Evaluation σ ν ρ := { e with config }

theorem foldl_visited_withConfig (e : Evaluation σ ν ρ) (config : Config) (ns : List Node) :
    ns.foldl visited (e.withConfig config) = (ns.foldl visited e).withConfig config := by
  induction ns generalizing e with
  | nil => rfl
  | cons n ns ih => exact ih (e.visited n)

/-- A run does the same whether visits are reported or not. -/
theorem completed_withConfig (e : Evaluation σ ν ρ) (config : Config) :
    (e.withConfig config).completed = e.completed.withConfig config := by
  have hfold := foldl_visited_withConfig e.prepared config (agenda e.tree)
  exact congrArg (fun after : Evaluation σ ν ρ => { after with phase := .done }) hfold

/-- A finished evaluation answers all calls alike whether its visits were reported or not. -/
theorem calls_withConfig {e : Evaluation σ ν ρ} (h : e.phase = .done) (config : Config)
    (cs : List Call) : ((e.withConfig config).calls cs).1 = (e.calls cs).1 := by
  have hdone : (e.withConfig config).phase = .done := h
  rw [calls_done hdone, calls_done h]
  refine List.map_congr_left fun c _ => ?_
  cases c <;> rfl

theorem report_eq (e : Evaluation σ ν ρ) : e.report =
    .runStarted e.tree.size :: visitEntries e.config.traced (agenda e.tree)
      ++ [.runFinished e.completed.visits.length e.completed.cache.size] := rfl

/-- What is to be said of what two runs of one scheme on a tree leave, of which the first has
reported its visits and the second has not, and of their reports. -/
structure Unobtrusive (t : Tree) (traced plain : Evaluation σ ν ρ) (log quiet : List LogEntry) :
    Prop where
  cache_eq : plain.cache = traced.cache
  visits_eq : plain.visits = traced.visits
  state_eq : plain.state = traced.state
  result_eq : ∃ r, traced.readResult = .ok r ∧ plain.readResult = .ok r
  /-- The same is answered to whatever is asked afterwards. -/
  calls_eq : ∀ cs, (plain.calls cs).1 = (traced.calls cs).1
  /-- The visits are reported in post-order, between the beginning and the end. -/
  log_eq : ∃ entries, log
      = .runStarted t.size :: entries ++ [.runFinished t.size traced.cache.size] ∧
    List.Forall₂ (fun i entry => ∃ n, t.node? i = some n ∧ entry = .visited i n.rule)
      t.postOrder entries
  /-- Without the visits, nothing stands between the beginning and the end. -/
  quiet_eq : quiet = [.runStarted t.size, .runFinished t.size plain.cache.size]

/-- There is an entry for each node in post-order. -/
theorem forall₂_visitEntries (hs : t.Spells bs) :
    List.Forall₂ (fun i entry => ∃ n, t.node? i = some n ∧ entry = .visited i n.rule)
      t.postOrder (visitEntries true (agenda t)) := by
  rw [← hs.map_id_agenda, visitEntries, if_pos rfl, List.forall₂_map_left_iff,
    List.forall₂_map_right_iff, List.forall₂_same]
  intro n hn
  exact ⟨n, hs.toCoherent.node?_id (hs.mem_nodeList_of_mem_agenda hn), rfl⟩

theorem visits_completed_start (hs : t.Spells bs) (scheme : Scheme σ ν ρ) (state : σ)
    (config : Config) : (start t scheme state config).completed.visits = t.postOrder := by
  rw [← hs.map_id_agenda]
  exact (worked_completed (start t scheme state config)).visits_eq

theorem report_start (hs : t.Spells bs) (scheme : Scheme σ ν ρ) (state : σ) (config : Config) :
    (start t scheme state config).report = .runStarted t.size :: visitEntries config.traced (agenda t)
      ++ [.runFinished t.size (start t scheme state config).completed.cache.size] := by
  have hlength : t.postOrder.length = t.size := by
    rw [hs.postOrder_perm.length_eq, hs.nodeIds_eq, List.length_map, Tree.size_eq_length]
  rw [report_eq, visits_completed_start hs, hlength]
  rfl

theorem unobtrusive_of_spells (hs : t.Spells bs) (scheme : Scheme σ ν ρ) (state : σ) :
    Unobtrusive t (start t scheme state .tracing).completed (start t scheme state .standard).completed
      (start t scheme state .tracing).report (start t scheme state .standard).report := by
  have hplain : (start t scheme state .standard).completed
      = (start t scheme state .tracing).completed.withConfig .standard :=
    completed_withConfig (start t scheme state .tracing) .standard
  rw [report_start hs, report_start hs, hplain]
  exact ⟨rfl, rfl, rfl, ⟨_, rfl, rfl⟩, calls_withConfig rfl .standard,
    ⟨_, rfl, forall₂_visitEntries hs⟩, rfl⟩

end Evaluation

namespace Workshop

open Evaluation

/-- **Reporting the visits changes nothing and is faithful**, on every tree of every run and for
every scheme: with and without it a run succeeds and leaves the same, and the reports, as the loops
of the two runs make them, are the same but for an entry for each visit. -/
theorem run_reports (jobs : List Job) {t : Tree} (ht : t ∈ (run jobs).trees) {σ ν ρ : Type}
    (scheme : Scheme σ ν ρ) (state : σ) :
    (∃ traced plain log quiet,
      (start t scheme state .tracing).runReporting = .ok (traced, log) ∧
      (start t scheme state .standard).runReporting = .ok (plain, quiet) ∧
      Unobtrusive t traced plain log quiet) ∧
    ∀ config, (start t scheme state config).runReporting
      = (start t scheme state config).run.map
        fun after => (after, (start t scheme state config).report) := by
  obtain ⟨bs, hs⟩ := ((sound_run jobs).tree ht).spells
  have hrun : ∀ config, (start t scheme state config).runReporting = _ := fun config =>
    runReporting_eq (fun hn => (hs.node?_eq_some_iff.mp hn).2) rfl
  exact ⟨⟨_, _, _, _, hrun .tracing, hrun .standard, unobtrusive_of_spells hs scheme state⟩, hrun⟩

/-- The sum that the errands leave has four nodes, so its evaluation reports six times, or twice. -/
theorem reports_errands : ∃ t traced plain log quiet,
    (run errands).forest.tree? "sum" = some t ∧
    (start t counting () .tracing).runReporting = .ok (traced, log) ∧
    (start t counting () .standard).runReporting = .ok (plain, quiet) ∧
    Unobtrusive t traced plain log quiet ∧ log.length = 6 ∧ quiet.length = 2 := by
  have horder : ((run errands).forest.tree? "sum").map (fun t => t.postOrder.length) = some 4 := by
    decide +kernel
  obtain ⟨t, ht, h4⟩ := Option.map_eq_some_iff.mp horder
  obtain ⟨⟨traced, plain, log, quiet, htraced, hplain, h⟩, -⟩ :=
    run_reports errands (mem_trees_of_tree? ht) counting ()
  obtain ⟨entries, hlog, hentries⟩ := h.log_eq
  refine ⟨t, traced, plain, log, quiet, ht, htraced, hplain, h, ?_, ?_⟩
  · simp [hlog, ← hentries.length_eq, h4]
  · rw [h.quiet_eq]
    rfl

end Workshop

end SyntaxTree
