/-
SyntaxTree/Proofs/Workflow.lean

The life of an evaluation under any sequence of calls.  Before the first run everything that
is asked for is refused, the first run succeeds, and after it every further run is refused
while everything else is answered from what the first run has left (`calls_start`).  A call
that is refused changes nothing, and the phase in between is never seen.

What the first run does is the work of the scheme: it prepares once and then visits every
node once (`Scheme.work`).  A scheme that keeps a log of how it is called tells the same
(`calls_logged`).
-/
import SyntaxTree.Proofs.Evaluation

namespace SyntaxTree

/-! ### The work of a scheme -/

namespace Scheme

variable {σ ν ρ : Type}

/-- What the scheme makes of a state and a cache when it prepares and then visits some nodes one
after another. -/
def work (s : Scheme σ ν ρ) (t : Tree) (ns : List Node) (state : σ) (cache : Cache ν) :
    σ × Cache ν :=
  ns.foldl (fun p n => s.visit t n p.1 p.2) (s.prepare t state cache)

/-- How a scheme is called while it works. -/
inductive Invocation where
  | prepare
  | visit (id : NodeId)
deriving DecidableEq, Repr

/-- The scheme with a log of how it is called, and no other difference. -/
def logged (s : Scheme σ ν ρ) : Scheme (σ × List Invocation) ν ρ where
  prepare t state cache :=
    let after := s.prepare t state.1 cache
    ((after.1, state.2 ++ [.prepare]), after.2)
  visit t n state cache :=
    let after := s.visit t n state.1 cache
    ((after.1, state.2 ++ [.visit n.id]), after.2)
  result t state cache := s.result t state.1 cache

/-- Keeping a log makes no difference to the work. -/
theorem work_logged (s : Scheme σ ν ρ) (t : Tree) (ns : List Node) (state : σ)
    (log : List Invocation) (cache : Cache ν) :
    s.logged.work t ns (state, log) cache =
      (((s.work t ns state cache).1, log ++ .prepare :: ns.map fun n => .visit n.id),
        (s.work t ns state cache).2) := by
  induction ns using List.reverseRecOn with
  | nil => rfl
  | append_singleton ns n ih =>
    have hlogged : s.logged.work t (ns ++ [n]) (state, log) cache =
        s.logged.visit t n (s.logged.work t ns (state, log) cache).1
          (s.logged.work t ns (state, log) cache).2 := by
      rw [work, List.foldl_append]
      rfl
    have hplain : s.work t (ns ++ [n]) state cache =
        s.visit t n (s.work t ns state cache).1 (s.work t ns state cache).2 := by
      rw [work, List.foldl_append]
      rfl
    rw [hlogged, ih, hplain, List.map_append, ← List.cons_append, ← List.append_assoc]
    rfl

end Scheme

namespace Evaluation

variable {σ ν ρ : Type} {t : Tree} {e done : Evaluation σ ν ρ}

/-- The nodes that come up are worked on one after another. -/
theorem work_foldl_visited (e : Evaluation σ ν ρ) (ns : List Node) :
    ((ns.foldl visited e).state, (ns.foldl visited e).cache) =
      ns.foldl (fun p n => e.scheme.visit e.tree n p.1 p.2) (e.state, e.cache) := by
  induction ns generalizing e with
  | nil => rfl
  | cons n ns ih => exact ih (e.visited n)

/-- The evaluation `done` is what the run of `e` leaves when the nodes `ns` come up. -/
structure Worked (ns : List Node) (e done : Evaluation σ ν ρ) : Prop where
  tree_eq : done.tree = e.tree
  scheme_eq : done.scheme = e.scheme
  config_eq : done.config = e.config
  phase_eq : done.phase = .done
  work_eq : (done.state, done.cache) = e.scheme.work e.tree ns e.state e.cache
  visits_eq : done.visits = e.visits ++ ns.map Node.id

theorem config_foldl_visited (e : Evaluation σ ν ρ) (ns : List Node) :
    (ns.foldl visited e).config = e.config := by
  induction ns generalizing e with
  | nil => rfl
  | cons n ns ih => exact ih (e.visited n)

/-- **A run works** on all nodes of the agenda. -/
theorem worked_completed (e : Evaluation σ ν ρ) : Worked (agenda e.tree) e e.completed where
  tree_eq := tree_foldl_visited e.prepared _
  scheme_eq := scheme_foldl_visited e.prepared _
  config_eq := config_foldl_visited e.prepared _
  phase_eq := rfl
  work_eq := work_foldl_visited e.prepared _
  visits_eq := visits_foldl_visited e.prepared _

/-! ### Calls -/

/-- What can be asked of an evaluation, as long as it is not given up for its cache. -/
inductive Call where
  | run
  | result
  | cache
  | visitOrder
  | phase
deriving DecidableEq, Repr

/-- What comes of a call. -/
inductive Response (ν ρ : Type) where
  | ran (outcome : Except TreeError Unit)
  | result (outcome : Except TreeError ρ)
  | cache (outcome : Except TreeError (Cache ν))
  | visitOrder (outcome : Except TreeError (List NodeId))
  | phase (p : Phase)

/-- The call was refused. -/
def Response.isRefusal : Response ν ρ → Bool
  | .ran (.error _) | .result (.error _) | .cache (.error _) | .visitOrder (.error _) => true
  | _ => false

/-- A call, and the evaluation after it. -/
def call (e : Evaluation σ ν ρ) : Call → Response ν ρ × Evaluation σ ν ρ
  | .run =>
    match e.run with
    | .ok after => (.ran (.ok ()), after)
    | .error err => (.ran (.error err), e)
  | .result => (.result e.readResult, e)
  | .cache => (.cache e.readCache, e)
  | .visitOrder => (.visitOrder e.readVisits, e)
  | .phase => (.phase e.phase, e)

/-- Calls one after another, and the evaluation after them. -/
def calls (e : Evaluation σ ν ρ) : List Call → List (Response ν ρ) × Evaluation σ ν ρ
  | [] => ([], e)
  | c :: cs => ((e.call c).1 :: ((e.call c).2.calls cs).1, ((e.call c).2.calls cs).2)

/-- What comes of a call that is refused because of the phase; the phase itself can always be
asked for. -/
def Call.refused (p : Phase) : Call → Response ν ρ
  | .run => .ran (.error (.illegalWorkflow .run p))
  | .result => .result (.error (.illegalWorkflow .readResult p))
  | .cache => .cache (.error (.illegalWorkflow .readCache p))
  | .visitOrder => .visitOrder (.error (.illegalWorkflow .readVisitOrder p))
  | .phase => .phase p

/-- What comes of a call after the run. -/
def answer (done : Evaluation σ ν ρ) : Call → Response ν ρ
  | .run => .ran (.error (.illegalWorkflow .run .done))
  | .result => .result (.ok (done.scheme.result done.tree done.state done.cache))
  | .cache => .cache (.ok done.cache)
  | .visitOrder => .visitOrder (.ok done.visits)
  | .phase => .phase .done

theorem calls_append (e : Evaluation σ ν ρ) (cs ds : List Call) :
    e.calls (cs ++ ds) =
      ((e.calls cs).1 ++ ((e.calls cs).2.calls ds).1, ((e.calls cs).2.calls ds).2) := by
  induction cs generalizing e with
  | nil => rfl
  | cons c cs ih =>
    rw [List.cons_append, calls, calls, ih]
    rfl

/-- Before the run, a call that is not the run is refused. -/
theorem call_uninitialized (h : e.phase = .uninitialized) {c : Call} (hc : c ≠ .run) :
    e.call c = (c.refused .uninitialized, e) := by
  cases c with
  | run => exact absurd rfl hc
  | _ => simp only [call, readResult, readCache, readVisits, whenDone, h, Call.refused]

theorem calls_uninitialized (h : e.phase = .uninitialized) {cs : List Call} (hcs : .run ∉ cs) :
    e.calls cs = (cs.map (Call.refused .uninitialized), e) := by
  induction cs with
  | nil => rfl
  | cons c cs ih =>
    rw [List.mem_cons, not_or] at hcs
    rw [calls, call_uninitialized h (Ne.symm hcs.1), ih hcs.2]
    rfl

/-- The first run. -/
theorem call_run (h : e.phase = .uninitialized) : e.call .run = (.ran (.ok ()), e.completed) := by
  simp only [call, run, h]

/-- After the run, every call is answered from what the run has left. -/
theorem call_done (h : e.phase = .done) (c : Call) : e.call c = (e.answer c, e) := by
  cases c with
  | run => simp only [call, run, h, answer]
  | _ => simp only [call, readResult, readCache, readVisits, whenDone, h, answer]

theorem calls_done (h : e.phase = .done) (cs : List Call) : e.calls cs = (cs.map e.answer, e) := by
  induction cs with
  | nil => rfl
  | cons c cs ih =>
    rw [calls, call_done h, ih]
    rfl

/-- **Any sequence of calls**, divided at the first run. -/
theorem calls_run (h : e.phase = .uninitialized) {pre : List Call} (hpre : .run ∉ pre)
    (post : List Call) : e.calls (pre ++ .run :: post) =
      (pre.map (Call.refused .uninitialized) ++ .ran (.ok ()) :: post.map e.completed.answer,
        e.completed) := by
  have hdone : e.completed.phase = .done := rfl
  rw [calls_append, calls_uninitialized h hpre, calls, call_run h, calls_done hdone]

/-- A call that is refused changes nothing. -/
theorem call_of_isRefusal (e : Evaluation σ ν ρ) (c : Call) (h : (e.call c).1.isRefusal = true) :
    (e.call c).2 = e := by
  cases c with
  | run =>
    revert h
    rw [call]
    cases e.run with
    | ok after => exact fun h => nomatch h
    | error err => exact fun _ => rfl
  | _ => rfl

/-- The phase in between is seen in no response. -/
theorem refused_ne_processing (c : Call) :
    (c.refused .uninitialized : Response ν ρ) ≠ .phase .processing := by
  cases c <;> exact nofun

theorem answer_ne_processing (done : Evaluation σ ν ρ) (c : Call) :
    done.answer c ≠ .phase .processing := by
  cases c <;> exact nofun

/-- What is to be said of an evaluation that has not been run, with the nodes `ns` on its agenda. -/
structure Workflow (ns : List Node) (e : Evaluation σ ν ρ) : Prop where
  /-- Before the first run everything is refused, and nothing changes. -/
  before : ∀ cs, .run ∉ cs → e.calls cs = (cs.map (Call.refused .uninitialized), e)
  takeCache_before : e.takeCache = .error (.illegalWorkflow .takeCache .uninitialized)
  /-- The first run succeeds, and everything is answered from what it leaves from then on. -/
  after : ∃ done, Worked ns e done ∧ done.takeCache = .ok done.cache ∧
    ∀ pre post, .run ∉ pre → e.calls (pre ++ .run :: post) =
      (pre.map (Call.refused .uninitialized) ++ .ran (.ok ()) :: post.map done.answer, done)
  /-- Every sequence of calls is of one of these two kinds. -/
  cases : ∀ cs : List Call, .run ∉ cs ∨ ∃ pre post, cs = pre ++ .run :: post ∧ .run ∉ pre
  /-- A call that is refused, at any time, changes nothing. -/
  refusal : ∀ cs c, ((e.calls cs).2.call c).1.isRefusal = true →
    ((e.calls cs).2.call c).2 = (e.calls cs).2
  /-- The phase in between is never seen. -/
  settled : ∀ cs, (e.calls cs).2.phase ≠ .processing ∧ .phase .processing ∉ (e.calls cs).1

/-- A sequence of calls has no run in it, or a first one. -/
theorem run_notMem_or_split (cs : List Call) :
    .run ∉ cs ∨ ∃ pre post, cs = pre ++ .run :: post ∧ .run ∉ pre := by
  by_cases h : Call.run ∈ cs
  · exact .inr (List.eq_append_cons_of_mem h)
  · exact .inl h

/-- **The life of an evaluation.** -/
theorem workflow_start (t : Tree) (scheme : Scheme σ ν ρ) (state : σ) (config : Config) :
    Workflow (agenda t) (start t scheme state config) := by
  have hstart : (start t scheme state config).phase = .uninitialized := rfl
  refine ⟨fun cs hcs => calls_uninitialized hstart hcs, rfl, ?_, run_notMem_or_split,
    fun cs c => call_of_isRefusal _ c, ?_⟩
  · -- after
    exact ⟨_, worked_completed (start t scheme state config), rfl,
      fun pre post hpre => calls_run hstart hpre post⟩
  · -- settled
    intro cs
    rcases run_notMem_or_split cs with hcs | ⟨pre, post, rfl, hpre⟩
    · rw [calls_uninitialized hstart hcs]
      refine ⟨nofun, fun hmem => ?_⟩
      obtain ⟨c, -, hc⟩ := List.mem_map.mp hmem
      exact refused_ne_processing c hc
    · rw [calls_run hstart hpre]
      refine ⟨nofun, fun hmem => ?_⟩
      rcases List.mem_append.mp hmem with hmem | hmem
      · obtain ⟨c, -, hc⟩ := List.mem_map.mp hmem
        exact refused_ne_processing c hc
      · rcases List.mem_cons.mp hmem with hmem | hmem
        · cases hmem
        · obtain ⟨c, -, hc⟩ := List.mem_map.mp hmem
          exact answer_ne_processing _ c hc

/-- **How a scheme is called** in any sequence of calls: not at all before the first run, and then
once to prepare and once for every node that comes up. -/
theorem calls_logged (t : Tree) (scheme : Scheme σ ν ρ) (state : σ) (config : Config)
    (cs : List Call) :
    ((start t scheme.logged (state, []) config).calls cs).2.state =
        (((start t scheme state config).calls cs).2.state,
          if .run ∈ cs then .prepare :: (agenda t).map (fun n => .visit n.id) else []) ∧
      ((start t scheme.logged (state, []) config).calls cs).2.cache =
        ((start t scheme state config).calls cs).2.cache := by
  have hlogged : (start t scheme.logged (state, []) config).phase = .uninitialized := rfl
  have hplain : (start t scheme state config).phase = .uninitialized := rfl
  rcases run_notMem_or_split cs with hcs | ⟨pre, post, rfl, hpre⟩
  · rw [calls_uninitialized hlogged hcs, calls_uninitialized hplain hcs, if_neg hcs]
    exact ⟨rfl, rfl⟩
  · rw [calls_run hlogged hpre, calls_run hplain hpre, if_pos (by simp)]
    have hwork := (worked_completed (start t scheme.logged (state, []) config)).work_eq.trans
      (scheme.work_logged t (agenda t) state [] .empty)
    have hsame := (worked_completed (start t scheme state config)).work_eq
    rw [show scheme.work t (agenda t) state .empty = _ from hsame.symm] at hwork
    exact ⟨congrArg Prod.fst hwork, congrArg Prod.snd hwork⟩

end Evaluation

/-- The agenda lists every node of the tree once. -/
theorem Tree.Spells.agenda_perm {t : Tree} {bs : List Branch} (h : t.Spells bs) :
    (Evaluation.agenda t).Perm t.nodeList := by
  have hlive : t.nodeIds.filterMap t.node? = t.nodeList := by
    rw [h.nodeIds_eq, List.filterMap_map]
    refine (List.filterMap_eq_map_iff_forall_eq_some.mpr fun n hn => ?_).trans (List.map_id _)
    exact h.toCoherent.node?_id hn
  exact hlive ▸ h.postOrder_perm.filterMap t.node?

namespace Workshop

open Evaluation

/-- **The workflow of an evaluation, on every tree of every run**, for every scheme and every
sequence of calls: the nodes that come up are those of the tree, each once. -/
theorem run_workflow (jobs : List Job) {t : Tree} (ht : t ∈ (run jobs).trees) :
    ∃ ns : List Node, ns.Perm t.nodeList ∧ ns.Nodup ∧
      ∀ {σ ν ρ : Type} (scheme : Scheme σ ν ρ) (state : σ) (config : Config),
        Workflow ns (start t scheme state config) ∧
        ∀ cs, ((start t scheme.logged (state, []) config).calls cs).2.state =
            (((start t scheme state config).calls cs).2.state,
              if .run ∈ cs then .prepare :: ns.map (fun n => .visit n.id) else []) ∧
          ((start t scheme.logged (state, []) config).calls cs).2.cache =
            ((start t scheme state config).calls cs).2.cache := by
  obtain ⟨bs, hs⟩ := ((sound_run jobs).tree ht).spells
  have hnodup : (agenda t).Nodup := by
    refine List.Nodup.of_map Node.id ?_
    rw [hs.map_id_agenda]
    exact hs.nodup_postOrder
  exact ⟨agenda t, hs.agenda_perm, hnodup, fun scheme state config =>
    ⟨workflow_start t scheme state config, calls_logged t scheme state config⟩⟩

/-- In the sum that the errands leave, a scheme is called once to prepare and four times to visit,
however often its evaluation is asked to run. -/
theorem workflow_errands : ∃ t ns, (run errands).forest.tree? "sum" = some t ∧
    ns.Perm t.nodeList ∧ Workflow ns (start t counting () .tracing) ∧
    ∃ log, ((start t counting.logged ((), []) .tracing).calls [.result, .run, .run, .cache]).2.state
      = ((), .prepare :: log) ∧ log.length = 4 := by
  have hsize : ((run errands).forest.tree? "sum").map Tree.size = some 4 := by decide
  obtain ⟨t, ht, h4⟩ := Option.map_eq_some_iff.mp hsize
  obtain ⟨ns, hperm, -, hwork⟩ := run_workflow errands (mem_trees_of_tree? ht)
  obtain ⟨hworkflow, hlogged⟩ := hwork counting () .tracing
  have hlength : ns.length = 4 := by
    rw [hperm.length_eq, ← h4]
    exact t.size_eq_length.symm
  exact ⟨t, ns, ht, hperm, hworkflow, _, (hlogged _).1, by rw [List.length_map, hlength]⟩

end Workshop

end SyntaxTree
