/-
SyntaxTree/Proofs/Workshop.lean

Whole runs.  A workshop is a forest together with the assemblies that are under way.  Its
jobs are the commands of the forest and the steps of an assembly: starting one, giving it
an event, finishing it.  Jobs come in any order; several assemblies can be under way at a
time, and all of them take their identities from the counter of the forest.  An exit that
is refused leaves the assembly usable, and an assembly that cannot be finished is lost.

A workshop remembers every tree that an answer has shown.  What is proved of `w.trees` is
therefore proved of every tree that a run has brought about, at every moment of its life:
of those that are stored, of those that were only answered, and of the earlier states of
trees that have been changed since.

`sound_run`: all trees of a run are sound.  Everything else that is true of all trees of
all runs is derived from this.
-/
import SyntaxTree.Proofs.Forest
import SyntaxTree.Proofs.WellFormed

namespace SyntaxTree

/-- What can be asked of a workshop. -/
inductive Job where
  /-- A command on the forest. -/
  | command (c : Command)
  /-- Starts an assembly under a name. -/
  | start (name : String)
  /-- Gives an event to an assembly. -/
  | event (name : String) (e : Event)
  /-- Finishes an assembly and stores its tree under the name `dest`. -/
  | finish (name dest : String) (title : Option String)

/-- Trees in use and trees in the making. -/
structure Workshop where
  forest : Forest
  /-- The assemblies under way, under their names. -/
  assemblies : OrderedMap String Assembly
  /-- The trees shown by all answers so far. -/
  shown : List Tree

namespace Workshop

/-- The workshop in which nothing has been done. -/
def bare : Workshop := ⟨.bare, .empty, []⟩

/-- The trees that are stored, and those that have been shown. -/
def trees (w : Workshop) : List Tree := w.forest.trees.values ++ w.shown

theorem mem_trees_of_tree? {w : Workshop} {name : String} {t : Tree}
    (h : w.forest.tree? name = some t) : t ∈ w.trees :=
  List.mem_append_left _ (OrderedMap.mem_values_of_get? h)

/-- The workshop after an effect on its forest. -/
def after (w : Workshop) (e : Forest.Effect) : Workshop :=
  { w with forest := e.forest, shown := w.shown ++ e.answer.trees }

/-- Gives an event to an assembly. A node that it opens gets the next identity of the forest. -/
def event (w : Workshop) (name : String) (a : Assembly) (e : Event) : Workshop :=
  let b := ({ a with next := w.forest.next }.apply e).2
  { w with forest := w.forest.advance b.next, assemblies := w.assemblies.insert name b }

/-- Finishes an assembly, which is gone afterwards in any case. -/
def finish (w : Workshop) (name : String) (a : Assembly) (dest : String) (title : Option String) :
    Workshop :=
  let cleared := { w with assemblies := w.assemblies.erase name }
  match a.finish with
  | .ok t => cleared.after (w.forest.deliver dest t title [t.builtEntry])
  | .error _ => cleared

/-- Does a job. What is asked of an assembly that does not exist changes nothing. -/
def step (w : Workshop) : Job → Workshop
  | .command c => w.after (w.forest.step c)
  | .start name => { w with assemblies := w.assemblies.insert name (.start w.forest.next) }
  | .event name e => (w.assemblies.get? name).elim w fun a => w.event name a e
  | .finish name dest title => (w.assemblies.get? name).elim w fun a => w.finish name a dest title

/-- The workshop after jobs done one after another. -/
def run (jobs : List Job) : Workshop := jobs.foldl step bare

/-! ### Soundness -/

/-- All trees are sound, and so are the assemblies under way. -/
structure Sound (w : Workshop) : Prop where
  forest : w.forest.Sound
  shown : ∀ t ∈ w.shown, t.Sound w.forest.next
  assemblies : ∀ a ∈ w.assemblies.values, a.Sound w.forest.next

theorem sound_bare : bare.Sound :=
  ⟨Forest.sound_bare, List.forall_mem_nil _, List.forall_mem_nil _⟩

variable {w : Workshop}

theorem Sound.tree (h : w.Sound) {t : Tree} (ht : t ∈ w.trees) : t.Sound w.forest.next :=
  (List.mem_append.mp ht).elim (h.forest t) (h.shown t)

theorem Sound.after (h : w.Sound) {e : Forest.Effect} (he : e.Sound w.forest.next) :
    (w.after e).Sound := by
  refine ⟨he.forest, ?_, fun a ha => (h.assemblies a ha).mono he.le⟩
  intro t ht
  rcases List.mem_append.mp ht with ht | ht
  · exact (h.shown t ht).mono he.le
  · exact he.answer t ht

theorem Sound.event (h : w.Sound) {name : String} {a : Assembly} (ha : a.Sound w.forest.next)
    (e : Event) : (w.event name a e).Sound := by
  obtain ⟨hb, hle⟩ := (show ({ a with next := w.forest.next } : Assembly).Sound _ from
    ha.withNext w.forest.next).apply e
  refine ⟨h.forest.advance hle, fun t ht => (h.shown t ht).mono hle, ?_⟩
  intro b hmem
  rcases OrderedMap.mem_values_insert hmem with rfl | hmem
  · exact hb
  · exact (h.assemblies b hmem).mono hle

theorem Sound.finish (h : w.Sound) {name : String} {a : Assembly} (ha : a.Sound w.forest.next)
    (dest : String) (title : Option String) : (w.finish name a dest title).Sound := by
  have hcleared : ({ w with assemblies := w.assemblies.erase name } : Workshop).Sound :=
    ⟨h.forest, h.shown, fun b hb => h.assemblies b (OrderedMap.mem_values_erase hb)⟩
  rw [Workshop.finish]
  cases hf : a.finish with
  | error e => exact hcleared
  | ok t =>
    exact hcleared.after (h.forest.deliver (NodeId.le_refl _) (ha.finish hf) dest title _)

/-- **Every job keeps a workshop sound.** -/
theorem Sound.step (h : w.Sound) (j : Job) : (w.step j).Sound := by
  have known : ∀ {name : String} {a : Assembly}, w.assemblies.get? name = some a →
      a.Sound w.forest.next := fun ha => h.assemblies _ (OrderedMap.mem_values_of_get? ha)
  cases j with
  | command c => exact h.after (h.forest.step c)
  | start name =>
    refine ⟨h.forest, h.shown, ?_⟩
    intro a ha
    rcases OrderedMap.mem_values_insert ha with rfl | ha
    · exact Assembly.sound_start _ _
    · exact h.assemblies a ha
  | event name e =>
    rw [Workshop.step]
    cases ha : w.assemblies.get? name with
    | none => exact h
    | some a => exact h.event (known ha) e
  | finish name dest title =>
    rw [Workshop.step]
    cases ha : w.assemblies.get? name with
    | none => exact h
    | some a => exact h.finish (known ha) dest title

/-- **All trees of a run are sound.** -/
theorem sound_run (jobs : List Job) : (run jobs).Sound := by
  have steps : ∀ (js : List Job) {w : Workshop}, w.Sound → (js.foldl step w).Sound := by
    intro js
    induction js with
    | nil => exact fun h => h
    | cons j js ih => exact fun h => ih (h.step j)
  exact steps jobs sound_bare

/-- **Every tree of every run is well-formed**, stored or shown, at every moment. -/
theorem run_wellFormed (jobs : List Job) : ∀ t ∈ (run jobs).trees, t.WellFormed := by
  intro t ht
  obtain ⟨bs, hs⟩ := ((sound_run jobs).tree ht).spells
  exact hs.wellFormed

/-- A run with two assemblies at a time, of which one sees a refused exit and one is lost; its
trees are searched, and one of them takes in a copy of itself. -/
def errands : List Job :=
  [.start "a", .event "a" .exit, .event "a" (.enter "sum" "1+2"), .start "b",
    .event "a" (.enter "number" "1"), .event "b" (.enter "lost" ""), .event "a" .exit,
    .finish "b" "lost" none, .event "a" (.enter "number" "2"), .event "a" .exit,
    .event "a" .exit, .finish "a" "sum" (some "a sum"),
    .command (.findAll "sum" (fun n => n.rule = "number") (some "part")),
    .command (.copy "copy" "sum" none), .command (.replace "sum" "part0" "copy"),
    .command (.remove "sum" "part1" none), .command (.remove "sum" "part1" none)]

/-- After the errands the sum has four nodes, and it is well-formed. -/
theorem wellFormed_errands :
    ∃ t, (run errands).forest.tree? "sum" = some t ∧ t.size = 4 ∧ t.WellFormed := by
  have hsize : ((run errands).forest.tree? "sum").map Tree.size = some 4 := by decide
  obtain ⟨t, ht, h4⟩ := Option.map_eq_some_iff.mp hsize
  exact ⟨t, ht, h4, run_wellFormed errands t (mem_trees_of_tree? ht)⟩

end Workshop

end SyntaxTree
