/-
SyntaxTree/Proofs/Effect.lean

The effect of a command on a forest, name by name and identity by identity.

A command is declined, or it makes trees, or it changes one (`step_cases`).  From this follows
what everything else needs to know of commands:

  * What is found under a name afterwards has been delivered there by the command, or is
    what the command has made of the tree found there before (`outcome_step`), and that is a
    revision of it (`Alters.revises`).
  * The nodes that a command creates get the identities that are next, one after the other,
    and what is delivered consists of such nodes, or has been cut out of a tree
    (`exists_mints`).
-/
import Mathlib.Data.List.Flatten
import SyntaxTree.Forest.Session
import SyntaxTree.Proofs.Forest
import SyntaxTree.Proofs.Revision

namespace SyntaxTree

namespace Forest

/-- Trees under a name followed by `i`, `i + 1` and so on. -/
def numbered (name : String) (i : Nat) : List Tree → List (String × Tree)
  | [] => []
  | t :: ts => (name ++ toString i, t) :: numbered name (i + 1) ts

/-- Stores trees under names of their own, one after another. -/
def storeAll (f : Forest) (ps : List (String × Tree)) : Forest :=
  ps.foldl (fun f p => f.store p.1 p.2) f

end Forest

/-- The trees that a command stores under names it has been given for them, as they are known from
its answer. -/
def Command.deliveries : Command → Answer → List (String × Tree)
  | .makeEmpty dest _, .made t => [(dest, t)]
  | .makeLeaf dest _ _ _, .made t => [(dest, t)]
  | .build dest _ _, .made t => [(dest, t)]
  | .copy dest _ _, .made t => [(dest, t)]
  | .extract _ _ (some dest), .made t => [(dest, t)]
  | .findAll _ _ (some dest), .found ts => Forest.numbered dest 0 ts
  | .findOutermost _ _ (some dest), .found ts => Forest.numbered dest 0 ts
  | .remove _ _ (some dest), .removed (.ok piece) _ => [(dest, piece)]
  | _, _ => []

/-- The command is one that takes nodes out of a tree, if it succeeds. -/
def Command.cuts : Command → Bool
  | .remove .. | .replace .. => true
  | _ => false

/-- The answer reports that nodes have been taken out of a tree. -/
def Answer.cuts : Answer → Bool
  | .removed (.ok _) _ | .replaced (.ok _) _ => true
  | _ => false

theorem Command.deliveries_refused (c : Command) (reason : Refusal) :
    c.deliveries (.refused reason) = [] := by
  rcases c with _ | _ | _ | _ | _ | ⟨_, _, _ | _⟩ | ⟨_, _, _ | _⟩ | ⟨_, _, _ | _⟩ |
    ⟨_, _, _ | _⟩ | _ <;> rfl

namespace Forest

/-- The trees that a command delivers, with the names it stores them under. -/
def deliveries (f : Forest) (c : Command) : List (String × Tree) := c.deliveries (f.step c).answer

/-- The names under which a command stores another tree than before. -/
def stored (f : Forest) (c : Command) : List String := (f.deliveries c).map Prod.fst

/-- The identities of the nodes that a command creates, in the order of their creation. A stream of
events that is refused has created nodes all the same. -/
def created (f : Forest) : Command → List NodeId
  | .build _ events _ => ((Assembly.start f.next).applyAll events).2.nodes.keys
  | c => Session.introduced f.next (f.step c).answer

/-- The command takes the node `i` out of the tree under the name `x`, by cutting out or replacing
a subtree it belongs to. -/
inductive Excises (f : Forest) : Command → String → NodeId → Prop
  | remove {x candidate : String} {dest : Option String} {t c : Tree} {r : Tree.Removal} {i : NodeId}
      (ht : f.tree? x = some t) (hc : f.tree? candidate = some c) (hr : t.remove c = .ok r)
      (hi : r.removed.contains i = true) : Excises f (.remove x candidate dest) x i
  | replace {x candidate graft : String} {t c g : Tree} {r : Tree.Replacement} {i : NodeId}
      (ht : f.tree? x = some t) (hc : f.tree? candidate = some c) (hg : f.tree? graft = some g)
      (hr : t.replace c g f.next = .ok r) (hi : r.removed.contains i = true) :
      Excises f (.replace x candidate graft) x i

/-- What a command makes of the tree under a name, as long as it stores no other there. -/
inductive Alters (f : Forest) : Command → String → Tree → Tree → Prop
  | spared {c : Command} {x : String} {t : Tree} (h : ∀ i, ¬ f.Excises c x i) : Alters f c x t t
  | renamed {x name : String} {t : Tree} : Alters f (.rename x name) x t (t.withName name)
  | pruned {x candidate : String} {dest : Option String} {t c : Tree} {r : Tree.Removal}
      (hc : f.tree? candidate = some c) (hr : t.remove c = .ok r) :
      Alters f (.remove x candidate dest) x t r.rest
  | grafted {x candidate graft : String} {t c g : Tree} {r : Tree.Replacement}
      (hc : f.tree? candidate = some c) (hg : f.tree? graft = some g)
      (hr : t.replace c g f.next = .ok r) : Alters f (.replace x candidate graft) x t r.result

/-- What can be found under a name after a command. -/
inductive Outcome (f : Forest) (c : Command) (y : String) : Option Tree → Prop
  | delivered {u : Tree} (h : (y, u) ∈ f.deliveries c) : Outcome f c y (some u)
  | absent (hy : y ∉ f.stored c) (h : f.tree? y = none) : Outcome f c y none
  | altered {t u : Tree} (hy : y ∉ f.stored c) (ht : f.tree? y = some t) (h : f.Alters c y t u) :
      Outcome f c y (some u)

variable {f : Forest} {c : Command} {x y : String} {t u : Tree} {i : NodeId}

/-! ### Looking up what has been stored -/

theorem tree?_store (f : Forest) (x y : String) (t : Tree) :
    (f.store x t).tree? y = if y = x then some t else f.tree? y :=
  OrderedMap.get?_insert f.trees x y t

theorem storeFrom_eq (f : Forest) (name : String) (i : Nat) (ts : List Tree) :
    f.storeFrom name i ts = f.storeAll (numbered name i ts) := by
  induction ts generalizing f i with
  | nil => rfl
  | cons t ts ih => exact ih (f.store (name ++ toString i) t) (i + 1)

theorem tree?_storeAll_of_notMem {ps : List (String × Tree)} (hy : y ∉ ps.map Prod.fst) :
    (f.storeAll ps).tree? y = f.tree? y := by
  induction ps generalizing f with
  | nil => rfl
  | cons p ps ih =>
    rw [List.map_cons, List.mem_cons, not_or] at hy
    have hrest := ih (f := f.store p.1 p.2) hy.2
    rw [tree?_store, if_neg hy.1] at hrest
    exact hrest

theorem exists_tree?_storeAll {ps : List (String × Tree)} (hy : y ∈ ps.map Prod.fst) :
    ∃ u, (f.storeAll ps).tree? y = some u ∧ (y, u) ∈ ps := by
  induction ps generalizing f with
  | nil => cases hy
  | cons p ps ih =>
    by_cases hlater : y ∈ ps.map Prod.fst
    · obtain ⟨u, hu, hmem⟩ := ih (f := f.store p.1 p.2) hlater
      exact ⟨u, hu, List.mem_cons_of_mem _ hmem⟩
    · -- no later tree is stored under the name
      obtain rfl : y = p.1 := (List.mem_cons.mp hy).resolve_right hlater
      refine ⟨p.2, ?_, List.mem_cons_self⟩
      have hrest := tree?_storeAll_of_notMem (f := f.store p.1 p.2) hlater
      rw [tree?_store, if_pos rfl] at hrest
      exact hrest

/-! ### Commands that are declined -/

/-- The command does nothing, and shows no tree that is not there. -/
structure Declines (f : Forest) (c : Command) : Prop where
  forest_eq : (f.step c).forest = f
  known : ∀ t ∈ (f.step c).answer.trees, ∃ x, f.tree? x = some t
  deliveries_eq : f.deliveries c = []
  spares : ∀ x i, ¬ f.Excises c x i
  created_eq : f.created c = Session.introduced f.next (f.step c).answer

/-- A command that takes a node out of a tree has succeeded. -/
theorem Excises.cuts_answer (h : f.Excises c x i) : (f.step c).answer.cuts = true := by
  cases h with
  | remove ht hc hr => simp only [step, ht, hc, Forest.remove, hr, Answer.cuts]
  | replace ht hc hg hr => simp only [step, ht, hc, hg, Forest.replace, hr, Answer.cuts]

theorem not_excises (hc : c.cuts = false) (x : String) (i : NodeId) : ¬ f.Excises c x i := by
  intro h
  cases h <;> exact Bool.noConfusion hc

theorem excises_remove_iff {candidate : String} {dest : Option String} {c : Tree} {r : Tree.Removal}
    (ht : f.tree? x = some t) (hc : f.tree? candidate = some c) (hr : t.remove c = .ok r) :
    r.removed.contains i = true ↔ f.Excises (.remove x candidate dest) x i := by
  refine ⟨.remove ht hc hr, ?_⟩
  rintro (⟨ht', hc', hr', hi⟩ | -)
  obtain rfl := Option.some.inj (ht.symm.trans ht')
  obtain rfl := Option.some.inj (hc.symm.trans hc')
  obtain rfl := Except.ok.inj (hr.symm.trans hr')
  exact hi

theorem excises_replace_iff {candidate graft : String} {c g : Tree} {r : Tree.Replacement}
    (ht : f.tree? x = some t) (hc : f.tree? candidate = some c) (hg : f.tree? graft = some g)
    (hr : t.replace c g f.next = .ok r) :
    r.removed.contains i = true ↔ f.Excises (.replace x candidate graft) x i := by
  refine ⟨.replace ht hc hg hr, ?_⟩
  rintro (- | ⟨ht', hc', hg', hr', hi⟩)
  obtain rfl := Option.some.inj (ht.symm.trans ht')
  obtain rfl := Option.some.inj (hc.symm.trans hc')
  obtain rfl := Option.some.inj (hg.symm.trans hg')
  obtain rfl := Except.ok.inj (hr.symm.trans hr')
  exact hi

/-- A command that changes nothing, shows trees that are there and reports no success. -/
theorem declines_of_unchanged {answer : Answer} (hstep : f.step c = f.unchanged answer)
    (hknown : ∀ t ∈ answer.trees, ∃ x, f.tree? x = some t) (hnone : c.deliveries answer = [])
    (hcreated : f.created c = Session.introduced f.next (f.step c).answer)
    (hcut : answer.cuts = false) : f.Declines c := by
  have hanswer : (f.step c).answer = answer := hstep ▸ rfl
  refine ⟨hstep ▸ rfl, hanswer ▸ hknown, ?_, ?_, hcreated⟩
  · rwa [deliveries, hanswer]
  · intro x i h
    exact absurd h.cuts_answer (by rw [hanswer, hcut]; exact Bool.false_ne_true)

theorem declines_of_missing (hstep : f.step c = f.missing)
    (hcreated : f.created c = Session.introduced f.next (f.step c).answer) : f.Declines c :=
  declines_of_unchanged hstep (List.forall_mem_nil _) (c.deliveries_refused _) hcreated rfl

/-- The subtree at a node that is not live cannot be copied. -/
theorem declines_of_nothing {dest : Option String} (ht : f.tree? x = some t)
    (hi : t.extract i f.next = none) : f.Declines (.extract x i dest) := by
  have hstep : f.step (.extract x i dest) = f.unchanged .nothing := by
    rw [step, ht]
    simp only [extract, hi]
  exact declines_of_unchanged hstep (List.forall_mem_nil _) (by cases dest <;> rfl) rfl rfl

/-- A removal is declined, or cuts a subtree out. -/
theorem remove_cases (f : Forest) (x candidate : String) (dest : Option String) :
    f.Declines (.remove x candidate dest) ∨
    ∃ t c r, f.tree? x = some t ∧ f.tree? candidate = some c ∧ t.remove c = .ok r ∧
      f.step (.remove x candidate dest) = ⟨.removed (.ok r.removed) r.rest,
        (f.store x r.rest).storeAs dest r.removed, [r.logEntry]⟩ := by
  cases ht : f.tree? x with
  | none => exact Or.inl (declines_of_missing (by rw [step, ht]) rfl)
  | some t =>
    -- a removal that fails shows the tree as it is
    have declined : ∀ e, f.step (.remove x candidate dest) = f.unchanged (.removed (.error e) t) →
        f.Declines (.remove x candidate dest) := fun e hstep =>
      declines_of_unchanged hstep (List.forall_mem_singleton.mpr ⟨x, ht⟩) (by cases dest <;> rfl)
        rfl rfl
    cases hc : f.tree? candidate with
    | none => exact Or.inl (declined .noSuchTree (by simp only [step, ht, hc]))
    | some c =>
      cases hr : t.remove c with
      | error e => exact Or.inl (declined (.cause e) (by simp only [step, ht, hc, remove, hr]))
      | ok r => exact Or.inr ⟨t, c, r, rfl, rfl, hr, by simp only [step, ht, hc, remove, hr]⟩

/-- A replacement is declined, or puts a copy in the place of a subtree. -/
theorem replace_cases (f : Forest) (x candidate graft : String) :
    f.Declines (.replace x candidate graft) ∨
    ∃ t c g r, f.tree? x = some t ∧ f.tree? candidate = some c ∧ f.tree? graft = some g ∧
      t.replace c g f.next = .ok r ∧
      f.step (.replace x candidate graft) = ⟨.replaced (.ok ()) r.result,
        (f.advance (f.next.shift r.added)).store x r.result, [r.logEntry]⟩ := by
  cases ht : f.tree? x with
  | none => exact Or.inl (declines_of_missing (by rw [step, ht]) rfl)
  | some t =>
    -- a replacement that fails shows the tree as it is
    have declined : ∀ e, f.step (.replace x candidate graft) = f.unchanged (.replaced (.error e) t) →
        f.Declines (.replace x candidate graft) := fun e hstep =>
      declines_of_unchanged hstep (List.forall_mem_singleton.mpr ⟨x, ht⟩) rfl rfl rfl
    cases hc : f.tree? candidate with
    | none => exact Or.inl (declined .noSuchTree (by simp only [step, ht, hc]))
    | some c =>
      cases hg : f.tree? graft with
      | none => exact Or.inl (declined .noSuchTree (by simp only [step, ht, hc, hg]))
      | some g =>
        cases hr : t.replace c g f.next with
        | error e => exact Or.inl (declined (.cause e) (by simp only [step, ht, hc, hg, replace, hr]))
        | ok r =>
          exact Or.inr ⟨t, c, g, r, rfl, rfl, rfl, hr, by simp only [step, ht, hc, hg, replace, hr]⟩

/-! ### Commands that make trees -/

theorem introduced_eq_block {next : NodeId} {answer : Answer} {k : Nat} (old : List NodeId)
    (hids : answer.trees.flatMap Tree.nodeIds = old ++ next.block k) (hold : ∀ i ∈ old, i < next) :
    Session.introduced next answer = next.block k := by
  rw [Session.introduced, hids]
  exact NodeId.filter_append_block hold k

/-- What is delivered is shown in the answer. -/
theorem deliveries_sublist (c : Command) (a : Answer) :
    ((c.deliveries a).map Prod.snd).Sublist a.trees := by
  have hnumbered : ∀ (name : String) (i : Nat) (ts : List Tree),
      (numbered name i ts).map Prod.snd = ts := by
    intro name i ts
    induction ts generalizing i with
    | nil => rfl
    | cons t ts ih => exact congrArg (t :: ·) (ih (i + 1))
  unfold Command.deliveries
  split
  all_goals simp [Answer.trees, hnumbered]

/-- The command makes trees of `k` nodes in all, under the next identities, and changes none. -/
structure Makes (f : Forest) (c : Command) (k : Nat) : Prop where
  forest_eq : (f.step c).forest = (f.advance (f.next.shift k)).storeAll (f.deliveries c)
  created_eq : f.created c = f.next.block k
  delivered : ((f.deliveries c).flatMap fun p => p.2.nodeIds).Sublist (f.next.block k)
  spares : ∀ x i, ¬ f.Excises c x i

/-- A command that shows its new trees, and no others. -/
theorem makes_of_answer {k : Nat} (hc : c.cuts = false)
    (hcreated : f.created c = Session.introduced f.next (f.step c).answer)
    (hids : (f.step c).answer.trees.flatMap Tree.nodeIds = f.next.block k)
    (hforest : (f.step c).forest = (f.advance (f.next.shift k)).storeAll (f.deliveries c)) :
    f.Makes c k := by
  refine ⟨hforest, hcreated.trans (introduced_eq_block [] hids (List.forall_mem_nil _)), ?_,
    not_excises hc⟩
  rw [← hids, ← List.flatMap_map]
  exact (deliveries_sublist c (f.step c).answer).flatMap Tree.nodeIds

theorem nodeIds_titled (t : Tree) (name : Option String) :
    (name.elim t t.withName).nodeIds = t.nodeIds := by
  cases name <;> rfl

theorem exists_makes_build (f : Forest) (dest : String) (events : List Event)
    (name : Option String) : ∃ k, f.Makes (.build dest events name) k := by
  obtain ⟨k, hnum, -⟩ := (Assembly.numbered_start f.next).applyAll events
  have hsnd : (Tree.ofEvents events f.next).2 = f.next.shift k := by
    rw [Tree.ofEvents, ← hnum.next_eq]
    rcases (Assembly.start f.next).applyAll events with ⟨_ | _, a⟩ <;> rfl
  rcases hb : Tree.ofEvents events f.next with ⟨e | t, next⟩
  -- refused or not, the stream has used up what was registered
  all_goals
    rw [hb] at hsnd
    refine ⟨k, ?_, hnum.keys_eq, ?_, not_excises rfl⟩
    · rw [← hsnd, deliveries, step, build, hb]
      rfl
  · -- a stream that is refused delivers nothing, but has used up identities
    rw [deliveries, step, build, hb]
    exact List.nil_sublist _
  · -- the nodes of the tree are all that were created
    obtain ⟨a, ha, hf⟩ := Tree.ofEvents_eq_ok_iff.mp (congrArg Prod.fst hb)
    obtain ⟨-, -, hf⟩ := Assembly.finish_eq_ok_iff.mp hf
    have hkeys : a.nodes.keys = f.next.block k := by rw [← hnum.keys_eq, ha]
    rw [deliveries, step, build, hb, ← hkeys]
    have hids : (name.elim t t.withName).nodeIds ++ [] = a.nodes.keys :=
      (List.append_nil _).trans ((nodeIds_titled t name).trans (by rw [hf]; rfl))
    exact hids ▸ .refl _

theorem exists_makes_deliverAll (hc : c.cuts = false)
    (hcreated : f.created c = Session.introduced f.next (f.step c).answer) {dest : Option String}
    {found : List Tree × NodeId} (hstep : f.step c = f.deliverAll found dest)
    (hdest : c.deliveries (.found found.1) = dest.elim [] fun name => numbered name 0 found.1)
    (hids : ∃ k, found.1.flatMap Tree.nodeIds = f.next.block k ∧ found.2 = f.next.shift k) :
    ∃ k, f.Makes c k := by
  obtain ⟨k, hids, hnext⟩ := hids
  refine ⟨k, makes_of_answer hc hcreated ?_ ?_⟩
  · rw [hstep]
    exact hids
  · have hanswer : (f.step c).answer = .found found.1 := hstep ▸ rfl
    rw [deliveries, hanswer, hdest, ← hnext, hstep]
    cases dest with
    | none => rfl
    | some name => exact storeFrom_eq _ name 0 _

/-- **What a command can do**: it is declined, or makes trees, or is one of those that change a
tree. -/
theorem step_cases (hf : f.Sound) (c : Command) : f.Declines c ∨ (∃ k, f.Makes c k) ∨
    (∃ x name, c = .rename x name) ∨ (∃ x candidate dest, c = .remove x candidate dest) ∨
    ∃ x candidate graft, c = .replace x candidate graft := by
  cases c with
  | makeEmpty dest name =>
    refine .inr (.inl ⟨0, makes_of_answer rfl rfl ?_ rfl⟩)
    exact (List.append_nil _).trans (nodeIds_titled _ name)
  | makeLeaf dest rule label name =>
    refine .inr (.inl ⟨1, makes_of_answer rfl rfl ?_ rfl⟩)
    exact (List.append_nil _).trans (nodeIds_titled _ name)
  | build dest events name => exact .inr (.inl (f.exists_makes_build dest events name))
  | copy dest source name =>
    cases ht : f.tree? source with
    | none => exact .inl (declines_of_missing (by rw [step, ht]) rfl)
    | some t =>
      refine .inr (.inl ⟨(t.copyOf f.next).size, makes_of_answer rfl rfl ?_ ?_⟩)
      · rw [step, ht, ← (hf.tree ht).nodeIds_copyOf f.next]
        exact (List.append_nil _).trans (nodeIds_titled _ name)
      · rw [deliveries, step, ht]
        rfl
  | extract tree id dest =>
    cases ht : f.tree? tree with
    | none => exact .inl (declines_of_missing (by rw [step, ht]) rfl)
    | some t =>
      cases hp : t.extract id f.next with
      | none => exact .inl (declines_of_nothing ht hp)
      | some piece =>
        refine .inr (.inl ⟨piece.size, makes_of_answer rfl rfl ?_ ?_⟩)
        · simp only [step, ht, extract, hp]
          rw [← (hf.tree ht).nodeIds_extract hp]
          exact List.append_nil _
        · simp only [deliveries, step, ht, extract, hp]
          cases dest <;> rfl
  | findAll tree p dest =>
    cases ht : f.tree? tree with
    | none => exact .inl (declines_of_missing (by rw [step, ht]) rfl)
    | some t =>
      exact .inr (.inl (exists_makes_deliverAll rfl rfl (by rw [step, ht]) (by cases dest <;> rfl)
        ((hf.tree ht).nodeIds_findAll p f.next)))
  | findOutermost tree p dest =>
    cases ht : f.tree? tree with
    | none => exact .inl (declines_of_missing (by rw [step, ht]) rfl)
    | some t =>
      exact .inr (.inl (exists_makes_deliverAll rfl rfl (by rw [step, ht]) (by cases dest <;> rfl)
        ((hf.tree ht).nodeIds_findOutermost p f.next)))
  | rename x name => exact .inr (.inr (.inl ⟨x, name, rfl⟩))
  | remove x candidate dest => exact .inr (.inr (.inr (.inl ⟨x, candidate, dest, rfl⟩)))
  | replace x candidate graft => exact .inr (.inr (.inr (.inr ⟨x, candidate, graft, rfl⟩)))

/-! ### The outcome of a command -/

/-- A command that only delivers trees leaves all others as they are. -/
theorem outcome_of_storeAll (next : NodeId)
    (hforest : (f.step c).forest = (f.advance next).storeAll (f.deliveries c))
    (hc : ∀ i, ¬ f.Excises c y i) : f.Outcome c y ((f.step c).forest.tree? y) := by
  rw [hforest]
  by_cases hy : y ∈ f.stored c
  · obtain ⟨u, hu, hmem⟩ := exists_tree?_storeAll (f := f.advance next) hy
    rw [hu]
    exact .delivered hmem
  · rw [tree?_storeAll_of_notMem hy]
    show f.Outcome c y (f.tree? y)
    cases ht : f.tree? y with
    | none => exact .absent hy ht
    | some t => exact .altered hy ht (.spared hc)

/-- A command that changes the tree under one name, and may deliver trees besides. -/
theorem outcome_of_alters (next : NodeId) (ht : f.tree? x = some t)
    (hforest : (f.step c).forest = ((f.advance next).store x u).storeAll (f.deliveries c))
    (hx : f.Alters c x t u) (hc : ∀ i, y ≠ x → ¬ f.Excises c y i) :
    f.Outcome c y ((f.step c).forest.tree? y) := by
  rw [hforest]
  by_cases hy : y ∈ f.stored c
  · obtain ⟨v, hv, hmem⟩ := exists_tree?_storeAll (f := (f.advance next).store x u) hy
    rw [hv]
    exact .delivered hmem
  · rw [tree?_storeAll_of_notMem hy, tree?_store]
    show f.Outcome c y (if y = x then some u else f.tree? y)
    by_cases hyx : y = x
    · subst hyx
      rw [if_pos rfl]
      exact .altered hy ht hx
    · rw [if_neg hyx]
      cases ht' : f.tree? y with
      | none => exact .absent hy ht'
      | some t' => exact .altered hy ht' (.spared fun i => hc i hyx)

theorem Declines.outcome (h : f.Declines c) (y : String) :
    f.Outcome c y ((f.step c).forest.tree? y) := by
  refine outcome_of_storeAll f.next ?_ (h.spares y)
  rw [h.forest_eq, h.deliveries_eq]
  rfl

/-- **What is found under a name after a command** has been delivered there, or is what the command
has made of the tree that was there. -/
theorem outcome_step (hf : f.Sound) (c : Command) (y : String) :
    f.Outcome c y ((f.step c).forest.tree? y) := by
  rcases step_cases hf c with h | ⟨k, h⟩ | ⟨x, name, rfl⟩ | ⟨x, candidate, dest, rfl⟩ |
    ⟨x, candidate, graft, rfl⟩
  · exact h.outcome y
  · exact outcome_of_storeAll _ h.forest_eq (h.spares y)
  · cases ht : f.tree? x with
    | none => exact (declines_of_missing (by rw [step, ht]) rfl).outcome y
    | some t =>
      refine outcome_of_alters f.next ht ?_ .renamed fun i _ => not_excises rfl y i
      simp only [deliveries, step, ht]
      rfl
  · obtain h | ⟨t, c, r, ht, hc, hr, hstep⟩ := f.remove_cases x candidate dest
    · exact h.outcome y
    · refine outcome_of_alters f.next ht ?_ (.pruned hc hr) ?_
      · rw [deliveries, hstep]
        cases dest <;> rfl
      · -- nothing is cut out of a tree under another name
        rintro i hyx (_ | _)
        exact hyx rfl
  · obtain h | ⟨t, c, g, r, ht, hc, hg, hr, hstep⟩ := f.replace_cases x candidate graft
    · exact h.outcome y
    · refine outcome_of_alters (f.next.shift r.added) ht ?_ (.grafted hc hg hr) ?_
      · rw [hstep]
        rfl
      · rintro i hyx (_ | _)
        exact hyx rfl

/-! ### What a command creates -/

/-- The command creates `k` nodes, under the next identities; what it delivers consists of new nodes,
or has been cut out of a tree. -/
structure Mints (f : Forest) (c : Command) (k : Nat) : Prop where
  next_eq : (f.step c).forest.next = f.next.shift k
  created_eq : f.created c = f.next.block k
  delivered : ((f.deliveries c).flatMap fun p => p.2.nodeIds).Sublist (f.next.block k) ∨
    ∃ x candidate y piece, c = .remove x candidate (some y) ∧ f.deliveries c = [(y, piece)] ∧
      ∀ i, piece.contains i = true ↔ f.Excises c x i

theorem introduced_eq_nil {next : NodeId} {answer : Answer}
    (h : ∀ t ∈ answer.trees, t.Sound next) : Session.introduced next answer = [] := by
  refine introduced_eq_block (k := 0) _ (List.append_nil _).symm ?_
  intro i hi
  obtain ⟨t, ht, hi⟩ := List.mem_flatMap.mp hi
  exact (h t ht).lt_of_contains (Tree.contains_iff_mem_nodeIds.mpr hi)

theorem Declines.mints (h : f.Declines c) (hf : f.Sound) : f.Mints c 0 := by
  have hold : ∀ t ∈ (f.step c).answer.trees, t.Sound f.next := by
    intro t ht
    obtain ⟨x, hx⟩ := h.known t ht
    exact hf.tree hx
  refine ⟨congrArg Forest.next h.forest_eq, h.created_eq.trans (introduced_eq_nil hold), ?_⟩
  exact Or.inl (h.deliveries_eq ▸ .refl _)

theorem next_storeAll (f : Forest) (ps : List (String × Tree)) : (f.storeAll ps).next = f.next := by
  induction ps generalizing f with
  | nil => rfl
  | cons p ps ih => exact ih (f.store p.1 p.2)

theorem Makes.mints {k : Nat} (h : f.Makes c k) : f.Mints c k :=
  ⟨h.forest_eq ▸ next_storeAll _ _, h.created_eq, Or.inl h.delivered⟩

theorem mints_rename (hf : f.Sound) (x name : String) : f.Mints (.rename x name) 0 := by
  cases ht : f.tree? x with
  | none => exact (declines_of_missing (by rw [step, ht]) rfl).mints hf
  | some t =>
    have hstep : f.step (.rename x name) = ⟨.named name, f.store x (t.withName name), []⟩ := by
      rw [step, ht]
    refine ⟨hstep ▸ rfl, ?_, Or.inl (List.nil_sublist _)⟩
    show Session.introduced f.next (f.step (.rename x name)).answer = _
    rw [hstep]
    rfl

/-- A removal creates nothing, and delivers what it has cut out. -/
theorem mints_remove (hf : f.Sound) (x candidate : String) (dest : Option String) :
    f.Mints (.remove x candidate dest) 0 := by
  obtain h | ⟨t, c, r, ht, hc, hr, hstep⟩ := f.remove_cases x candidate dest
  · exact h.mints hf
  · obtain ⟨hpiece, hrest⟩ := (hf.tree ht).remove hr
    refine ⟨?_, ?_, ?_⟩
    · rw [hstep]
      exact next_storeAs _ dest r.removed
    · refine introduced_eq_nil ?_
      rw [hstep]
      exact List.forall_mem_cons.mpr ⟨hpiece, List.forall_mem_singleton.mpr hrest⟩
    · cases dest with
      | none => exact Or.inl (List.nil_sublist _)
      | some y =>
        refine Or.inr ⟨x, candidate, y, r.removed, rfl, ?_, fun i => excises_remove_iff ht hc hr⟩
        rw [deliveries, hstep]
        rfl

/-- A replacement creates the nodes of the graft. -/
theorem mints_replace (hf : f.Sound) {candidate graft : String} {c g : Tree} {r : Tree.Replacement}
    (ht : f.tree? x = some t) (hc : f.tree? candidate = some c) (hg : f.tree? graft = some g)
    (hr : t.replace c g f.next = .ok r) : f.Mints (.replace x candidate graft) r.added := by
  have hstep : f.step (.replace x candidate graft) = ⟨.replaced (.ok ()) r.result,
      (f.advance (f.next.shift r.added)).store x r.result, [r.logEntry]⟩ := by
    simp only [step, ht, hc, hg, replace, hr]
  have hrevises := (hf.tree ht).revises_replace (hf.tree hg) hr
  refine ⟨hstep ▸ rfl, introduced_eq_block (t.nodeIds.filter fun i => !r.removed.contains i) ?_ ?_,
    Or.inl (List.nil_sublist _)⟩
  · rw [hstep]
    exact (List.append_nil _).trans hrevises.nodeIds_eq
  · -- what has stayed in the tree is old
    intro i hi
    have hlive := Tree.contains_iff_mem_nodeIds.mpr (List.mem_filter.mp hi).1
    exact (hf.tree ht).lt_of_contains hlive

/-- **What a command creates** it creates under the next identities. -/
theorem exists_mints (hf : f.Sound) (c : Command) : ∃ k, f.Mints c k := by
  rcases step_cases hf c with h | ⟨k, h⟩ | ⟨x, name, rfl⟩ | ⟨x, candidate, dest, rfl⟩ |
    ⟨x, candidate, graft, rfl⟩
  · exact ⟨0, h.mints hf⟩
  · exact ⟨k, h.mints⟩
  · exact ⟨0, mints_rename hf x name⟩
  · exact ⟨0, mints_remove hf x candidate dest⟩
  · obtain h | ⟨t, c, g, r, ht, hc, hg, hr, -⟩ := f.replace_cases x candidate graft
    · exact ⟨0, h.mints hf⟩
    · exact ⟨r.added, mints_replace hf ht hc hg hr⟩

/-! ### What a command makes of a tree -/

/-- Only nodes of a tree can be taken out of it. -/
theorem Excises.exists_tree (h : f.Excises c x i) (hf : f.Sound) :
    ∃ t, f.tree? x = some t ∧ t.contains i = true := by
  cases h with
  | remove ht hc hr hi => exact ⟨_, ht, ((hf.tree ht).revises_remove hr).removed_subset i hi⟩
  | replace ht hc hg hr hi =>
    exact ⟨_, ht, ((hf.tree ht).revises_replace (hf.tree hg) hr).removed_subset i hi⟩

/-- **What a command makes of a tree is a revision**: it lacks what the command takes out, and has
new nodes only if the command is a replacement. -/
theorem Alters.revises (h : f.Alters c x t u) (hf : f.Sound) (ht : f.tree? x = some t) :
    ∃ removed new, t.Revises removed new u ∧
      (∀ i, removed.contains i = true ↔ f.Excises c x i) ∧
      ∀ i ∈ new, i ∈ f.created c ∧ ∃ candidate graft, c = .replace x candidate graft := by
  cases h with
  | spared hnone =>
    exact ⟨_, _, Tree.revises_of_nodes_eq rfl,
      fun i => iff_of_false (Tree.not_contains_empty i) (hnone i), List.forall_mem_nil _⟩
  | renamed =>
    exact ⟨_, _, Tree.revises_of_nodes_eq rfl,
      fun i => iff_of_false (Tree.not_contains_empty i) (not_excises rfl x i), List.forall_mem_nil _⟩
  | pruned hc hr =>
    exact ⟨_, _, (hf.tree ht).revises_remove hr, fun i => excises_remove_iff ht hc hr,
      List.forall_mem_nil _⟩
  | grafted hc hg hr =>
    refine ⟨_, _, (hf.tree ht).revises_replace (hf.tree hg) hr,
      fun i => excises_replace_iff ht hc hg hr, fun i hi => ⟨?_, _, _, rfl⟩⟩
    rw [(mints_replace hf ht hc hg hr).created_eq]
    exact hi

end Forest

end SyntaxTree
