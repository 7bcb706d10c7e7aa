/-
SyntaxTree/Proofs/Holder.lean

Who holds an identity, and what a job does with it.  An identity is held by the tree in
which it is live, or by the assembly in which it has been entered, and by one holder at
most (`Exclusive`).  A job leaves a held identity where it is, or cuts it out and stores it
with the rest of the subtree, or finishes the assembly it was entered in, or drops it
(`Passes`).  Identities that nobody holds come only from the counter (`Arrives`).

`holds_step` says that there is nothing else, and `exists_revises_step` what this means for
the tree under a name.
-/
import Mathlib.Data.List.Pairwise
import SyntaxTree.Proofs.Effect
import SyntaxTree.Proofs.Workshop

namespace SyntaxTree

/-- What can hold nodes: the trees and the assemblies of a workshop, each under a name. -/
inductive Holder where
  | tree (name : String)
  | assembly (name : String)

namespace Workshop

/-- The node `i` is live in a tree, or has been entered in an assembly. -/
def Holds (w : Workshop) : Holder → NodeId → Prop
  | .tree x, i => ∃ t, w.forest.tree? x = some t ∧ t.contains i = true
  | .assembly x, i => ∃ a, w.assemblies.get? x = some a ∧ i ∈ a.nodes.keys

/-- The tree that finishing an assembly delivers. -/
def finished (w : Workshop) (name : String) (title : Option String) : Option Tree :=
  (w.assemblies.get? name).bind fun a =>
    a.finish.toOption.map fun t => title.elim t t.withName

/-- The names under which a job stores another tree than before. -/
def stored (w : Workshop) : Job → List String
  | .command c => w.forest.stored c
  | .finish name dest title => (w.finished name title).elim [] fun _ => [dest]
  | .start _ => []
  | .event _ _ => []

/-- The identities of the nodes that a job creates, in the order of their creation. -/
def created (w : Workshop) : Job → List NodeId
  | .command c => w.forest.created c
  | .event name e => ((w.step (.event name e)).assemblies.get? name).elim [] fun a =>
      a.nodes.keys.filter fun i => w.forest.next ≤ i
  | .start _ => []
  | .finish _ _ _ => []

/-- The job takes the node `i` out of the tree under the name `x`. -/
def Excises (w : Workshop) (j : Job) (x : String) (i : NodeId) : Prop :=
  ∃ c, j = .command c ∧ w.forest.Excises c x i

/-- What a job can do with a node that is held, but for dropping it. -/
inductive Passes (w : Workshop) (j : Job) (i : NodeId) : Holder → Holder → Prop
  /-- It leaves the node where it is. -/
  | stays {x : String} (hx : x ∉ w.stored j) (hi : ¬ w.Excises j x i) : Passes w j i (.tree x) (.tree x)
  /-- It cuts the node out and stores the subtree that it belongs to. -/
  | cut {x candidate y : String} (hj : j = .command (.remove x candidate (some y)))
      (hy : y ∈ w.stored j) (hi : w.Excises j x i) : Passes w j i (.tree x) (.tree y)
  /-- It leaves the assembly under way. -/
  | kept {x : String} (h : ∀ dest title, j ≠ .finish x dest title) :
      Passes w j i (.assembly x) (.assembly x)
  /-- It finishes the assembly. -/
  | done {x dest : String} {title : Option String} (hj : j = .finish x dest title)
      (hdest : dest ∈ w.stored j) : Passes w j i (.assembly x) (.tree dest)

/-- How a node can come to be held that was not held before. -/
inductive Arrives (w : Workshop) : Job → NodeId → Holder → Prop
  | delivered {c : Command} {y : String} {u : Tree} {i : NodeId}
      (h : (y, u) ∈ w.forest.deliveries c) (hi : u.contains i = true)
      (hnew : i ∈ w.forest.created c) : Arrives w (.command c) i (.tree y)
  | grafted {x candidate graft : String} {i : NodeId}
      (hnew : i ∈ w.forest.created (.replace x candidate graft)) :
      Arrives w (.command (.replace x candidate graft)) i (.tree x)
  | entered {x : String} {e : Event} {i : NodeId} (hnew : i ∈ w.created (.event x e)) :
      Arrives w (.event x e) i (.assembly x)

/-- Every identity is held by one holder at most, and all that are held have been given out. -/
structure Exclusive (w : Workshop) : Prop where
  unique : ∀ i h h', w.Holds h i → w.Holds h' i → h = h'
  used : ∀ i h, w.Holds h i → i < w.forest.next

variable {w : Workshop} {j : Job} {h h' h₀ : Holder} {i : NodeId} {x y : String}

theorem Passes.unique (hp : w.Passes j i h₀ h) (hp' : w.Passes j i h₀ h') : h = h' := by
  cases hp with
  | stays _ hi =>
    cases hp' with
    | stays => rfl
    | cut _ _ hi' => exact absurd hi' hi
  | cut hj _ hi =>
    cases hp' with
    | stays _ hi' => exact absurd hi hi'
    | cut hj' => cases hj.symm.trans hj'; rfl
  | kept hne =>
    cases hp' with
    | kept => rfl
    | done hj => exact absurd hj (hne _ _)
  | done hj =>
    cases hp' with
    | kept hne => exact absurd hj (hne _ _)
    | done hj' => cases hj.symm.trans hj'; rfl

end Workshop

namespace Forest

variable {f : Forest} {c : Command} {i : NodeId} {p q : String × Tree}

/-- No identity is in two of the trees that a command delivers. -/
theorem eq_of_mem_deliveries (hf : f.Sound) (hp : p ∈ f.deliveries c) (hq : q ∈ f.deliveries c)
    (hpi : p.2.contains i = true) (hqi : q.2.contains i = true) : p = q := by
  obtain ⟨k, hk⟩ := exists_mints hf c
  rcases hk.delivered with hnew | ⟨x, candidate, y, piece, -, hone, -⟩
  · have hnd := List.Nodup.sublist hnew (NodeId.nodup_block f.next k)
    have hsymm : Std.Symm (Function.onFun List.Disjoint fun p : String × Tree => p.2.nodeIds) :=
      ⟨fun _ _ h _ hq hp => h hp hq⟩
    by_contra hne
    exact (List.nodup_flatMap.mp hnd).2.forall hp hq hne (Tree.contains_iff_mem_nodeIds.mp hpi)
      (Tree.contains_iff_mem_nodeIds.mp hqi)
  · rw [hone, List.mem_singleton] at hp hq
    exact hp.trans hq.symm

end Forest

namespace Workshop

variable {w : Workshop} {j : Job} {h h' h₀ : Holder} {i : NodeId} {x y : String}

theorem Arrives.mem_created (ha : w.Arrives j i h) : i ∈ w.created j := by
  cases ha with
  | delivered _ _ hnew => exact hnew
  | grafted hnew => exact hnew
  | entered hnew => exact hnew

theorem Arrives.unique (hw : w.Sound) (ha : w.Arrives j i h) (ha' : w.Arrives j i h') : h = h' := by
  cases ha with
  | delivered hd hi =>
    cases ha' with
    | delivered hd' hi' =>
      have heq := Forest.eq_of_mem_deliveries hw.forest hd hd' hi hi'
      exact congrArg (fun p => Holder.tree p.1) heq
    | grafted => cases hd
  | grafted =>
    cases ha' with
    | delivered hd => cases hd
    | grafted => rfl
  | entered => cases ha'; rfl

/-! ### One job -/

/-- A job that is no command takes nothing out of a tree. -/
theorem not_excises (hj : ∀ c, j ≠ .command c) : ¬ w.Excises j x i := fun ⟨c, hc, _⟩ => hj c hc

theorem holds_command (hw : w.Sound) {c : Command} (hh : (w.step (.command c)).Holds h i) :
    (∃ h₀, w.Holds h₀ i ∧ w.Passes (.command c) i h₀ h) ∨ w.Arrives (.command c) i h := by
  cases h with
  | assembly x => exact Or.inl ⟨.assembly x, hh, .kept (by simp)⟩
  | tree y =>
    obtain ⟨u, hu, hi⟩ := hh
    have hout := Forest.outcome_step hw.forest c y
    rw [show (w.forest.step c).forest.tree? y = some u from hu] at hout
    cases hout with
    | delivered hd =>
      obtain ⟨k, hk⟩ := Forest.exists_mints hw.forest c
      -- what is delivered is new, or has been cut out
      rcases hk.delivered with hnew | ⟨x, candidate, z, piece, rfl, hone, hpiece⟩
      · refine Or.inr (.delivered hd hi ?_)
        rw [hk.created_eq]
        exact hnew.subset (List.mem_flatMap.mpr ⟨_, hd, Tree.contains_iff_mem_nodeIds.mp hi⟩)
      · rw [hone, List.mem_singleton] at hd
        cases hd
        have hcut := (hpiece i).mp hi
        refine Or.inl ⟨.tree x, hcut.exists_tree hw.forest, .cut rfl ?_ ⟨_, rfl, hcut⟩⟩
        show y ∈ w.forest.stored _
        rw [Forest.stored, hone]
        exact List.mem_singleton_self y
    | altered hy ht halters =>
      obtain ⟨removed, new, hr, hcut, hnew⟩ := halters.revises hw.forest ht
      -- a node of the revised tree has stayed in it, or has come with a graft
      rcases hr.contains_iff.mp hi with ⟨hlive, hout⟩ | hi
      · refine Or.inl ⟨.tree y, ⟨_, ht, hlive⟩, .stays hy ?_⟩
        rintro ⟨c, hc, he⟩
        cases hc
        exact hout ((hcut i).mpr he)
      · obtain ⟨hi, candidate, graft, rfl⟩ := hnew i hi
        exact Or.inr (.grafted hi)

theorem holds_start {name : String} (hh : (w.step (.start name)).Holds h i) :
    ∃ h₀, w.Holds h₀ i ∧ w.Passes (.start name) i h₀ h := by
  cases h with
  | tree y => exact ⟨.tree y, hh, .stays List.not_mem_nil (not_excises (by simp))⟩
  | assembly y =>
    obtain ⟨a, ha, hi⟩ := hh
    have hget := OrderedMap.get?_insert w.assemblies name y (.start w.forest.next)
    rw [show (w.assemblies.insert name _).get? y = some a from ha] at hget
    split at hget
    · -- an assembly that has just been started has no nodes
      obtain rfl := Option.some.inj hget
      cases hi
    · exact ⟨.assembly y, ⟨a, hget.symm, hi⟩, .kept (by simp)⟩

/-- What an assembly has registered after an event, if the event is given to it now. -/
theorem keys_event (hw : w.Exclusive) {name : String} {a : Assembly}
    (ha : w.assemblies.get? name = some a) (e : Event) :
    ({ a with next := w.forest.next }.apply e).2.nodes.keys
      = a.nodes.keys ++ w.forest.next.block (Event.entries [e]).length := by
  refine Assembly.keys_apply (a := { a with next := w.forest.next }) ?_ e
  intro hmem
  have hlt := hw.used w.forest.next (.assembly name) ⟨a, ha, hmem⟩
  exact NodeId.not_lt_of_le (NodeId.le_refl _) hlt

/-- An event creates the node that it enters. -/
theorem created_event (hw : w.Exclusive) {name : String} {a : Assembly}
    (ha : w.assemblies.get? name = some a) (e : Event) :
    w.created (.event name e) = w.forest.next.block (Event.entries [e]).length := by
  have hstep : (w.step (.event name e)).assemblies.get? name
      = some ({ a with next := w.forest.next }.apply e).2 := by
    rw [step, ha]
    exact (OrderedMap.get?_insert w.assemblies name name _).trans (if_pos rfl)
  rw [created, hstep]
  show List.filter _ ({ a with next := w.forest.next }.apply e).2.nodes.keys = _
  rw [keys_event hw ha]
  exact NodeId.filter_append_block (fun i hi => hw.used i (.assembly name) ⟨a, ha, hi⟩) _

theorem holds_event (hw : w.Exclusive) {name : String} {e : Event}
    (hh : (w.step (.event name e)).Holds h i) :
    (∃ h₀, w.Holds h₀ i ∧ w.Passes (.event name e) i h₀ h) ∨ w.Arrives (.event name e) i h := by
  -- where the event changes nothing, the node has been left in its place
  have left : ∀ {h}, w.Holds h i → ∃ h₀, w.Holds h₀ i ∧ w.Passes (.event name e) i h₀ h := by
    intro h hh
    cases h with
    | tree y => exact ⟨.tree y, hh, .stays List.not_mem_nil (not_excises (by simp))⟩
    | assembly y => exact ⟨.assembly y, hh, .kept (by simp)⟩
  rw [step] at hh
  cases ha : w.assemblies.get? name with
  | none =>
    rw [ha] at hh
    exact Or.inl (left hh)
  | some a =>
    rw [ha] at hh
    cases h with
    | tree y => exact Or.inl (left (h := .tree y) hh)
    | assembly y =>
      obtain ⟨b, hb, hi⟩ := hh
      have hget := OrderedMap.get?_insert w.assemblies name y
        ({ a with next := w.forest.next }.apply e).2
      rw [show (w.assemblies.insert name _).get? y = some b from hb] at hget
      split at hget
      · rename_i hy
        subst hy
        obtain rfl := Option.some.inj hget
        rw [keys_event hw ha, List.mem_append] at hi
        rcases hi with hi | hi
        · exact Or.inl (left (h := .assembly y) ⟨a, ha, hi⟩)
        · exact Or.inr (.entered (created_event hw ha e ▸ hi))
      · exact Or.inl (left (h := .assembly y) ⟨b, hget.symm, hi⟩)

/-- What is left after an assembly has been finished. -/
theorem step_finish {name : String} {a : Assembly} (ha : w.assemblies.get? name = some a)
    (dest : String) (title : Option String) :
    (w.step (.finish name dest title)).assemblies = w.assemblies.erase name ∧
    (w.step (.finish name dest title)).forest.next = w.forest.next ∧
    ∀ y, (w.step (.finish name dest title)).forest.tree? y =
      match w.finished name title with
      | some t => if y = dest then some t else w.forest.tree? y
      | none => w.forest.tree? y := by
  rw [step, finished, ha, Option.bind_some]
  show (w.finish name a dest title).assemblies = _ ∧ (w.finish name a dest title).forest.next = _ ∧
    ∀ y, (w.finish name a dest title).forest.tree? y = _
  rw [Workshop.finish]
  cases hf : a.finish with
  | error e => exact ⟨rfl, rfl, fun y => rfl⟩
  | ok t => exact ⟨rfl, rfl, fun y => w.forest.tree?_store dest y _⟩

/-- A finished tree has the nodes that were entered. -/
theorem exists_of_finished {name : String} {title : Option String} {t : Tree}
    (ht : w.finished name title = some t) :
    ∃ a, w.assemblies.get? name = some a ∧ t.nodeIds = a.nodes.keys := by
  obtain ⟨a, ha, ht⟩ := Option.bind_eq_some_iff.mp ht
  obtain ⟨u, hu, rfl⟩ := Option.map_eq_some_iff.mp ht
  refine ⟨a, ha, ?_⟩
  cases hf : a.finish with
  | error e => rw [hf] at hu; cases hu
  | ok v =>
    rw [hf] at hu
    obtain rfl := Option.some.inj hu
    obtain ⟨-, -, rfl⟩ := Assembly.finish_eq_ok_iff.mp hf
    exact Forest.nodeIds_titled _ title

theorem holds_finish {name dest : String} {title : Option String}
    (hh : (w.step (.finish name dest title)).Holds h i) :
    ∃ h₀, w.Holds h₀ i ∧ w.Passes (.finish name dest title) i h₀ h := by
  cases ha : w.assemblies.get? name with
  | none =>
    have hstored : w.stored (.finish name dest title) = [] := by rw [stored, finished, ha]; rfl
    rw [step, ha] at hh
    refine ⟨h, hh, ?_⟩
    cases h with
    | tree y => exact .stays (hstored ▸ List.not_mem_nil) (not_excises (by simp))
    | assembly y =>
      obtain ⟨b, hb, -⟩ := hh
      refine .kept fun d t heq => ?_
      cases heq
      cases ha.symm.trans hb
  | some a =>
    obtain ⟨hassemblies, -, htrees⟩ := step_finish ha dest title
    cases h with
    | tree y =>
      obtain ⟨u, hu, hi⟩ := hh
      rw [htrees y] at hu
      cases hf : w.finished name title with
      | none =>
        have hstored : w.stored (.finish name dest title) = [] := by rw [stored, hf]; rfl
        rw [hf] at hu
        exact ⟨.tree y, ⟨u, hu, hi⟩, .stays (hstored ▸ List.not_mem_nil) (not_excises (by simp))⟩
      | some t =>
        have hstored : w.stored (.finish name dest title) = [dest] := by rw [stored, hf]; rfl
        rw [hf] at hu
        dsimp only at hu
        split at hu
        · -- the tree is the one that has just been finished
          rename_i hy
          subst hy
          obtain rfl := Option.some.inj hu
          obtain ⟨b, hb, hids⟩ := exists_of_finished hf
          refine ⟨.assembly name, ⟨b, hb, hids ▸ Tree.contains_iff_mem_nodeIds.mp hi⟩, .done rfl ?_⟩
          exact hstored ▸ List.mem_singleton_self _
        · rename_i hy
          refine ⟨.tree y, ⟨u, hu, hi⟩, .stays ?_ (not_excises (by simp))⟩
          exact hstored ▸ (List.mem_singleton.not.mpr hy)
    | assembly y =>
      obtain ⟨b, hb, hi⟩ := hh
      rw [hassemblies, OrderedMap.get?_erase] at hb
      split at hb
      · cases hb
      · rename_i hy
        refine ⟨.assembly y, ⟨b, hb, hi⟩, .kept fun d t heq => ?_⟩
        cases heq
        exact hy rfl

/-- **Where a node is held after a job**, it was held before and has been passed on, or it has just
been created. -/
theorem holds_step (hw : w.Sound) (hx : w.Exclusive) (hh : (w.step j).Holds h i) :
    (∃ h₀, w.Holds h₀ i ∧ w.Passes j i h₀ h) ∨ w.Arrives j i h := by
  cases j with
  | command c => exact holds_command hw hh
  | start name => exact Or.inl (holds_start hh)
  | event name e => exact holds_event hx hh
  | finish name dest title => exact Or.inl (holds_finish hh)

/-- **The nodes that a job creates** get the identities that are next at the time. -/
theorem exists_created (hw : w.Sound) (hx : w.Exclusive) (j : Job) :
    ∃ k, w.created j = w.forest.next.block k ∧ (w.step j).forest.next = w.forest.next.shift k := by
  cases j with
  | command c =>
    obtain ⟨k, hk⟩ := Forest.exists_mints hw.forest c
    exact ⟨k, hk.created_eq, hk.next_eq⟩
  | start name => exact ⟨0, rfl, rfl⟩
  | event name e =>
    cases ha : w.assemblies.get? name with
    | none =>
      refine ⟨0, ?_, ?_⟩
      · rw [created, step, ha]
        show (w.assemblies.get? name).elim _ _ = _
        rw [ha]; rfl
      · rw [step, ha]; rfl
    | some a =>
      refine ⟨_, created_event hx ha e, ?_⟩
      rw [step, ha]
      exact Assembly.next_apply { a with next := w.forest.next } e
  | finish name dest title =>
    refine ⟨0, rfl, ?_⟩
    cases ha : w.assemblies.get? name with
    | none => rw [step, ha]; rfl
    | some a => exact (step_finish ha dest title).2.1

/-- No identity arrives that has been given out before. -/
theorem not_arrives_of_lt (hw : w.Sound) (hx : w.Exclusive) (hi : i < w.forest.next) :
    ¬ w.Arrives j i h := by
  intro ha
  obtain ⟨k, hcreated, -⟩ := exists_created hw hx j
  exact absurd (hcreated ▸ ha.mem_created) (NodeId.notMem_block hi k)

/-- **Every job keeps identities exclusive.** -/
theorem Exclusive.step (hx : w.Exclusive) (hw : w.Sound) (j : Job) : (w.step j).Exclusive := by
  have old : ∀ {h h' i}, w.Holds h i → ¬ w.Arrives j i h' := fun hh =>
    not_arrives_of_lt hw hx (hx.used _ _ hh)
  constructor
  · -- an identity is passed on to one holder, or arrives at one, but never both
    intro i h h' hh hh'
    rcases holds_step hw hx hh with ⟨h₀, h0, hp⟩ | ha
    · rcases holds_step hw hx hh' with ⟨h₁, h1, hp'⟩ | ha'
      · obtain rfl := hx.unique i h₀ h₁ h0 h1
        exact hp.unique hp'
      · exact absurd ha' (old h0)
    · rcases holds_step hw hx hh' with ⟨h₁, h1, -⟩ | ha'
      · exact absurd ha (old h1)
      · exact ha.unique hw ha'
  · intro i h hh
    obtain ⟨k, hcreated, hnext⟩ := exists_created hw hx j
    rw [hnext]
    rcases holds_step hw hx hh with ⟨h₀, h0, -⟩ | ha
    · exact NodeId.lt_of_lt_of_le (hx.used i h₀ h0) (w.forest.next.le_shift k)
    · have hmem := ha.mem_created
      rw [hcreated, NodeId.mem_block] at hmem
      exact hmem.2

/-! ### A tree under its name -/

theorem tree?_step_of_not_command (hj : ∀ c, j ≠ .command c) (hx : x ∉ w.stored j) :
    (w.step j).forest.tree? x = w.forest.tree? x := by
  cases j with
  | command c => exact absurd rfl (hj c)
  | start name => rfl
  | event name e =>
    rw [step]
    cases w.assemblies.get? name <;> rfl
  | finish name dest title =>
    cases ha : w.assemblies.get? name with
    | none => rw [step, ha]; rfl
    | some a =>
      rw [(step_finish ha dest title).2.2 x]
      rw [stored] at hx
      cases hf : w.finished name title with
      | none => rfl
      | some t =>
        rw [hf] at hx
        exact if_neg (List.mem_singleton.not.mp hx)

/-- **A job revises every tree** that it does not store another tree in the place of. -/
theorem exists_revises_step (hw : w.Sound) (hx : x ∉ w.stored j) {t : Tree}
    (ht : w.forest.tree? x = some t) :
    ∃ u removed new, (w.step j).forest.tree? x = some u ∧ t.Revises removed new u ∧
      (∀ i, removed.contains i = true ↔ w.Excises j x i) ∧ ∀ i ∈ new, i ∈ w.created j := by
  by_cases hj : ∃ c, j = .command c
  · obtain ⟨c, rfl⟩ := hj
    have hout := Forest.outcome_step hw.forest c x
    generalize hfound : (w.forest.step c).forest.tree? x = found at hout
    cases hout with
    | delivered hd => exact absurd (List.mem_map_of_mem hd) hx
    | absent _ hnone => cases hnone.symm.trans ht
    | altered _ ht' halters =>
      obtain rfl := Option.some.inj (ht'.symm.trans ht)
      obtain ⟨removed, new, hr, hcut, hnew⟩ := halters.revises hw.forest ht
      refine ⟨_, removed, new, hfound, hr, fun i => (hcut i).trans ?_, fun i hi => (hnew i hi).1⟩
      exact ⟨fun he => ⟨c, rfl, he⟩, fun ⟨_, hc, he⟩ => by cases hc; exact he⟩
  · have hj : ∀ c, j ≠ .command c := fun c h => hj ⟨c, h⟩
    refine ⟨t, .empty, [], (tree?_step_of_not_command hj hx).trans ht,
      Tree.revises_of_nodes_eq rfl, fun i => ?_, List.forall_mem_nil _⟩
    exact iff_of_false (Tree.not_contains_empty i) (not_excises hj)

/-- A tree keeps the nodes that are not taken out of it, and gets back none that it does not have. -/
theorem holds_tree_step_iff (hw : w.Sound) (hx : w.Exclusive) (hj : x ∉ w.stored j)
    (hi : i < w.forest.next) :
    (w.step j).Holds (.tree x) i ↔ w.Holds (.tree x) i ∧ ¬ w.Excises j x i := by
  constructor
  · intro hh
    rcases holds_step hw hx hh with ⟨h₀, h0, hp⟩ | ha
    · cases hp with
      | stays _ hout => exact ⟨h0, hout⟩
      | cut _ hy => exact absurd hy hj
      | done _ hdest => exact absurd hdest hj
    · exact absurd ha (not_arrives_of_lt hw hx hi)
  · rintro ⟨⟨t, ht, hlive⟩, hout⟩
    obtain ⟨u, removed, new, hu, hr, hcut, -⟩ := exists_revises_step hw hj ht
    exact ⟨u, hu, hr.contains_iff.mpr (Or.inl ⟨hlive, fun h => hout ((hcut i).mp h)⟩)⟩

end Workshop

end SyntaxTree
