/-
SyntaxTree/Proofs/Outline.lean

The outline is the pre-order with true depths, as far as it is printed.  The loop that prints the
outline keeps a stack of its own, on which every node stands with a depth that was counted on the
way down; the loop of the pre-order keeps the bare nodes.  As long as the depths on the stack are
those of the nodes (`Deep`), the two loops go the same way, step by step, and every line has the
indentation of its node (`Sound.outlineWalk_eq`).  The stack begins with the root at depth zero,
and a step keeps the depths true: the children of a node are one level deeper than the node.

The loop breaks down at the first node that is too deep to be indented.  So a tree has a text of
its outline if and only if none of its nodes is deeper than 32767 levels (`run_outlines`), although
nothing else bounds the depth of a tree (`exists_deep`).
-/
import Mathlib.Data.List.TakeWhile
import SyntaxTree.Proofs.Blame
import SyntaxTree.Proofs.Event.Tally
import SyntaxTree.Proofs.Interval
import SyntaxTree.Proofs.Substitution
import SyntaxTree.Tree.Outline

namespace SyntaxTree

open Branch Event

namespace Event

/-- The events of `k` nodes, each of which but the first is the only child of the one before. -/
def nested (k : Nat) : List Event := .replicate k (.enter "a" "") ++ .replicate k .exit

theorem height_replicate_enter (k : Nat) :
    height (List.replicate k (.enter "a" "")) = k := by
  induction k with
  | zero => rfl
  | succ k ih => rw [List.replicate_succ, height_cons, ih, rise_enter]; omega

theorem upright_replicate_enter (k : Nat) : Upright (List.replicate k (.enter "a" "")) := by
  intro p hp hne _
  rw [(List.prefix_replicate_iff.mp hp).2, height_replicate_enter]
  exact Int.natCast_pos.mpr (List.length_pos_iff.mpr hne)

end Event

/-! ### Breaking down -/

namespace Outline

variable {e : Node × Nat} {es : List (Node × Nat)}

/-- The outline in which some entries are due: it ends before the first that does not fit. -/
def ofEntries (es : List (Node × Nat)) : Outline := ⟨es.takeWhile fits, es.all fits⟩

theorem ofEntries_cons_of_fits (h : fits e = true) :
    ofEntries (e :: es) = (ofEntries es).after e := by
  rw [ofEntries, List.takeWhile_cons_of_pos h, List.all_cons, h, Bool.true_and]
  rfl

theorem ofEntries_cons_of_not_fits (h : fits e = false) : ofEntries (e :: es) = ⟨[], false⟩ := by
  rw [ofEntries, List.takeWhile_cons_of_neg (by simp [h]), List.all_cons, h, Bool.false_and]

/-- The last depth at which a node can be indented is 32767. -/
theorem fits_iff {n : Node} {depth : Nat} : fits (n, depth) = true ↔ depth ≤ 32767 := by
  rw [fits, decide_eq_true_eq, maxIndentation]
  omega

end Outline

namespace Tree

/-! ### The stack of the outline -/

/-- The stack on which the outline begins. -/
def outlineStart (t : Tree) : List (NodeId × Nat) := t.root.toList.map (·, 0)

/-- The stack of the outline after one more step. -/
def outlineStep (t : Tree) : List (NodeId × Nat) → List (NodeId × Nat)
  | [] => []
  | (i, depth) :: stack =>
    match t.node? i with
    | none => stack
    | some n => n.children.map (·, depth + 1) ++ stack

/-- All nodes on a stack are live and stand there with their depths. -/
def Deep (t : Tree) (stack : List (NodeId × Nat)) : Prop :=
  ∀ e ∈ stack, t.contains e.1 = true ∧ e.2 = t.depthOf e.1

/-- A node as an entry of an outline, with its true depth. -/
def outlineEntry (t : Tree) (n : Node) : Node × Nat := (n, t.depthOf n.id)

variable {t : Tree} {bs : List Branch} {next p i : NodeId} {n : Node} {depth : Nat}
  {stack : List (NodeId × Nat)}

theorem outlineStep_cons (hn : t.node? i = some n) :
    t.outlineStep ((i, depth) :: stack) = n.children.map (·, depth + 1) ++ stack := by
  rw [outlineStep, hn]

/-- The loop prints the line of the node on top and goes on with the next stack, unless the node
is too deep. -/
theorem outlineWalk_cons (hn : t.node? i = some n) (k : Nat) :
    t.outlineWalk (k + 1) ((i, depth) :: stack) = if Outline.fits (n, depth) then
      (t.outlineWalk k (t.outlineStep ((i, depth) :: stack))).map (.after (n, depth))
    else some ⟨[], false⟩ := by
  rw [outlineWalk, outlineStep_cons hn, hn]

theorem Deep.exists_node (h : t.Deep ((i, depth) :: stack)) :
    ∃ n, t.node? i = some n ∧ depth = t.depthOf i := by
  obtain ⟨hi, hdepth⟩ : t.contains i = true ∧ depth = t.depthOf i := h _ List.mem_cons_self
  obtain ⟨n, hn⟩ := Option.isSome_iff_exists.mp hi
  exact ⟨n, hn, hdepth⟩

theorem Spells.preOrderNodes_eq_grove (h : t.Spells bs) : t.preOrderNodes = grove none bs := by
  obtain rfl | ⟨b, rfl⟩ := h.eq_nil_or_singleton
  · rw [preOrderNodes, h.preOrder_eq, grove_nil]
    rfl
  · rw [h.preOrderNodes_eq, grove_singleton]

namespace Sound

theorem deep_start (h : t.Sound next) : t.Deep t.outlineStart := by
  obtain ⟨bs, hbs⟩ := h.spells
  intro e he
  obtain ⟨r, hr, rfl⟩ := List.mem_map.mp he
  obtain ⟨b, rfl, rfl⟩ := hbs.eq_singleton (Option.mem_toList.mp hr)
  exact ⟨hbs.atTop.contains_id, hbs.atTop.depthOf_id.symm⟩

theorem depthOf_child (h : t.Sound next) (hi : t.contains i = true) (hchild : t.Child p i) :
    t.depthOf i = t.depthOf p + 1 := by
  obtain ⟨c, s, hs, rfl⟩ := h.exists_place hi
  exact hs.depthOf_child hchild

/-- **A step keeps the depths on the stack true.** -/
theorem deep_step (h : t.Sound next) (hdeep : t.Deep stack) : t.Deep (t.outlineStep stack) := by
  match stack, hdeep with
  | [], hdeep => exact hdeep
  | (i, depth) :: stack, hdeep =>
    obtain ⟨n, hn, hdepth⟩ := hdeep.exists_node
    rw [outlineStep_cons hn]
    intro e he
    rcases List.mem_append.mp he with he | he
    · -- a child of the node that was on top
      obtain ⟨j, hj, rfl⟩ := List.mem_map.mp he
      have hchild : t.Child i j := ⟨n, hn, hj⟩
      have hlive : t.contains j = true :=
        (h.contains_iff (.single hchild)).mp (Option.isSome_of_eq_some hn)
      exact ⟨hlive, by rw [h.depthOf_child hlive hchild, hdepth]⟩
    · exact hdeep e (List.mem_cons_of_mem _ he)

/-- The depths on the stack are true throughout. -/
theorem deep_iterate (h : t.Sound next) (k : Nat) : t.Deep (t.outlineStep^[k] t.outlineStart) := by
  induction k with
  | zero => exact h.deep_start
  | succ k ih =>
    rw [Function.iterate_succ_apply']
    exact h.deep_step ih

/-! ### Two loops in step -/

/-- **The loop of the outline and that of the pre-order** go the same way, if the depths on the
stack are true, until the outline breaks down or both come to their end. -/
theorem outlineWalk_eq (h : t.Sound next) (hdeep : t.Deep stack) {k : Nat} {is : List NodeId}
    (hwalk : t.preWalk k (stack.map Prod.fst) = some is) :
    t.outlineWalk k stack = some (.ofEntries ((is.filterMap t.node?).map t.outlineEntry)) := by
  induction k generalizing stack is with
  | zero =>
    match stack, hwalk with
    | [], hwalk =>
      obtain rfl := Option.some.inj ((preWalk.eq_1 t 0).symm.trans hwalk)
      rfl
  | succ k ih =>
    match stack, hdeep, hwalk with
    | [], _, hwalk =>
      obtain rfl := Option.some.inj ((preWalk.eq_1 t (k + 1)).symm.trans hwalk)
      rfl
    | (i, depth) :: stack, hdeep, hwalk =>
      obtain ⟨n, hn, rfl⟩ := hdeep.exists_node
      have hid : n.id = i := h.spells.elim fun bs hbs => (hbs.node?_eq_some_iff.mp hn).2
      have hrest : (t.outlineStep ((i, t.depthOf i) :: stack)).map Prod.fst
          = n.children ++ stack.map Prod.fst := by
        rw [outlineStep_cons hn, List.map_append, List.map_map]
        exact congrArg (· ++ _) (List.map_id _)
      rw [List.map_cons, preWalk, hn] at hwalk
      obtain ⟨js, hjs, rfl⟩ := Option.map_eq_some_iff.mp hwalk
      have hentry : t.outlineEntry n = (n, t.depthOf i) := by rw [outlineEntry, hid]
      rw [outlineWalk_cons hn, List.filterMap_cons_some hn, List.map_cons, hentry]
      cases hfits : Outline.fits (n, t.depthOf i) with
      | false => rw [Outline.ofEntries_cons_of_not_fits hfits]; rfl
      | true =>
        rw [Outline.ofEntries_cons_of_fits hfits, ih (h.deep_step hdeep) (hrest ▸ hjs)]
        rfl

/-- **The outline has one entry for each node**, in pre-order, up to the first that is too deep, and
its loop comes to an end. -/
theorem outlineWalk_start (h : t.Sound next) {k : Nat} (hk : t.size < k) :
    t.outlineWalk k t.outlineStart = some (.ofEntries (t.preOrderNodes.map t.outlineEntry)) := by
  refine h.outlineWalk_eq h.deep_start ?_
  rw [outlineStart, List.map_map]
  cases hr : t.root with
  | none => rw [preOrder, hr]; exact preWalk.eq_1 t k
  | some r => rw [preOrder, hr]; exact h.preWalk_eq hk

theorem outline_eq (h : t.Sound next) :
    t.outline = .ofEntries (t.preOrderNodes.map t.outlineEntry) := by
  rw [outline, ← outlineStart, h.outlineWalk_start (Nat.lt_succ_self _), Option.getD_some]

/-- The nodes in pre-order are the live nodes, each once. -/
theorem perm_preOrderNodes (h : t.Sound next) : t.preOrderNodes.Perm t.nodeList := by
  obtain ⟨bs, hbs⟩ := h.spells
  rw [hbs.preOrderNodes_eq_grove]
  exact hbs.perm.symm

theorem fits_comp_outlineEntry (t : Tree) :
    Outline.fits ∘ t.outlineEntry = fun n => decide (t.depthOf n.id ≤ 32767) :=
  funext fun _ => Bool.eq_iff_iff.mpr (Outline.fits_iff.trans decide_eq_true_iff.symm)

/-- **The outline breaks down** if and only if a node is too deep. -/
theorem complete_outline_iff (h : t.Sound next) :
    t.outline.complete = true ↔ ∀ n ∈ t.nodeList, t.depthOf n.id ≤ 32767 := by
  rw [h.outline_eq, Outline.ofEntries, List.all_map, fits_comp_outlineEntry, List.all_eq_true]
  simp only [h.perm_preOrderNodes.mem_iff, decide_eq_true_eq]

/-- What is printed are the lines of the nodes in pre-order before the first that is too deep. -/
theorem text_outline (h : t.Sound next) : t.outline.text = String.join
    ((t.preOrderNodes.takeWhile fun n => t.depthOf n.id ≤ 32767).map fun n =>
      outlineLine n (t.depthOf n.id)) := by
  rw [h.outline_eq, Outline.text, Outline.ofEntries, List.takeWhile_map, fits_comp_outlineEntry,
    List.map_map]
  rfl

theorem outlineText?_eq_some (h : t.Sound next)
    (hall : ∀ n ∈ t.nodeList, t.depthOf n.id ≤ 32767) : t.outlineText?
      = some (String.join (t.preOrderNodes.map fun n => outlineLine n (t.depthOf n.id))) := by
  rw [outlineText?, if_pos (h.complete_outline_iff.mpr hall), h.text_outline,
    List.takeWhile_eq_self_iff.mpr]
  exact fun n hn => decide_eq_true (hall n (h.perm_preOrderNodes.mem_iff.mp hn))

theorem outlineText?_eq_none (h : t.Sound next) {n : Node} (hn : n ∈ t.nodeList)
    (hdeep : 32767 < t.depthOf n.id) : t.outlineText? = none := by
  rw [outlineText?, if_neg]
  exact fun hall => Nat.not_le.mpr hdeep (h.complete_outline_iff.mp hall n hn)

end Sound

/-! ### Deep trees -/

/-- **Nothing bounds the depth of a tree**: nodes that are entered one inside the other lie at
every depth. -/
theorem exists_deep (k : Nat) (next : NodeId) : ∃ t, (ofEvents (nested (k + 1)) next).1 = .ok t ∧
    ∃ n ∈ t.nodeList, k ≤ t.depthOf n.id := by
  obtain ⟨hupright, hzero⟩ := (upright_replicate_enter (k + 1)).append_exits
    (height_replicate_enter (k + 1))
  obtain ⟨t, ht⟩ := exists_ofEvents_of_upright hupright hzero next
  obtain ⟨bs, hs⟩ := ((sound_ofEvents _ next).2 t ht).spells
  have htour : toursOf bs = nested (k + 1) := hs.tour_eq.symm.trans (retells_ofEvents ht).1.tour_eq
  obtain rfl | ⟨b, rfl⟩ := hs.eq_nil_or_singleton
  · cases htour
  · obtain ⟨n, hn, hdepth⟩ := hs.exists_leaf
    have hpeak : ((k + 1 : Nat) : Int) ≤ b.crown + 1 := by
      rw [← peak_tour, htour, ← height_replicate_enter]
      exact height_le_peak (List.prefix_append _ _)
    exact ⟨t, ht, n, List.mem_of_mem_filter hn, by omega⟩

end Tree

namespace Workshop

open SyntaxTree.Tree

/-- The tree that a run makes from events is a tree of the run. -/
theorem mem_trees_build {es : List Event} {t : Tree} {dest : String}
    (h : (ofEvents es ⟨1⟩).1 = .ok t) : t ∈ (run [.command (.build dest es none)]).trees := by
  refine List.mem_append_right _ (List.mem_append_right _ ?_)
  show t ∈ (Forest.build .bare dest es none).answer.trees
  have hevents : ofEvents es Forest.bare.next = (.ok t, (ofEvents es ⟨1⟩).2) := Prod.ext h rfl
  rw [Forest.build, hevents]
  exact List.mem_singleton_self t

/-- **The outline is the pre-order with true depths**, of every tree of every run that is not too
deep: a line for each node, in pre-order, with two spaces for each of its ancestors, the rule and
the quoted label.  A tree that has a node below level 32767 has no such text; what is printed of it
are the lines of the nodes before the first of these.  The loop comes to its end, and the depths on
its stack are true in every state it goes through. -/
theorem run_outlines (jobs : List Job) {t : Tree} (ht : t ∈ (run jobs).trees) :
    let line (n : Node) : String :=
      .ofList (.replicate (2 * t.depthOf n.id) ' ') ++ n.rule ++ " " ++ Text.quoted n.label ++ "\n"
    ((∀ n ∈ t.nodeList, t.depthOf n.id ≤ 32767) →
      t.outlineText? = some (String.join (t.preOrderNodes.map line))) ∧
    ((∃ n ∈ t.nodeList, 32767 < t.depthOf n.id) → t.outlineText? = none) ∧
    t.outline.text = String.join
      ((t.preOrderNodes.takeWhile fun n => t.depthOf n.id ≤ 32767).map line) ∧
    t.preOrderNodes.map Node.id = t.preOrder ∧ t.preOrderNodes.Perm t.nodeList ∧
    (∀ k, t.size < k → t.outlineWalk k t.outlineStart = some t.outline) ∧
    (∀ k, ∀ e ∈ t.outlineStep^[k] t.outlineStart,
      t.contains e.1 = true ∧ e.2 = (t.ancestors e.1).length) ∧
    (t.isEmpty = true → t.outlineText? = some "") := by
  intro line
  have h := (sound_run jobs).tree ht
  obtain ⟨bs, hbs⟩ := h.spells
  refine ⟨h.outlineText?_eq_some, ?_, h.text_outline, ?_, h.perm_preOrderNodes, ?_,
    h.deep_iterate, ?_⟩
  · rintro ⟨n, hn, hdeep⟩
    exact h.outlineText?_eq_none hn hdeep
  · rw [hbs.preOrderNodes_eq_grove, map_id_grove, hbs.preOrder_eq]
  · intro k hk
    rw [h.outline_eq, h.outlineWalk_start hk]
  · intro hempty
    have hnone : t.nodeList = [] := isEmpty_iff.mp hempty
    have hnodes : t.preOrderNodes = [] := (h.perm_preOrderNodes.trans (.of_eq hnone)).eq_nil
    rw [h.outlineText?_eq_some (by simp [hnone]), hnodes]
    rfl

/-- After fifteen of the errands the sum has a copy of itself in the place of its first number.  In
the outline the copy and what is below it stand in front of the second number, which arrived
before them. -/
theorem outlines_errands : ∃ t, (run (errands.take 15)).forest.tree? "sum" = some t ∧
    t.preOrder ≠ t.nodeIds ∧ t.preOrderNodes.Perm t.nodeList ∧
    (∀ n ∈ t.nodeList, t.depthOf n.id ≤ 32767) ∧ t.outlineText?
      = some "sum \"1+2\"\n  sum \"1+2\"\n    number \"1\"\n    number \"2\"\n  number \"2\"\n" := by
  have hfull : ((run (errands.take 15)).forest.tree? "sum").map (fun t =>
      decide (t.preOrder ≠ t.nodeIds ∧ (∀ n ∈ t.nodeList, t.depthOf n.id ≤ 32767) ∧
        t.preOrderNodes.map (fun n => (t.depthOf n.id, n.rule, n.label)) =
          [(0, "sum", "1+2"), (1, "sum", "1+2"), (2, "number", "1"), (2, "number", "2"),
            (1, "number", "2")])) = some true := by decide
  obtain ⟨t, ht, hfull⟩ := Option.map_eq_some_iff.mp hfull
  obtain ⟨horder, hshallow, hnodes⟩ := of_decide_eq_true hfull
  obtain ⟨houtline, -, -, -, hperm, -⟩ := run_outlines _ (mem_trees_of_tree? ht)
  refine ⟨t, ht, horder, hperm, hshallow, (houtline hshallow).trans ?_⟩
  have hlines : t.preOrderNodes.map (fun n =>
      .ofList (.replicate (2 * t.depthOf n.id) ' ') ++ n.rule ++ " " ++ Text.quoted n.label ++ "\n")
      = (t.preOrderNodes.map fun n => (t.depthOf n.id, n.rule, n.label)).map fun line =>
        .ofList (.replicate (2 * line.1) ' ') ++ line.2.1 ++ " " ++ Text.quoted line.2.2 ++ "\n" := by
    rw [List.map_map]
    rfl
  rw [hlines, hnodes]
  rfl

/-- The tree of 32769 nodes, each inside the one before, has no text of its outline. -/
theorem outline_of_nested : ∃ t, t ∈ (run [.command (.build "t" (nested 32769) none)]).trees ∧
    t.outlineText? = none := by
  obtain ⟨t, ht, n, hn, hdeep⟩ := exists_deep 32768 ⟨1⟩
  have hmem : t ∈ (run [.command (.build "t" (nested 32769) none)]).trees := mem_trees_build ht
  exact ⟨t, hmem, ((sound_run _).tree hmem).outlineText?_eq_none hn hdeep⟩

end Workshop

end SyntaxTree
