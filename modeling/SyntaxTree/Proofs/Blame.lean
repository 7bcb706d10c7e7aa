/-
SyntaxTree/Proofs/Blame.lean

What a refused stream is blamed for.  An assembly meets the three faults at different times: an
exit without an open node refuses the stream at once, a second node at top level is remembered
and reported at the end, and nodes left open show at the end only.  `Faulty es k fault` says
where in a stream a reported fault stands.

The first offending event is the one that nothing can repair.  A stream can be completed as long
as none of its beginnings, short of the whole, is back at height zero (`Upright`): as many
exits as its height says complete it.  So no event can follow once the stream has gone round
a node.

The position that is reported is never before the first offending event.  It is that of the
event itself unless a second node at top level is followed by an unmatched exit, which is
then reported instead (`Faulty.isGreatest_or`).
-/
import Mathlib.Data.Nat.Find
import Mathlib.Order.Bounds.Basic
import SyntaxTree.Proofs.Refusal

namespace SyntaxTree

open Event

namespace Event

variable {es p : List Event}

/-- A fault of a stream, and the number of events in front of it. -/
inductive Faulty (es : List Event) : Nat → StreamFault → Prop
  | unmatched {read rest : List Event} (hes : es = read ++ .exit :: rest) (hread : Balanced read) :
      Faulty es read.length .unmatchedExit
  | second {node rest : List Event} {rule label : String}
      (hes : es = node ++ .enter rule label :: rest) (hnode : OneRooted node)
      (hopen : ∀ p, p <+: es → 0 ≤ height p) : Faulty es node.length .secondRoot
  | unclosed {count : Nat} (hes : Upright es) (hcount : height es = count) (hpos : 0 < count) :
      Faulty es es.length (.unclosed count)

theorem upright_nil : Upright [] := fun _ hp hne => absurd (List.prefix_nil.mp hp) hne

/-- One more event can be read if a node is open, or if it is the first. -/
theorem Upright.concat (h : Upright es) (hpos : es ≠ [] → 0 < height es) (e : Event) :
    Upright (es ++ [e]) := by
  intro p hp hne hlt
  have hp := (List.prefix_concat_iff.mp hp).resolve_left hlt
  rcases eq_or_ne p es with rfl | hshort
  · exact hpos hne
  · exact h p hp hne hshort

theorem OneRooted.ne_nil (h : OneRooted es) : es ≠ [] := by
  obtain ⟨rule, label, inner, rfl⟩ := h.bracketed
  exact List.cons_ne_nil _ _

theorem height_replicate_exit (k : Nat) : height (List.replicate k .exit) = -(k : Int) := by
  induction k with
  | zero => rfl
  | succ k ih => rw [List.replicate_succ, height_cons, ih, rise_exit]; omega

/-- **As many exits as nodes are open** complete an upright stream. -/
theorem Upright.append_exits (h : Upright es) {k : Nat} (hk : height es = k) :
    Upright (es ++ List.replicate k .exit) ∧ height (es ++ List.replicate k .exit) = 0 := by
  have hzero : height (es ++ List.replicate k .exit) = 0 := by
    rw [height_append, height_replicate_exit, hk]
    omega
  refine ⟨fun p hp hne hlt => ?_, hzero⟩
  rcases Shape.prefix_append_cases hp with hp | ⟨q, hq, rfl⟩
  · rcases eq_or_ne p es with rfl | hshort
    · -- if nothing was open, there would be nothing to come
      have hpos : k ≠ 0 := fun h0 => hlt (by simp [h0])
      omega
    · exact h p hp hne hshort
  · obtain ⟨hlength, hexits⟩ := List.prefix_replicate_iff.mp hq
    have hshort : q.length ≠ k := fun e => hlt (by rw [hexits, e])
    rw [height_append, hexits, height_replicate_exit, hk]
    omega

end Event

namespace Tree

variable {es : List Event} {next : NodeId} {k : Nat} {e : TreeError} {fault : StreamFault}

theorem eq_nil_or_oneRooted {t : Tree} (h : (ofEvents es next).1 = .ok t) :
    es = [] ∨ OneRooted es := by
  have htour := (retells_ofEvents h).1.tour_eq
  exact htour ▸ t.tour_eq_nil_or_oneRooted

end Tree

/-- The stream goes round a single node if it is upright and leaves no node open. -/
theorem Event.Upright.oneRooted {es : List Event} (h : Upright es) (hne : es ≠ [])
    (hzero : height es = 0) : OneRooted es := by
  obtain ⟨t, ht⟩ := Tree.exists_ofEvents_of_upright h hzero ⟨0⟩
  exact (Tree.eq_nil_or_oneRooted ht).resolve_left hne

namespace Assembly

variable {a b : Assembly} {es fs : List Event} {e : Event}

/-! ### What an assembly knows -/

/-- What an assembly has noted of the events it has read: how many they are and leave open, and the
first that came after a node at top level had been left. -/
structure Notes (es : List Event) (a : Assembly) : Prop where
  depth_eq : (a.depth : Int) = height es
  position_eq : a.position = es.length
  root_iff : a.root.isSome = true ↔ es ≠ []
  upright : a.overflow = none → Upright es
  second : ∀ k, a.overflow = some k → ∃ node rest rule label,
    es = node ++ .enter rule label :: rest ∧ OneRooted node ∧ k = node.length

theorem notes_start (next : NodeId) : (start next).Notes [] :=
  ⟨rfl, rfl, iff_of_false (by simp [start]) fun h => h rfl, fun _ => upright_nil, nofun⟩

/-- A second node at top level remains noted. -/
theorem Notes.second_concat (h : a.Notes es) (e : Event) {k : Nat} (hk : a.overflow = some k) :
    ∃ node rest rule label,
      es ++ [e] = node ++ .enter rule label :: rest ∧ OneRooted node ∧ k = node.length := by
  obtain ⟨node, rest, rule, label, hes, hnode, hlength⟩ := h.second k hk
  refine ⟨node, rest ++ [e], rule, label, ?_, hnode, hlength⟩
  rw [hes, List.append_assoc, List.cons_append]

theorem Notes.height_pos (h : a.Notes es) (hopened : a.opened ≠ []) : 0 < height es := by
  rw [← h.depth_eq]
  exact Int.natCast_pos.mpr (List.length_pos_iff.mpr hopened)

/-- With no node open after some events, the stream is back at height zero. -/
theorem Notes.height_eq_zero (h : a.Notes es) (hopened : a.opened = []) : height es = 0 := by
  rw [← h.depth_eq, depth, hopened]
  rfl

theorem Notes.enter (h : a.Notes es) (rule label : String) :
    (a.enter rule label).Notes (es ++ [.enter rule label]) := by
  constructor
  case depth_eq =>
    rw [height_append, ← h.depth_eq]
    simp [Assembly.enter, depth]
  case position_eq =>
    rw [List.length_append, ← h.position_eq]
    rfl
  case root_iff => exact iff_of_true (by simp [Assembly.enter]) (by simp)
  case upright =>
    intro ho
    obtain ⟨hfirst, ho⟩ := overflow_enter_eq_none ho
    refine (h.upright ho).concat (fun hne => h.height_pos fun hopened => ?_) _
    rw [hopened, h.root_iff.mpr hne] at hfirst
    cases hfirst
  case second =>
    intro k hk
    have hoverflow : (if a.opened.isEmpty && a.root.isSome then a.overflow.or (some a.position)
        else a.overflow) = some k := hk
    cases ho : a.overflow with
    | some j =>
      rw [ho] at hoverflow
      have hj : some j = some k := by split at hoverflow <;> exact hoverflow
      exact h.second_concat _ (ho.trans hj)
    | none =>
      rw [ho] at hoverflow
      split at hoverflow
      case isFalse => cases hoverflow
      case isTrue hsecond =>
        -- all nodes have been left, and this is the first node after that
        obtain ⟨hopened, hroot⟩ := Bool.and_eq_true_iff.mp hsecond
        have hzero := h.height_eq_zero (List.isEmpty_iff.mp hopened)
        have hnode := (h.upright ho).oneRooted (h.root_iff.mp hroot) hzero
        exact ⟨es, [], rule, label, rfl, hnode, (Option.some.inj hoverflow).symm.trans h.position_eq⟩

theorem Notes.exit (h : a.Notes es) {i : NodeId} {rest : List NodeId} (ho : a.opened = i :: rest) :
    a.exit.2.Notes (es ++ [.exit]) := by
  have hpos := h.height_pos (ho ▸ List.cons_ne_nil i rest)
  have hexit : a.exit.2 = { a with position := a.position + 1, opened := rest } := by
    rw [Assembly.exit, ho]
  rw [hexit]
  constructor
  case depth_eq =>
    have hdepth : (rest.length : Int) + 1 = height es := by
      rw [← h.depth_eq, depth, ho, List.length_cons]
      rfl
    rw [height_append, ← hdepth, height_cons, height_nil, rise_exit]
    show (rest.length : Int) = _
    omega
  case position_eq => rw [List.length_append, ← h.position_eq]; rfl
  case root_iff => exact iff_of_true (h.root_iff.mpr fun hnil => by simp [hnil] at hpos) (by simp)
  case upright => exact fun hnone => (h.upright hnone).concat (fun _ => hpos) _
  case second => exact fun k => h.second_concat .exit

/-- **Every event that is taken in** is noted. -/
theorem Notes.apply (h : a.Notes es) (hb : a.apply e = (.ok (), b)) : b.Notes (es ++ [e]) := by
  cases e with
  | enter rule label =>
    obtain rfl : a.enter rule label = b := congrArg Prod.snd hb
    exact h.enter rule label
  | exit =>
    obtain rfl : a.exit.2 = b := congrArg Prod.snd hb
    cases ho : a.opened with
    | nil =>
      -- with no node open, the exit is refused
      have hrefused : a.exit.1 = .ok () := congrArg Prod.fst hb
      rw [Assembly.exit, ho] at hrefused
      cases hrefused
    | cons i rest => exact h.exit ho

theorem Notes.applyAll (h : a.Notes es) (hb : a.applyAll fs = (.ok (), b)) : b.Notes (es ++ fs) :=
  applyAll_induction (fun h => h.apply) h hb

end Assembly

namespace Tree

variable {es p : List Event} {next : NodeId} {k position : Nat} {e : TreeError}
  {fault : StreamFault}

/-- **What a refused stream is blamed for** is a fault of it, in its place. -/
theorem exists_faulty_of_ofEvents_error (h : (ofEvents es next).1 = .error e) :
    ∃ position fault, e = .malformedStream position fault ∧ Faulty es position fault := by
  have hstart : ((Assembly.start next).depth : Int) = 0 := rfl
  cases (Assembly.start next).takes es with
  | @all b hall hread =>
    have hnotes := (Assembly.notes_start next).applyAll hall
    rw [List.nil_append] at hnotes
    have hfinish : b.finish = .error e := by rwa [ofEvents, hall] at h
    rw [Assembly.finish] at hfinish
    split at hfinish
    · next k ho =>
      -- a second node was entered at top level
      cases hfinish
      obtain ⟨node, rest, rule, label, hes, hnode, rfl⟩ := hnotes.second k ho
      have hopen := hread.nonneg
      simp only [hstart, Int.zero_add] at hopen
      exact ⟨_, _, rfl, .second hes hnode hopen⟩
    · next ho =>
      split at hfinish
      · cases hfinish
      · next hopened =>
        -- nodes were left open
        cases hfinish
        rw [List.isEmpty_iff] at hopened
        rw [hnotes.position_eq]
        exact ⟨_, _, rfl, .unclosed (hnotes.upright ho) hnotes.depth_eq.symm
          (List.length_pos_iff.mpr hopened)⟩
  | @upTo read rest b hes hread hclosed hfails =>
    obtain ⟨hopen, hdepth, hposition, -⟩ := hread
    simp only [hstart, Int.zero_add] at hopen hdepth
    have hlength : b.position = read.length := hposition.trans (Nat.zero_add _)
    rw [ofEvents, hfails] at h
    cases h
    rw [hlength]
    exact ⟨_, _, rfl, .unmatched hes ⟨by omega, hopen⟩⟩

/-! ### What can be completed -/

/-- The numbers of events after which a stream can still be continued to one that is accepted. -/
def completable (es : List Event) (next : NodeId) : Set Nat :=
  {k | k ≤ es.length ∧ ∃ rest t, (ofEvents (es.take k ++ rest) next).1 = .ok t}

/-- **A beginning can be completed** if it is upright and has a height. -/
theorem exists_completion_iff : (∃ rest t, (ofEvents (p ++ rest) next).1 = .ok t) ↔
    Upright p ∧ 0 ≤ height p := by
  constructor
  · rintro ⟨rest, t, h⟩
    have hp : p <+: p ++ rest := List.prefix_append p rest
    rcases eq_nil_or_oneRooted h with hnil | hone
    · rw [(List.append_eq_nil_iff.mp hnil).1]
      exact ⟨upright_nil, Int.le_refl 0⟩
    · refine ⟨fun q hq hne hlt => hone.height_pos (hq.trans hp) hne fun e => hlt ?_,
        hone.nonneg p hp⟩
      exact hq.eq_of_length_le (e ▸ hp.length_le)
  · rintro ⟨hp, hheight⟩
    obtain ⟨hupright, hzero⟩ := hp.append_exits (Int.toNat_of_nonneg hheight).symm
    exact ⟨_, exists_ofEvents_of_upright hupright hzero next⟩

theorem mem_completable_iff : k ∈ completable es next ↔
    k ≤ es.length ∧ Upright (es.take k) ∧ 0 ≤ height (es.take k) :=
  and_congr_right fun _ => exists_completion_iff

/-- A stream that has gone round a node cannot be continued. -/
theorem isGreatest_of_oneRooted (hk : k ≤ es.length) (h : OneRooted (es.take k)) :
    IsGreatest (completable es next) k := by
  refine ⟨mem_completable_iff.mpr ⟨hk, h.upright, Int.le_of_eq h.height_eq.symm⟩, fun m hm => ?_⟩
  obtain ⟨hm, hupright, -⟩ := mem_completable_iff.mp hm
  by_contra hlt
  have hpos := hupright (es.take k) (List.take_prefix_take_left (by omega)) h.ne_nil fun e => by
    have hlength := congrArg List.length e
    rw [List.length_take_of_le hk, List.length_take_of_le hm] at hlength
    omega
  rw [h.height_eq] at hpos
  exact Int.lt_irrefl 0 hpos

end Tree

namespace Event

variable {es : List Event} {next : NodeId} {k position : Nat} {fault : StreamFault}

/-- A stream that is back at height zero has gone round a node by then. -/
theorem Balanced.exists_oneRooted_take (h : Balanced es) (hne : es ≠ []) :
    ∃ k ≤ es.length, OneRooted (es.take k) := by
  have hback : ∃ k, 0 < k ∧ k ≤ es.length ∧ height (es.take k) = 0 :=
    ⟨es.length, List.length_pos_iff.mpr hne, Nat.le_refl _, by rw [List.take_length, h.height_eq]⟩
  obtain ⟨hpos, hle, hzero⟩ := Nat.find_spec hback
  have hlength : (es.take (Nat.find hback)).length = Nat.find hback := List.length_take_of_le hle
  refine ⟨Nat.find hback, hle, Upright.oneRooted (fun p hp hnil hlt => ?_) ?_ hzero⟩
  · -- the first time it is back at height zero is the end of the beginning
    have hes := hp.trans (List.take_prefix _ es)
    have hshort : p.length < Nat.find hback := by
      refine Nat.lt_of_le_of_ne (hlength ▸ hp.length_le) fun e => hlt ?_
      exact hp.eq_of_length (e.trans hlength.symm)
    have hnot := Nat.find_min hback hshort
    have hheight : height p ≠ 0 := fun h0 =>
      hnot ⟨List.length_pos_iff.mpr hnil, hes.length_le, by rw [← List.prefix_iff_eq_take.mp hes, h0]⟩
    have hnonneg := h.nonneg p hes
    omega
  · exact List.length_pos_iff.mp (hlength.symm ▸ hpos)

theorem Faulty.le_length (h : Faulty es position fault) : position ≤ es.length := by
  cases h with
  | unmatched hes _ => rw [hes, List.length_append]; omega
  | second hes _ _ => rw [hes, List.length_append]; omega
  | unclosed _ _ _ => exact Nat.le_refl _

/-- **The fault stands where the stream can no longer be completed**, unless it is an unmatched exit
behind a node that had been gone round before. -/
theorem Faulty.isGreatest_or (h : Faulty es position fault) (next : NodeId) :
    IsGreatest (Tree.completable es next) position ∨
      ∃ k < position, fault = .unmatchedExit ∧ OneRooted (es.take k) := by
  have hle := h.le_length
  cases h with
  | @unmatched read rest hes hread =>
    rcases eq_or_ne read [] with rfl | hne
    · -- the stream begins with an exit
      refine .inl ⟨Tree.mem_completable_iff.mpr ⟨hle, upright_nil, Int.le_refl 0⟩, fun m hm => ?_⟩
      obtain ⟨-, hupright, hheight⟩ := Tree.mem_completable_iff.mp hm
      by_contra hlt
      obtain ⟨m, rfl⟩ := Nat.exists_eq_succ_of_ne_zero (by simpa using hlt : m ≠ 0)
      have htake : es.take (m + 1) = .exit :: rest.take m := by rw [hes]; rfl
      rw [htake] at hupright hheight
      rcases eq_or_ne (rest.take m) [] with hnil | hcons
      · rw [hnil] at hheight
        exact absurd hheight (by decide)
      · have hpos := hupright [.exit] ⟨rest.take m, rfl⟩ (List.cons_ne_nil _ _) fun e =>
          hcons (List.cons.inj e).2.symm
        exact absurd hpos (by decide)
    · obtain ⟨k, hk, hnode⟩ := hread.exists_oneRooted_take hne
      have htake : es.take k = read.take k := by rw [hes, List.take_append_of_le_length hk]
      rw [← htake] at hnode
      rcases hk.eq_or_lt with rfl | hlt
      · exact .inl (Tree.isGreatest_of_oneRooted hle hnode)
      · exact .inr ⟨k, hlt, rfl, hnode⟩
  | @second node rest rule label hes hnode _ =>
    refine .inl (Tree.isGreatest_of_oneRooted hle ?_)
    rwa [hes, List.take_left]
  | unclosed hupright hcount hpos =>
    refine .inl ⟨Tree.mem_completable_iff.mpr ⟨hle, ?_⟩, fun m hm => hm.1⟩
    rw [List.take_length]
    exact ⟨hupright, by omega⟩

end Event

namespace Tree

variable {es : List Event} {next : NodeId} {e : TreeError}

/-- **What a refused stream is blamed for.** The error names a fault in its place. It is never put
before the first event that nothing can repair, and it is put at this event, or at the end of a
stream that could have been completed, unless the stream has gone round a node earlier. In that
case an unmatched exit is reported in place of the event right after the node. -/
theorem ofEvents_blame (h : (ofEvents es next).1 = .error e) :
    ∃ position fault, e = .malformedStream position fault ∧ Faulty es position fault ∧
      position ∈ upperBounds (completable es next) ∧
      (IsGreatest (completable es next) position ↔ ∀ k < position, ¬ OneRooted (es.take k)) ∧
      ∀ k < position, OneRooted (es.take k) →
        fault = .unmatchedExit ∧ IsGreatest (completable es next) k := by
  obtain ⟨position, fault, rfl, hfaulty⟩ := exists_faulty_of_ofEvents_error h
  have hgreatest : ∀ k < position, OneRooted (es.take k) →
      IsGreatest (completable es next) k := fun k hk =>
    isGreatest_of_oneRooted (hk.le.trans hfaulty.le_length)
  refine ⟨position, fault, rfl, hfaulty, ?_, ⟨fun hp k hk hnode => ?_, fun hnone => ?_⟩,
    fun k hk hnode => ⟨?_, hgreatest k hk hnode⟩⟩
  · rcases hfaulty.isGreatest_or next with hp | ⟨k, hk, -, hnode⟩
    · exact hp.2
    · exact fun m hm => ((hgreatest k hk hnode).2 hm).trans hk.le
  · exact hk.ne ((hgreatest k hk hnode).unique hp)
  · refine (hfaulty.isGreatest_or next).resolve_right ?_
    rintro ⟨k, hk, -, hnode⟩
    exact hnone k hk hnode
  · rcases hfaulty.isGreatest_or next with hp | ⟨-, -, hfault, -⟩
    · exact absurd ((hgreatest k hk hnode).unique hp) hk.ne
    · exact hfault

/-- A second node at top level is blamed where it is entered. -/
theorem blame_second_node :
    (ofEvents [.enter "a" "", .exit, .enter "b" "", .exit] ⟨0⟩).1
        = .error (.malformedStream 2 .secondRoot) ∧
      IsGreatest (completable [.enter "a" "", .exit, .enter "b" "", .exit] ⟨0⟩) 2 := by
  have herror : (ofEvents [.enter "a" "", .exit, .enter "b" "", .exit] ⟨0⟩).1
      = .error (.malformedStream 2 .secondRoot) := by rfl
  obtain ⟨position, fault, he, -, -, hiff, -⟩ := ofEvents_blame herror
  cases he
  refine ⟨herror, hiff.mpr fun k hk hnode => ?_⟩
  -- neither nothing nor the first enter alone goes round a node
  have hheight := hnode.height_eq
  obtain rfl | rfl : k = 0 ∨ k = 1 := by omega
  · exact hnode.ne_nil rfl
  · exact absurd hheight (by decide)

/-- If an unmatched exit follows, it is blamed instead: of five events the fifth, although the
stream could not be completed after the third. -/
theorem blame_exit_after_second_node :
    (ofEvents [.enter "a" "", .exit, .enter "b" "", .exit, .exit] ⟨0⟩).1
        = .error (.malformedStream 4 .unmatchedExit) ∧
      IsGreatest (completable [.enter "a" "", .exit, .enter "b" "", .exit, .exit] ⟨0⟩) 2 ∧
      ¬ IsGreatest (completable [.enter "a" "", .exit, .enter "b" "", .exit, .exit] ⟨0⟩) 4 := by
  have htwo : IsGreatest
      (completable [.enter "a" "", .exit, .enter "b" "", .exit, .exit] ⟨0⟩) 2 :=
    isGreatest_of_oneRooted (by decide) (Shape.node "a" "" []).oneRooted_tour
  exact ⟨rfl, htwo, fun hfour => absurd (htwo.unique hfour) (by decide)⟩

end Tree

end SyntaxTree
