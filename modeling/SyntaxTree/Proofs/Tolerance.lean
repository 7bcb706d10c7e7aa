/-
SyntaxTree/Proofs/Tolerance.lean

Assemblies outlive refusals.  Whoever gives events to an assembly may pass over the exits that
are refused and carry on: a refused exit is counted, and nothing else comes of it.  So the
assembly is at any time, but for what it counts, where it would be if only the events had been
given to it that it has taken in (`Agrees`), and all of those are taken in again.

What is counted are the events, refused ones included.  The first of them that opened a second
node at top level is remembered (`Remembers`), and `finish` reports it before anything else.
-/
import Mathlib.Order.Bounds.Basic
import Mathlib.Order.Nat
import SyntaxTree.Proofs.Stream

namespace SyntaxTree

open Event

namespace Assembly

/-! ### Carrying on -/

/-- The assembly after some events, whether they are refused or not. -/
def carryOn (a : Assembly) (es : List Event) : Assembly := es.foldl (fun a e => (a.apply e).2) a

/-- The replies to some events, whether they are refused or not. -/
def replies (a : Assembly) : List Event → List (Event × Except TreeError Unit)
  | [] => []
  | e :: es => (e, (a.apply e).1) :: (a.apply e).2.replies es

/-- The events that are taken in; the refused ones are left out. -/
def heeded (a : Assembly) (es : List Event) : List Event :=
  ((a.replies es).filter fun r => r.2.isOk).map Prod.fst

variable {a b c : Assembly} {next : NodeId} {es : List Event} {e : Event} {error : TreeError}
  {k : Nat} {t : Tree}

theorem carryOn_concat (a : Assembly) (es : List Event) (e : Event) :
    a.carryOn (es ++ [e]) = ((a.carryOn es).apply e).2 := by
  rw [carryOn, List.foldl_concat, carryOn]

theorem replies_concat (a : Assembly) (es : List Event) (e : Event) :
    a.replies (es ++ [e]) = a.replies es ++ [(e, ((a.carryOn es).apply e).1)] := by
  induction es generalizing a with
  | nil => rfl
  | cons d es ih => exact congrArg (_ :: ·) (ih (a.apply d).2)

theorem heeded_concat_of_ok (h : ((a.carryOn es).apply e).1 = .ok ()) :
    a.heeded (es ++ [e]) = a.heeded es ++ [e] := by
  rw [heeded, replies_concat, List.filter_append, List.map_append, h]
  rfl

theorem heeded_concat_of_error (h : ((a.carryOn es).apply e).1 = .error error) :
    a.heeded (es ++ [e]) = a.heeded es := by
  rw [heeded, replies_concat, List.filter_append, List.map_append, h]
  exact List.append_nil _

/-- An event that is refused is an exit, and there is no open node. -/
theorem apply_eq_error_iff : (a.apply e).1 = .error error ↔
    e = .exit ∧ a.opened = [] ∧ error = .malformedStream a.position .unmatchedExit := by
  cases e with
  | enter rule label => simp [apply]
  | exit =>
    rw [apply, Assembly.exit]
    cases a.opened with
    | nil => simp [eq_comm]
    | cons i opened => simp

/-- A refused event is counted, and nothing else comes of it. -/
theorem apply_of_error (h : (a.apply e).1 = .error error) :
    (a.apply e).2 = { a with position := a.position + 1 } := by
  obtain ⟨rfl, hopened, -⟩ := apply_eq_error_iff.mp h
  rw [apply, Assembly.exit, hopened]

theorem position_apply (a : Assembly) (e : Event) : (a.apply e).2.position = a.position + 1 := by
  cases e with
  | enter rule label => rfl
  | exit =>
    rw [apply, Assembly.exit]
    cases a.opened <;> rfl

theorem position_carryOn (next : NodeId) (es : List Event) :
    ((start next).carryOn es).position = es.length := by
  induction es using List.reverseRecOn with
  | nil => rfl
  | append_singleton es e ih =>
    rw [carryOn_concat, position_apply, ih, List.length_append, List.length_singleton]

/-! ### Agreement -/

/-- Two assemblies are the same but for what they have counted. -/
structure Agrees (a b : Assembly) : Prop where
  next_eq : a.next = b.next
  nodes_eq : a.nodes = b.nodes
  opened_eq : a.opened = b.opened
  root_eq : a.root = b.root
  overflow_eq : a.overflow.isSome = b.overflow.isSome

namespace Agrees

theorem refl (a : Assembly) : a.Agrees a := ⟨rfl, rfl, rfl, rfl, rfl⟩

theorem enter (h : a.Agrees b) (rule label : String) :
    (a.enter rule label).Agrees (b.enter rule label) := by
  constructor
  case next_eq => exact congrArg (·.shift 1) h.next_eq
  case nodes_eq => simp only [Assembly.enter, h.next_eq, h.nodes_eq, h.opened_eq]
  case opened_eq => simp only [Assembly.enter, h.next_eq, h.opened_eq]
  case root_eq => simp only [Assembly.enter, h.next_eq, h.root_eq]
  case overflow_eq =>
    simp only [Assembly.enter, h.opened_eq, h.root_eq]
    split
    case isTrue => rw [Option.isSome_or, Option.isSome_or, Option.isSome_some, Option.isSome_some,
      Bool.or_true, Bool.or_true]
    case isFalse => exact h.overflow_eq

/-- An event that is taken in by the one is taken in by the other, -/
theorem apply (h : a.Agrees b) (hok : (a.apply e).1 = .ok ()) :
    (b.apply e).1 = .ok () ∧ (a.apply e).2.Agrees (b.apply e).2 := by
  cases e with
  | enter rule label => exact ⟨rfl, h.enter rule label⟩
  | exit =>
    rw [Assembly.apply, Assembly.exit] at hok ⊢
    rw [Assembly.apply, Assembly.exit, ← h.opened_eq]
    cases ho : a.opened with
    | nil => rw [ho] at hok; cases hok
    | cons i opened => exact ⟨rfl, h.next_eq, h.nodes_eq, rfl, h.root_eq, h.overflow_eq⟩

/-- and one that is refused need not be given to the other. -/
theorem skip (h : a.Agrees b) (herror : (a.apply e).1 = .error error) : (a.apply e).2.Agrees b := by
  rw [apply_of_error herror]
  exact ⟨h.next_eq, h.nodes_eq, h.opened_eq, h.root_eq, h.overflow_eq⟩

theorem finish_eq_ok_iff (h : a.Agrees b) : a.finish = .ok t ↔ b.finish = .ok t := by
  have hnone : a.overflow = none ↔ b.overflow = none := by
    rw [← Option.isSome_eq_false_iff.trans Option.isNone_iff_eq_none, h.overflow_eq,
      Option.isSome_eq_false_iff, Option.isNone_iff_eq_none]
  rw [Assembly.finish_eq_ok_iff, Assembly.finish_eq_ok_iff, hnone, h.opened_eq, h.nodes_eq, h.root_eq]

end Agrees

theorem applyAll_concat (h : a.applyAll es = (.ok (), b)) (hok : (b.apply e).1 = .ok ()) :
    a.applyAll (es ++ [e]) = (.ok (), (b.apply e).2) := by
  induction es generalizing a with
  | nil =>
    obtain rfl : a = b := congrArg Prod.snd h
    rw [List.nil_append, applyAll]
    rcases hc : a.apply e with ⟨_ | _, c⟩
    · rw [hc] at hok; cases hok
    · rfl
  | cons d es ih =>
    rw [applyAll] at h
    rw [List.cons_append, applyAll]
    rcases hc : a.apply d with ⟨_ | _, c⟩
    · rw [hc] at h; cases h
    · rw [hc] at h
      exact ih h

/-- **The heeded events** are all taken in, and lead to the same assembly but for what is counted. -/
theorem exists_agrees (a : Assembly) (es : List Event) :
    ∃ b, a.applyAll (a.heeded es) = (.ok (), b) ∧ (a.carryOn es).Agrees b := by
  induction es using List.reverseRecOn with
  | nil => exact ⟨a, rfl, .refl a⟩
  | append_singleton es e ih =>
    obtain ⟨b, hb, hagrees⟩ := ih
    rw [carryOn_concat]
    rcases hreply : ((a.carryOn es).apply e).1 with error | _
    · rw [heeded_concat_of_error hreply]
      exact ⟨b, hb, hagrees.skip hreply⟩
    · rw [heeded_concat_of_ok hreply]
      obtain ⟨hok, hagrees⟩ := hagrees.apply hreply
      exact ⟨_, applyAll_concat hb hok, hagrees⟩

/-! ### What is counted -/

theorem depth_apply_of_ok (h : (a.apply e).1 = .ok ()) :
    (a.apply e).2.depth + [e].count .exit = a.depth + (entries [e]).length := by
  cases e with
  | enter rule label => rfl
  | exit =>
    rw [apply, Assembly.exit] at h ⊢
    cases ho : a.opened with
    | nil => rw [ho] at h; cases h
    | cons i opened => rw [depth, depth, ho]; rfl

/-- A node that has been entered is open, or it has been left. -/
theorem depth_carryOn (next : NodeId) (es : List Event) :
    ((start next).carryOn es).depth + ((start next).heeded es).count .exit = (entries es).length := by
  induction es using List.reverseRecOn with
  | nil => rfl
  | append_singleton es e ih =>
    rw [carryOn_concat, entries_append, List.length_append, ← ih]
    rcases hreply : (((start next).carryOn es).apply e).1 with error | _
    · obtain ⟨rfl, -, -⟩ := apply_eq_error_iff.mp hreply
      rw [heeded_concat_of_error hreply, apply_of_error hreply]
      rfl
    · have hdepth := depth_apply_of_ok hreply
      rw [heeded_concat_of_ok hreply, List.count_append]
      omega

/-- The positions at which a node is entered while none is open, although there has been one. -/
def secondRoots (next : NodeId) (es : List Event) : Set Nat :=
  {k | ∃ before rule label after, es = before ++ .enter rule label :: after ∧ before.length = k ∧
    ((start next).carryOn before).depth = 0 ∧ entries before ≠ []}

theorem lt_of_mem_secondRoots (hk : k ∈ secondRoots next es) : k < es.length := by
  obtain ⟨before, rule, label, after, rfl, rfl, -, -⟩ := hk
  rw [List.length_append, List.length_cons]
  omega

theorem secondRoots_nil : secondRoots next [] = ∅ :=
  Set.eq_empty_iff_forall_notMem.mpr fun k hk => Nat.not_lt_zero k (lt_of_mem_secondRoots hk)

/-- One more event is at a position of this kind, or it makes no difference. -/
theorem mem_secondRoots_concat : k ∈ secondRoots next (es ++ [e]) ↔ k ∈ secondRoots next es ∨
    (k = es.length ∧ e ≠ .exit ∧ ((start next).carryOn es).depth = 0 ∧ entries es ≠ []) := by
  constructor
  · rintro ⟨before, rule, label, after, hes, rfl, hdepth, hentries⟩
    rcases List.eq_nil_or_concat after with rfl | ⟨after, d, rfl⟩
    · obtain ⟨rfl, rfl⟩ := List.append_singleton_inj.mp hes
      exact .inr ⟨rfl, nofun, hdepth, hentries⟩
    · rw [List.concat_eq_append, ← List.cons_append, ← List.append_assoc] at hes
      obtain ⟨rfl, -⟩ := List.append_singleton_inj.mp hes
      exact .inl ⟨before, rule, label, after, rfl, rfl, hdepth, hentries⟩
  · rintro (⟨before, rule, label, after, rfl, rfl, hdepth, hentries⟩ | ⟨rfl, he, hdepth, hentries⟩)
    · exact ⟨before, rule, label, after ++ [e], by simp, rfl, hdepth, hentries⟩
    · cases e with
      | exit => exact absurd rfl he
      | enter rule label => exact ⟨es, rule, label, [], rfl, rfl, hdepth, hentries⟩

theorem secondRoots_concat_of_not
    (h : ¬ (e ≠ .exit ∧ ((start next).carryOn es).depth = 0 ∧ entries es ≠ [])) :
    secondRoots next (es ++ [e]) = secondRoots next es := by
  ext k
  rw [mem_secondRoots_concat]
  exact or_iff_left fun hk => h hk.2

theorem secondRoots_concat_of
    (h : e ≠ .exit ∧ ((start next).carryOn es).depth = 0 ∧ entries es ≠ []) :
    secondRoots next (es ++ [e]) = insert es.length (secondRoots next es) := by
  ext k
  rw [mem_secondRoots_concat, Set.mem_insert_iff, or_comm]
  exact or_congr_left (and_iff_left h)

/-! ### The first of several -/

/-- What is there is the least of the numbers, if there are any. -/
def First (o : Option Nat) (s : Set Nat) : Prop := ∀ k, o = some k ↔ IsLeast s k

namespace First

variable {o : Option Nat} {s : Set Nat} {n : Nat}

theorem eq_none_iff (h : First o s) : o = none ↔ s = ∅ := by
  constructor
  · intro hnone
    by_contra hne
    classical
    have hleast := (h _).mpr (Set.nonempty_iff_ne_empty.mpr hne).isLeast_natFind
    rw [hnone] at hleast
    cases hleast
  · intro hempty
    refine Option.eq_none_iff_forall_not_mem.mpr fun k hk => ?_
    have hleast := (h k).mp hk
    rw [hempty] at hleast
    exact hleast.1

theorem empty : First none ∅ :=
  fun k => ⟨fun hk => absurd hk (Option.some_ne_none k).symm, fun hk => hk.1.elim⟩

theorem of_isLeast (h : IsLeast s n) : First (some n) s :=
  fun _ => ⟨fun hk => Option.some.inj hk ▸ h, fun hk => congrArg some (h.unique hk)⟩

/-- What comes later is the first only if nothing was there before. -/
theorem insert (h : First o s) (hlt : ∀ k ∈ s, k < n) : First (o.or (some n)) (insert n s) := by
  cases ho : o with
  | none =>
    refine of_isLeast ?_
    rw [h.eq_none_iff.mp ho, insert_empty_eq]
    exact isLeast_singleton
  | some j =>
    have hj := (h j).mp ho
    refine of_isLeast ?_
    rw [← min_eq_right (Nat.le_of_lt (hlt j hj.1))]
    exact hj.insert n

end First

/-- What an assembly remembers of the events given to it: whether a node has been entered, and
where a second one first came to stand at top level. -/
structure Remembers (next : NodeId) (es : List Event) (a : Assembly) : Prop where
  root_iff : a.root.isSome = true ↔ entries es ≠ []
  overflow_first : First a.overflow (secondRoots next es)

theorem remembers_start (next : NodeId) : (start next).Remembers next [] := by
  refine ⟨by simp [start, entries], ?_⟩
  rw [secondRoots_nil]
  exact .empty

theorem root_exit (a : Assembly) : a.exit.2.root = a.root := by
  rw [Assembly.exit]
  cases a.opened <;> rfl

/-- **Every event** is remembered as far as it matters. -/
theorem Remembers.apply (h : ((start next).carryOn es).Remembers next es) (e : Event) :
    ((start next).carryOn (es ++ [e])).Remembers next (es ++ [e]) := by
  rw [carryOn_concat]
  cases e with
  | exit =>
    refine ⟨?_, ?_⟩
    · rw [Assembly.apply, root_exit, h.root_iff, entries_append]
      simp [entries]
    · rw [Assembly.apply, overflow_exit, secondRoots_concat_of_not (fun hexit => hexit.1 rfl)]
      exact h.overflow_first
  | enter rule label =>
    have hsecond : (((start next).carryOn es).opened.isEmpty && ((start next).carryOn es).root.isSome)
        = true ↔ ((start next).carryOn es).depth = 0 ∧ entries es ≠ [] := by
      rw [Bool.and_eq_true, List.isEmpty_iff, h.root_iff, depth, List.length_eq_zero_iff]
    refine ⟨by simp [Assembly.apply, Assembly.enter, entries_append, entries], ?_⟩
    simp only [Assembly.apply, Assembly.enter, hsecond, position_carryOn]
    split
    case isTrue hyes =>
      rw [secondRoots_concat_of (e := .enter rule label) ⟨by simp, hyes⟩]
      exact h.overflow_first.insert fun k => lt_of_mem_secondRoots
    case isFalse hno =>
      rw [secondRoots_concat_of_not (fun hyes => hno hyes.2)]
      exact h.overflow_first

theorem remembers_carryOn (next : NodeId) (es : List Event) :
    ((start next).carryOn es).Remembers next es := by
  induction es using List.reverseRecOn with
  | nil => exact remembers_start next
  | append_singleton es e ih => exact ih.apply e

/-! ### Finishing -/

theorem finish_eq_error_iff : a.finish = .error error ↔
    (∃ k, a.overflow = some k ∧ error = .malformedStream k .secondRoot) ∨
      (a.overflow = none ∧ 0 < a.depth ∧ error = .malformedStream a.position (.unclosed a.depth)) := by
  rw [finish, depth]
  cases a.overflow with
  | some k => simp [eq_comm]
  | none => cases a.opened <;> simp [eq_comm]

/-- How an assembly stands after some events of which it has refused what it had to: the replies
to one event more, how many nodes are open, and what `finish` makes of it. -/
structure Outlives (next : NodeId) (es : List Event) (a : Assembly) : Prop where
  enter_ok : ∀ rule label, (a.apply (.enter rule label)).1 = .ok ()
  exit_error_iff : ∀ error, (a.apply .exit).1 = .error error ↔
    a.depth = 0 ∧ error = .malformedStream es.length .unmatchedExit
  depth_add : a.depth + ((start next).heeded es).count .exit = (entries es).length
  finish_error_iff : ∀ error, a.finish = .error error ↔
    (∃ k, IsLeast (secondRoots next es) k ∧ error = .malformedStream k .secondRoot) ∨
      (secondRoots next es = ∅ ∧ 0 < a.depth ∧
        error = .malformedStream es.length (.unclosed a.depth))
  heeded_ok : ((start next).applyAll ((start next).heeded es)).1 = .ok ()
  finish_ok_iff : ∀ t, a.finish = .ok t ↔
    Tree.ofEvents ((start next).heeded es) next = (.ok t, a.next)

/-- **Assemblies outlive refusals.** All that is ever refused is an exit while no node is open; it
counts as an event, and a node stays open until an exit is taken in. A tree is made unless a second
node has come to stand at top level, the first of which is to blame, or nodes are still open; and it
is the tree that is made if the refused exits are left out. -/
theorem outlives_refusals (next : NodeId) (es : List Event) :
    ((start next).carryOn es).Outlives next es := by
  have hfirst := (remembers_carryOn next es).overflow_first
  obtain ⟨b, hb, hagrees⟩ := exists_agrees (start next) es
  constructor
  case enter_ok => exact fun rule label => rfl
  case exit_error_iff =>
    intro error
    rw [apply_eq_error_iff, position_carryOn, depth, List.length_eq_zero_iff]
    exact and_iff_right rfl
  case depth_add => exact depth_carryOn next es
  case finish_error_iff =>
    intro error
    rw [finish_eq_error_iff, position_carryOn, hfirst.eq_none_iff]
    exact or_congr_left (exists_congr fun k => and_congr_left' (hfirst k))
  case heeded_ok => exact congrArg Prod.fst hb
  case finish_ok_iff =>
    intro t
    rw [hagrees.finish_eq_ok_iff, Tree.ofEvents, hb, hagrees.next_eq, Prod.mk.injEq]
    exact (and_iff_left rfl).symm

/-- Of a second and a third node at top level the second is to blame, and exits have been refused. -/
example :
    let es : List Event := [.exit, .enter "a" "", .exit, .exit, .enter "b" "", .exit, .enter "c" ""]
    (start ⟨7⟩).heeded es = [.enter "a" "", .exit, .enter "b" "", .exit, .enter "c" ""] ∧
      ((start ⟨7⟩).carryOn es).finish = .error (.malformedStream 4 .secondRoot) :=
  ⟨rfl, rfl⟩

end Assembly

end SyntaxTree
