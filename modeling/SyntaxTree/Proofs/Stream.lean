/-
SyntaxTree/Proofs/Stream.lean

Streams of events and trees correspond.  A stream is accepted if it is empty or one-rooted
(`OneRooted`), and then the tour of the tree is the stream it was made from (`Retells`); as
different shapes have different tours, every shape is the shape of the tree made from its
own tour.

Two facts about assemblies carry this, one for each direction.

  * Counting: as long as the height of the events read does not fall below zero, and is
    zero at the beginning at most, no event is refused and no second node comes to stand at
    top level (`applyAll_of_height`).
  * Records: the trail of an assembly, together with what has been closed on it, tells
    exactly the events that have been read (`Records`).
-/
import SyntaxTree.Proofs.Assembly
import SyntaxTree.Proofs.Tour
import SyntaxTree.Proofs.Walk

namespace SyntaxTree

open Branch Event

theorem NodeId.shift_add (first : NodeId) (j k : Nat) :
    first.shift (j + k) = (first.shift j).shift k :=
  congrArg NodeId.mk (Nat.add_assoc _ _ _).symm

theorem NodeId.block_add (first : NodeId) (j k : Nat) :
    first.block (j + k) = first.block j ++ (first.shift j).block k := by
  rw [block, List.range_add, List.map_append, List.map_map]
  exact congrArg _ (List.map_congr_left fun i _ => shift_add first j i)

/-! ### What a trail tells -/

/-- The events that lead to the end of a trail: each of its nodes is entered when the branches on
the left of it have been toured. -/
def Branch.approach : List (Bud × List Branch) → List Event
  | [] => []
  | (v, l) :: trail => approach trail ++ .enter v.rule v.label :: toursOf l

/-- The events that grow the branches `done` at the end of a trail. -/
def Branch.told (trail : List (Bud × List Branch)) (done : List Branch) : List Event :=
  approach trail ++ toursOf done

theorem Branch.told_open (v : Bud) (trail : List (Bud × List Branch)) :
    told ((v, []) :: trail) [] = told trail [] ++ [.enter v.rule v.label] := by
  simp [told, approach, toursOf_nil]

theorem Branch.told_close (v : Bud) (l : List Branch) (trail : List (Bud × List Branch)) :
    told (close v l trail).1 (close v l trail).2 = told ((v, l) :: trail) [] ++ [.exit] := by
  cases trail with
  | nil => simp [close, told, approach, toursOf_grow, toursOf_nil]
  | cons frame trail =>
    obtain ⟨w, k⟩ := frame
    simp [close, told, approach, toursOf_append, toursOf_grow, toursOf_nil]

namespace Assembly

variable {a b : Assembly} {first next : NodeId} {es fs : List Event}

/-! ### Numbering -/

/-- The registry has `k` nodes, under the identities from `first` on in order, and the one after
these is the next. -/
structure Numbered (first : NodeId) (k : Nat) (a : Assembly) : Prop where
  keys_eq : a.nodes.keys = first.block k
  next_eq : a.next = first.shift k

theorem numbered_start (first : NodeId) : (start first).Numbered first 0 := ⟨rfl, rfl⟩

theorem keys_enter (a : Assembly) (rule label : String) (h : a.next ∉ a.nodes.keys) :
    (a.enter rule label).nodes.keys = a.nodes.keys ++ [a.next] := by
  rw [Assembly.enter]
  cases a.opened.head? with
  | none => exact OrderedMap.keys_insert_of_not_mem _ h
  | some p =>
    have hkeys := OrderedMap.keys_modify a.nodes p fun n => { n with children := n.children ++ [a.next] }
    show ((a.nodes.modify p _).insert a.next _).keys = _
    rw [OrderedMap.keys_insert_of_not_mem _ (hkeys ▸ h), hkeys]

theorem nodes_exit (a : Assembly) : a.exit.2.nodes = a.nodes := by
  rw [Assembly.exit]
  cases a.opened <;> rfl

/-- An event that enters a node registers it under the next identity, and no other registers any. -/
theorem keys_apply (h : a.next ∉ a.nodes.keys) (e : Event) :
    (a.apply e).2.nodes.keys = a.nodes.keys ++ a.next.block (entries [e]).length := by
  cases e with
  | enter rule label => exact a.keys_enter rule label h
  | exit =>
    show a.exit.2.nodes.keys = _
    rw [a.nodes_exit]
    exact (List.append_nil _).symm

/-- An event that enters a node uses up one identity, and no other does. -/
theorem next_apply (a : Assembly) (e : Event) :
    (a.apply e).2.next = a.next.shift (entries [e]).length := by
  cases e with
  | enter rule label => rfl
  | exit => exact a.next_exit

theorem Numbered.apply {k : Nat} (h : a.Numbered first k) (e : Event) :
    (a.apply e).2.Numbered first (k + (entries [e]).length) := by
  have hnew : a.next ∉ a.nodes.keys := by
    rw [h.keys_eq, h.next_eq, NodeId.mem_block]
    exact fun hlt => Nat.lt_irrefl _ hlt.2
  refine ⟨?_, ?_⟩
  · rw [keys_apply hnew, h.keys_eq, h.next_eq, NodeId.block_add]
  · rw [next_apply, h.next_eq]
    exact congrArg NodeId.mk (Nat.add_assoc _ _ _)

/-- **The identities used up by a stream** are those of the nodes that were entered. If no event
was refused, these are the nodes that the stream enters. -/
theorem Numbered.applyAll {k : Nat} (h : a.Numbered first k) (es : List Event) :
    ∃ k', (a.applyAll es).2.Numbered first k' ∧
      ((a.applyAll es).1 = .ok () → k' = k + (entries es).length) := by
  induction es generalizing a k with
  | nil => exact ⟨k, h, fun _ => rfl⟩
  | cons e es ih =>
    have hstep := h.apply e
    rw [Assembly.applyAll]
    rcases hb : a.apply e with ⟨_ | _, b⟩
    · rw [hb] at hstep
      exact ⟨_, hstep, fun hok => by cases hok⟩
    · rw [hb] at hstep
      obtain ⟨k', hk', hall⟩ := ih hstep
      refine ⟨k', hk', fun hok => ?_⟩
      have hentries : entries (e :: es) = entries [e] ++ entries es := entries_append [e] es
      rw [hall hok, hentries, List.length_append, Nat.add_assoc]

/-! ### Records -/

/-- What is on the trail tells the events that have been read. -/
structure Records (es : List Event) (trail : List (Bud × List Branch)) (done : List Branch)
    (a : Assembly) : Prop extends Tracks a.next trail done a where
  told_eq : told trail done = es

/-- As long as there has been no second node at top level, the assembly has a record of the events
it has read. -/
def Recorded (es : List Event) (a : Assembly) : Prop :=
  a.overflow = none → ∃ trail done, a.Records es trail done

theorem recorded_start (first : NodeId) : (start first).Recorded [] :=
  fun _ => ⟨[], [], tracks_start _ first, rfl⟩

/-- **An event that is not refused** is recorded. -/
theorem Recorded.apply (h : a.Recorded es) {e : Event} (hb : a.apply e = (.ok (), b)) :
    b.Recorded (es ++ [e]) := by
  intro ho
  cases e with
  | enter rule label =>
    obtain rfl : a.enter rule label = b := congrArg Prod.snd hb
    obtain ⟨hfirst, ho⟩ := overflow_enter_eq_none ho
    obtain ⟨trail, done, ht⟩ := h ho
    obtain rfl := ht.done_eq_nil hfirst
    refine ⟨_, _, ht.toTracks.enter rule label, ?_⟩
    rw [told_open, ht.told_eq]
    rfl
  | exit =>
    obtain rfl : a.exit.2 = b := congrArg Prod.snd hb
    obtain ⟨trail, done, ht⟩ := h (a.overflow_exit ▸ ho)
    cases trail with
    | nil =>
      -- with no node open, the exit is refused
      have hrefused : a.exit.1 = .ok () := congrArg Prod.fst hb
      rw [Assembly.exit, show a.opened = [] from ht.opened_eq] at hrefused
      cases hrefused
    | cons frame trail =>
      obtain ⟨v, l⟩ := frame
      obtain rfl := ht.done_eq (by simp)
      refine ⟨_, _, a.next_exit ▸ ht.toTracks.exit.2, ?_⟩
      rw [told_close, ht.told_eq]

/-- What every event that is taken in preserves, a stream that is taken in preserves. -/
theorem applyAll_induction {I : List Event → Assembly → Prop}
    (hstep : ∀ {es a e b}, I es a → a.apply e = (.ok (), b) → I (es ++ [e]) b) (h : I es a)
    (hb : a.applyAll fs = (.ok (), b)) : I (es ++ fs) b := by
  induction fs generalizing a es with
  | nil =>
    obtain rfl : a = b := congrArg Prod.snd hb
    rwa [List.append_nil]
  | cons e fs ih =>
    rw [Assembly.applyAll] at hb
    rcases hc : a.apply e with ⟨_ | _, c⟩
    · rw [hc] at hb
      cases hb
    · rw [hc] at hb
      have hrest := ih (hstep h hc) hb
      rwa [List.append_assoc] at hrest

theorem Recorded.applyAll (h : a.Recorded es) (hb : a.applyAll fs = (.ok (), b)) :
    b.Recorded (es ++ fs) :=
  applyAll_induction (fun h => h.apply) h hb

/-! ### Counting -/

theorem exit_of_depth_pos (h : 0 < a.depth) :
    ∃ b, a.exit = (.ok (), b) ∧ b.depth + 1 = a.depth ∧ b.root = a.root ∧ b.overflow = a.overflow := by
  obtain ⟨i, rest, ho⟩ : ∃ i rest, a.opened = i :: rest := List.exists_cons_of_length_pos h
  refine ⟨{ a with position := a.position + 1, opened := rest }, ?_, ?_, rfl, rfl⟩
  · rw [Assembly.exit, ho]
  · rw [depth, depth, ho, List.length_cons]

theorem overflow_enter (rule label : String) (h : a.root.isSome = true → 0 < a.depth) :
    (a.enter rule label).overflow = a.overflow := by
  have hfirst : (a.opened.isEmpty && a.root.isSome) = false := by
    cases hr : a.root.isSome with
    | false => exact Bool.and_false _
    | true =>
      obtain ⟨i, rest, ho⟩ := List.exists_cons_of_length_pos (h hr)
      rw [ho]
      rfl
  show (if _ then _ else _) = _
  rw [hfirst]
  rfl

/-- **Acceptance by counting.** If the number of open nodes stays at zero or above throughout, and
above zero once there is a node and until the last event, all events are taken in. -/
theorem applyAll_of_height (ho : a.overflow = none)
    (hnonneg : ∀ p, p <+: es → 0 ≤ (a.depth : Int) + height p)
    (hpos : ∀ p, p <+: es → p ≠ es → (a.root.isSome = true ∨ p ≠ []) →
      0 < (a.depth : Int) + height p) :
    ∃ b, a.applyAll es = (.ok (), b) ∧ b.overflow = none ∧
      (b.depth : Int) = (a.depth : Int) + height es := by
  induction es generalizing a with
  | nil => exact ⟨a, rfl, ho, by simp⟩
  | cons e es ih =>
    -- what is said of the beginnings that contain `e` is said of those of the rest
    have hnonneg' : ∀ p, p <+: es → 0 ≤ (a.depth : Int) + (e.rise + height p) := fun p hp =>
      hnonneg (e :: p) (List.cons_prefix_cons.mpr ⟨rfl, hp⟩)
    have hpos' : ∀ p, p <+: es → p ≠ es → 0 < (a.depth : Int) + (e.rise + height p) :=
      fun p hp hne => hpos (e :: p) (List.cons_prefix_cons.mpr ⟨rfl, hp⟩)
        (fun h => hne (List.cons.inj h).2) (Or.inr (List.cons_ne_nil e p))
    cases e with
    | enter rule label =>
      have hdepth : ((a.enter rule label).depth : Int) = a.depth + 1 := by
        simp [Assembly.enter, depth]
      have htop : a.root.isSome = true → 0 < a.depth := by
        intro hr
        have h := hpos [] List.nil_prefix (List.cons_ne_nil _ _).symm (Or.inl hr)
        rw [height_nil] at h
        omega
      rw [rise_enter] at hnonneg' hpos'
      obtain ⟨b, hb, hob, hdb⟩ := ih (a := a.enter rule label)
        ((overflow_enter rule label htop).trans ho)
        (fun p hp => by have := hnonneg' p hp; omega)
        (fun p hp hne _ => by have := hpos' p hp hne; omega)
      exact ⟨b, hb, hob, by rw [hdb, hdepth, height_cons, rise_enter]; omega⟩
    | exit =>
      rw [rise_exit] at hnonneg' hpos'
      have hopen := hnonneg' [] List.nil_prefix
      rw [height_nil] at hopen
      obtain ⟨c, hc, hdepth, hroot, hoc⟩ := exit_of_depth_pos (a := a) (by omega)
      obtain ⟨b, hb, hob, hdb⟩ := ih (a := c) (hoc.trans ho)
        (fun p hp => by have := hnonneg' p hp; omega)
        (fun p hp hne _ => by have := hpos' p hp hne; omega)
      refine ⟨b, ?_, hob, by rw [hdb, height_cons, rise_exit]; omega⟩
      rw [Assembly.applyAll, Assembly.apply, hc]
      exact hb

end Assembly

/-! ### Trees made from streams -/

namespace Tree

/-- The shape of a tree; an empty tree has none. -/
def shape? (t : Tree) : Option Shape := t.branch?.map Branch.shape

/-- The events of a depth-first walk round a tree. -/
def tour (t : Tree) : List Event := Shape.tourAll t.shape?.toList

/-- The tree is the one that a stream tells of, and its nodes are new: they are registered in the
order in which they were entered, which is pre-order, under the identities from `next` on, and
each is its own origin. -/
structure Retells (es : List Event) (next : NodeId) (t : Tree) : Prop where
  tour_eq : t.tour = es
  entries_eq : t.nodeList.map (fun n => (n.rule, n.label)) = entries es
  preOrder_eq : t.preOrder = t.nodeIds
  nodeIds_eq : t.nodeIds = next.block (entries es).length
  origin_eq : ∀ n ∈ t.nodeList, n.origin = n.id

variable {t : Tree} {bs : List Branch} {es : List Event} {next : NodeId}

theorem Spells.tour_eq (h : t.Spells bs) : t.tour = toursOf bs := by
  rw [tour, shape?, h.branch?_eq]
  obtain rfl | ⟨b, rfl⟩ := h.eq_nil_or_singleton <;> rfl

theorem ofEvents_eq_ok_iff : (ofEvents es next).1 = .ok t ↔
    ∃ a, (Assembly.start next).applyAll es = (.ok (), a) ∧ a.finish = .ok t := by
  rw [ofEvents]
  rcases (Assembly.start next).applyAll es with ⟨_ | _, a⟩ <;> simp

/-- **A tree made from a stream** retells the stream. -/
theorem retells_ofEvents (h : (ofEvents es next).1 = .ok t) :
    t.Retells es next ∧ (ofEvents es next).2 = next.shift (entries es).length := by
  obtain ⟨a, ha, hf⟩ := ofEvents_eq_ok_iff.mp h
  obtain ⟨k, hnum, hk⟩ := (Assembly.numbered_start next).applyAll es
  rw [ha] at hnum hk
  obtain rfl : k = (entries es).length := (hk rfl).trans (Nat.zero_add _)
  obtain ⟨ho, hopened, rfl⟩ := Assembly.finish_eq_ok_iff.mp hf
  -- with no node left open, everything that was read is on the finished branches
  obtain ⟨trail, done, ht⟩ := ((Assembly.recorded_start next).applyAll ha) ho
  obtain rfl : trail = [] := List.map_eq_nil_iff.mp (ht.opened_eq.symm.trans hopened)
  obtain ⟨hs, hlist⟩ := ht.toTracks.spells
  have htour : toursOf done = es := ht.told_eq
  have hbuds : ∀ ns : List Node, ns.map (fun n => (n.rule, n.label))
      = (ns.map Node.bud).map fun v => (v.rule, v.label) := by
    intro ns; rw [List.map_map]; rfl
  refine ⟨⟨hs.tour_eq.trans htour, ?_, ?_, hnum.keys_eq, ?_⟩, ?_⟩
  · rw [hlist, hbuds, map_bud_grove, ← htour, entries_toursOf]
  · rw [hs.preOrder_eq, hs.nodeIds_eq, hlist, map_id_grove]
  · intro n hn
    rw [hlist] at hn
    exact (ht.own n hn).1
  · rw [ofEvents, ha]
    exact hnum.next_eq

/-- An upright stream that leaves no node open is accepted. -/
theorem exists_ofEvents_of_upright (h : Upright es) (hzero : height es = 0) (next : NodeId) :
    ∃ t, (ofEvents es next).1 = .ok t := by
  have hstart : ((Assembly.start next).depth : Int) = 0 := rfl
  have hpos : ∀ p, p <+: es → p ≠ es → ((Assembly.start next).root.isSome = true ∨ p ≠ []) →
      0 < ((Assembly.start next).depth : Int) + height p := by
    intro p hp hlt hne
    rw [hstart, Int.zero_add]
    exact h p hp (hne.resolve_left (by simp [Assembly.start])) hlt
  have hnonneg : ∀ p, p <+: es → 0 ≤ ((Assembly.start next).depth : Int) + height p := by
    intro p hp
    rcases eq_or_ne p es with rfl | hlt
    · exact Int.le_of_eq (by rw [hstart, hzero]; rfl)
    · rcases eq_or_ne p [] with rfl | hne
      · exact Int.le_refl 0
      · exact Int.le_of_lt (hpos p hp hlt (Or.inr hne))
  obtain ⟨a, ha, ho, hd⟩ := Assembly.applyAll_of_height rfl hnonneg hpos
  rw [hstart, hzero] at hd
  have hopened : a.opened = [] := List.length_eq_zero_iff.mp (Int.ofNat_eq_zero.mp hd)
  exact ⟨_, ofEvents_eq_ok_iff.mpr ⟨a, ha, Assembly.finish_eq_ok_iff.mpr ⟨ho, hopened, rfl⟩⟩⟩

/-- A one-rooted stream is accepted. -/
theorem exists_ofEvents_of_oneRooted (h : OneRooted es) (next : NodeId) :
    ∃ t, (ofEvents es next).1 = .ok t :=
  exists_ofEvents_of_upright h.upright h.height_eq next

/-- The tour of a tree is empty or one-rooted. -/
theorem tour_eq_nil_or_oneRooted (t : Tree) : t.tour = [] ∨ OneRooted t.tour := by
  rw [tour]
  cases t.shape? with
  | none => exact Or.inl rfl
  | some s =>
    refine Or.inr ?_
    rw [Option.toList_some, Shape.tourAll_singleton]
    exact s.oneRooted_tour

/-- **Streams of events and trees correspond.** The streams that describe a tree are the empty one
and those that go round a single node; the tree retells the stream, under the next identities; and
every shape is described by its tour. -/
theorem ofEvents_correspondence (next : NodeId) :
    (∀ es, (∃ t, (ofEvents es next).1 = .ok t) ↔ es = [] ∨ OneRooted es) ∧
    (∀ es t, (ofEvents es next).1 = .ok t →
      t.Retells es next ∧ (ofEvents es next).2 = next.shift (entries es).length) ∧
    ∀ s : Shape, ∃ t, (ofEvents s.tour next).1 = .ok t ∧ t.shape? = some s := by
  refine ⟨?_, fun es t h => retells_ofEvents h, ?_⟩
  · intro es
    constructor
    · rintro ⟨t, h⟩
      have htour := (retells_ofEvents h).1.tour_eq
      exact htour ▸ t.tour_eq_nil_or_oneRooted
    · rintro (rfl | h)
      · exact ⟨_, rfl⟩
      · exact exists_ofEvents_of_oneRooted h next
  · intro s
    obtain ⟨t, ht⟩ := exists_ofEvents_of_oneRooted s.oneRooted_tour next
    refine ⟨t, ht, ?_⟩
    have htour : Shape.tourAll t.shape?.toList = Shape.tourAll [s] :=
      (retells_ofEvents ht).1.tour_eq.trans (Shape.tourAll_singleton s).symm
    exact Option.toList_eq_singleton_iff.mp (Shape.tourAll_injective htour)

end Tree

end SyntaxTree
