/-
SyntaxTree/Proofs/Tour.lean

Tours of shapes.  The tour of a shape is the stream of events of a depth-first walk round
it: the node is entered, the shapes below it are toured from left to right, and the node
is left again.

Nothing is lost on a tour (`tourAll_injective`), and whether a stream is the tour of a
single shape can be told by counting.  `height es` is the number of nodes that `es` leaves
open; a stream is `OneRooted` if it begins with an enter, ends with an exit, and its
height, which never falls below zero, is back at zero at the end and not before
(`oneRooted_tour`).  That the converse holds too is shown with the assembly of trees,
which works for every such stream.
-/
import SyntaxTree.Event
import SyntaxTree.Proofs.Branch

namespace SyntaxTree

/-! ### Heights of streams -/

namespace Event

/-- By how much an event changes the number of open nodes. -/
def rise : Event → Int
  | enter _ _ => 1
  | exit => -1

/-- The number of nodes that a stream leaves open: its enters less its exits. -/
def height : List Event → Int
  | [] => 0
  | e :: es => e.rise + height es

/-- The rules and labels of the nodes that a stream enters, in order. -/
def entries : List Event → List (String × String)
  | [] => []
  | enter rule label :: es => (rule, label) :: entries es
  | exit :: es => entries es

@[simp] theorem rise_enter (rule label : String) : (enter rule label).rise = 1 := rfl

@[simp] theorem rise_exit : exit.rise = -1 := rfl

@[simp] theorem height_nil : height [] = 0 := rfl

@[simp] theorem height_cons (e : Event) (es : List Event) :
    height (e :: es) = e.rise + height es := rfl

@[simp] theorem height_append (es fs : List Event) :
    height (es ++ fs) = height es + height fs := by
  induction es with
  | nil => simp
  | cons e es ih => simp [ih, Int.add_assoc]

@[simp] theorem entries_append (es fs : List Event) :
    entries (es ++ fs) = entries es ++ entries fs := by
  induction es with
  | nil => rfl
  | cons e es ih => cases e <;> simp [entries, ih]

/-- Every exit has its enter, and every enter its exit. -/
structure Balanced (es : List Event) : Prop where
  height_eq : height es = 0
  nonneg : ∀ p, p <+: es → 0 ≤ height p

/-- The stream goes round a single node of top level: it enters it first, and comes back to
height zero no sooner than with its last event, which leaves it. -/
structure OneRooted (es : List Event) : Prop extends Balanced es where
  bracketed : ∃ rule label inner, es = enter rule label :: (inner ++ [exit])
  last_eq : ∀ p, p <+: es → p ≠ [] → height p = 0 → p = es

/-- Before the end, the stream is above height zero. -/
theorem OneRooted.height_pos {es : List Event} (h : OneRooted es) {p : List Event}
    (hp : p <+: es) (hne : p ≠ []) (hlt : p ≠ es) : 0 < height p := by
  have hnonneg := h.nonneg p hp
  have hzero : height p ≠ 0 := fun hz => hlt (h.last_eq p hp hne hz)
  omega

/-- No beginning of the stream, short of the whole, is back at height zero. -/
def Upright (es : List Event) : Prop := ∀ p, p <+: es → p ≠ [] → p ≠ es → 0 < height p

theorem OneRooted.upright {es : List Event} (h : OneRooted es) : Upright es := fun _ hp hne hlt =>
  h.height_pos hp hne hlt

end Event

open Event

/-! ### Tours -/

namespace Shape

mutual

/-- The events of a walk round a shape. -/
def tour : Shape → List Event
  | node rule label below => .enter rule label :: (tourAll below ++ [.exit])

/-- The events of a walk round several shapes, one after another. -/
def tourAll : List Shape → List Event
  | [] => []
  | s :: ss => tour s ++ tourAll ss

end

theorem tourAll_singleton (s : Shape) : tourAll [s] = s.tour := by
  rw [tourAll, tourAll, List.append_nil]

theorem tourAll_append (ss ts : List Shape) : tourAll (ss ++ ts) = tourAll ss ++ tourAll ts := by
  induction ss with
  | nil => rfl
  | cons s ss ih => rw [List.cons_append, tourAll, tourAll, ih, List.append_assoc]

/-! ### Nothing is lost on a tour -/

mutual

/-- Where a tour ends can be told from the tour. -/
theorem tour_append_inj : ∀ {s s' : Shape} {r r' : List Event},
    s.tour ++ r = s'.tour ++ r' → s = s' ∧ r = r'
  | node rule label below, node rule' label' below', r, r', h => by
    rw [tour, tour] at h
    simp only [List.cons_append, List.append_assoc, List.cons.injEq, enter.injEq] at h
    obtain ⟨⟨rfl, rfl⟩, h⟩ := h
    obtain ⟨rfl, rfl⟩ := tourAll_append_inj h
    exact ⟨rfl, rfl⟩

/-- A row of tours ends with the first exit that belongs to none of them. -/
theorem tourAll_append_inj : ∀ {ss ss' : List Shape} {r r' : List Event},
    tourAll ss ++ ([exit] ++ r) = tourAll ss' ++ ([exit] ++ r') → ss = ss' ∧ r = r'
  | [], [], r, r', h => ⟨rfl, by simpa [tourAll] using h⟩
  | [], node _ _ _ :: _, r, r', h => by simp [tourAll, tour] at h
  | node _ _ _ :: _, [], r, r', h => by simp [tourAll, tour] at h
  | s :: ss, s' :: ss', r, r', h => by
    rw [tourAll, tourAll, List.append_assoc, List.append_assoc] at h
    obtain ⟨rfl, hrest⟩ := tour_append_inj h
    obtain ⟨rfl, rfl⟩ := tourAll_append_inj hrest
    exact ⟨rfl, rfl⟩

end

/-- **Different shapes have different tours.** -/
theorem tourAll_injective {ss ss' : List Shape} (h : tourAll ss = tourAll ss') : ss = ss' :=
  (tourAll_append_inj (congrArg (· ++ ([exit] ++ [])) h)).1

/-! ### The height on a tour -/

mutual

theorem height_tour : ∀ s : Shape, height s.tour = 0
  | node rule label below => by
    rw [tour, height_cons, height_append, height_tourAll below]; rfl

theorem height_tourAll : ∀ ss : List Shape, height (tourAll ss) = 0
  | [] => rfl
  | s :: ss => by rw [tourAll, height_append, height_tour s, height_tourAll ss]; rfl

end

/-- A beginning of two streams in a row is one of the first, or goes on into the second. -/
theorem prefix_append_cases {α : Type} {p l r : List α} (h : p <+: l ++ r) :
    p <+: l ∨ ∃ q, q <+: r ∧ p = l ++ q := by
  rcases List.prefix_or_prefix_of_prefix h (List.prefix_append l r) with hl | ⟨q, rfl⟩
  · exact Or.inl hl
  · exact Or.inr ⟨q, (List.prefix_append_right_inj l).mp h, rfl⟩

mutual

/-- On a tour the node is open until the last event. -/
theorem height_pos_of_prefix_tour : ∀ {s : Shape} {p : List Event}, p <+: s.tour → p ≠ [] →
    p = s.tour ∨ 0 < height p
  | node rule label below, p, h, hne => by
    rw [tour] at h ⊢
    rcases List.prefix_cons_iff.mp h with rfl | ⟨q, rfl, hq⟩
    · exact absurd rfl hne
    · rcases List.prefix_concat_iff.mp hq with rfl | hq
      · exact Or.inl rfl
      · have hin := height_nonneg_of_prefix_tourAll hq
        refine Or.inr ?_
        rw [height_cons, rise_enter]
        omega

theorem height_nonneg_of_prefix_tourAll : ∀ {ss : List Shape} {p : List Event},
    p <+: tourAll ss → 0 ≤ height p
  | [], p, h => by
    obtain rfl := List.prefix_nil.mp h
    exact Int.le_of_eq height_nil.symm
  | s :: ss, p, h => by
    rw [tourAll] at h
    rcases prefix_append_cases h with hs | ⟨q, hq, rfl⟩
    · rcases eq_or_ne p [] with rfl | hne
      · exact Int.le_refl 0
      · rcases height_pos_of_prefix_tour hs hne with rfl | hpos
        · exact Int.le_of_eq (height_tour s).symm
        · exact Int.le_of_lt hpos
    · have hrest := height_nonneg_of_prefix_tourAll hq
      rw [height_append, height_tour]
      omega

end

/-- **A tour of a single shape** is one-rooted. -/
theorem oneRooted_tour (s : Shape) : OneRooted s.tour := by
  have hpos : ∀ p, p <+: s.tour → p ≠ [] → p = s.tour ∨ 0 < height p := fun p =>
    height_pos_of_prefix_tour
  refine ⟨⟨height_tour s, ?_⟩, ?_, ?_⟩
  · intro p hp
    rw [← tourAll_singleton] at hp
    exact height_nonneg_of_prefix_tourAll hp
  · obtain ⟨rule, label, below⟩ := s
    exact ⟨rule, label, tourAll below, by rw [tour]⟩
  · intro p hp hne hzero
    rcases hpos p hp hne with rfl | hlt
    · rfl
    · omega

end Shape

/-! ### Tours of branches -/

open Shape Branch

theorem Branch.shape_grow (v : Bud) (bs : List Branch) :
    (grow v bs).shape = .node v.rule v.label (bs.map shape) := by
  rw [shape, fold_grow]

/-- The tours of branches, in which identities and origins do not show. -/
def Branch.toursOf (bs : List Branch) : List Event := tourAll (bs.map shape)

theorem Branch.toursOf_nil : toursOf [] = [] := rfl

theorem Branch.toursOf_grow (v : Bud) (bs : List Branch) :
    toursOf [grow v bs] = .enter v.rule v.label :: (toursOf bs ++ [.exit]) := by
  rw [toursOf, List.map_singleton, tourAll_singleton, shape_grow, tour]; rfl

theorem Branch.toursOf_append (bs cs : List Branch) :
    toursOf (bs ++ cs) = toursOf bs ++ toursOf cs := by
  rw [toursOf, List.map_append, tourAll_append]; rfl

mutual

/-- On a tour the nodes are entered in pre-order. -/
theorem Branch.entries_tour : ∀ b : Branch,
    entries b.shape.tour = b.buds.map fun v => (v.rule, v.label)
  | grow v bs => by
    rw [shape_grow, tour, entries, entries_append, ← toursOf, entries_toursOf bs, buds_grow,
      List.map_cons, entries, entries, List.append_nil]

theorem Branch.entries_toursOf : ∀ bs : List Branch,
    entries (toursOf bs) = (bs.flatMap buds).map fun v => (v.rule, v.label)
  | [] => rfl
  | b :: bs => by
    rw [toursOf, List.map_cons, tourAll, entries_append, entries_tour b, List.flatMap_cons,
      List.map_append, ← toursOf, entries_toursOf bs]

end

end SyntaxTree
