/-
SyntaxTree/Proofs/Twin.lean

Twins.  Two trees are twins if their nodes correspond one to one, with the same rules,
labels, parents and children, and if corresponding nodes have the same origin or are both
new: identities of their own, given out since the one tree was copied from the other.

Candidates and replacements that are older than the copy cannot tell twins apart.  An origin
that they carry is carried by corresponding nodes or by none, so that they are located at
corresponding nodes (`Paired.locate_cases`), and at every node of a graft the origin is taken
in both trees or in neither (`Paired.map_graft`).  Removals and replacements therefore
succeed or fail alike, and leave twins behind.

The correspondence of the nodes comes from one of branches: both trees spell the same
branch, but for a renumbering `f` of its buds (`Paired`).
-/
import SyntaxTree.Proofs.Alignment
import SyntaxTree.Proofs.Replace

namespace SyntaxTree

open Branch

/-! ### Twin buds -/

/-- A bud under another identity. Its origin follows if it is the identity itself and as new as
`first`. -/
def Bud.twin (first : NodeId) (f : NodeId → NodeId) (v : Bud) : Bud :=
  ⟨f v.id, if v.origin = v.id ∧ first ≤ v.id then f v.id else v.origin, v.rule, v.label⟩

variable {first n₁ n₂ i₁ i₂ o : NodeId} {f f' : NodeId → NodeId} {v : Bud}

theorem Bud.twin_congr (h : f v.id = f' v.id) : v.twin first f = v.twin first f' := by
  rw [twin, twin, h]

/-- A bud older than `first` keeps its origin. -/
theorem Bud.twin_of_lt (h : v.id < first) : v.twin first f = { v with id := f v.id } := by
  rw [twin, if_neg fun hv => NodeId.not_lt_of_le hv.2 h]

/-- Twins agree on the old origins. -/
theorem Bud.origin_twin_eq_iff (ho : o < first) (hf : first ≤ v.id → first ≤ f v.id) :
    (v.twin first f).origin = o ↔ v.origin = o := by
  rw [twin]
  split
  case isTrue hv =>
    -- both origins are new
    constructor
    · rintro rfl
      exact absurd ho (NodeId.not_lt_of_le (hf hv.2))
    · rintro rfl
      exact absurd ho (NodeId.not_lt_of_le (hv.1 ▸ hv.2))
  case isFalse => exact Iff.rfl

/-- A bud with an old origin is grafted alike where the origin is taken in both places or in
neither. -/
theorem Bud.twin_settle {taken₁ taken₂ : List NodeId} (ho : v.origin < first) (hi : first ≤ i₁)
    (hf : f i₁ = i₂) (htaken : v.origin ∈ taken₁ ↔ v.origin ∈ taken₂) :
    (Bud.settle taken₁ { v with id := i₁ }).twin first f = Bud.settle taken₂ { v with id := i₂ } := by
  subst hf
  by_cases h : v.origin ∈ taken₁
  · have h₂ := htaken.mp h
    simp [settle, twin, h, h₂, hi]
  · have h₂ := mt htaken.mpr h
    have hne : v.origin ≠ i₁ := fun e => NodeId.not_lt_of_le hi (e ▸ ho)
    simp [settle, twin, h, h₂, hne]

namespace Tree

/-! ### Twin trees -/

/-- The nodes of `t` correspond one to one to those of `u`. -/
structure TwinsBy (first : NodeId) (f : NodeId → NodeId) (t u : Tree) : Prop where
  bijOn : Set.BijOn f {i | t.contains i = true} {i | u.contains i = true}
  root_eq : u.root = t.root.map f
  /-- Corresponding nodes are alike and have corresponding relatives. They have the same origin, or
  are both new origins. -/
  node : ∀ n ∈ t.nodeList, ∃ m, u.node? (f n.id) = some m ∧ m.rule = n.rule ∧ m.label = n.label ∧
    m.parent = n.parent.map f ∧ m.children = n.children.map f ∧
    (m.origin = n.origin ∨
      n.origin = n.id ∧ m.origin = m.id ∧ first ≤ n.id ∧ first ≤ m.id)

/-- The trees have the same nodes under different identities, and differ in their origins only where
these were given out at `first` or later. -/
def Twins (first : NodeId) (t u : Tree) : Prop := ∃ f, t.TwinsBy first f u

/-- The trees spell the same branch, under identities that correspond by `f`. -/
structure Paired (first : NodeId) (f : NodeId → NodeId) (bs : List Branch) (t u : Tree) : Prop where
  left : t.Spells bs
  right : u.Spells (bs.map (Branch.map (Bud.twin first f)))
  /-- New nodes correspond to new nodes. -/
  new : ∀ v ∈ bs.flatMap buds, first ≤ v.id → first ≤ f v.id

variable {t u candidate r : Tree} {bs : List Branch} {c : Place} {s b : Branch} {m n : Node}

namespace Paired

/-- Twins are aligned. -/
theorem alignedBy (h : Paired first f bs t u) : t.AlignedBy f u :=
  h.left.alignedBy h.right (alignedBy_map (h := Bud.twin first f) (fun _ => rfl) bs)

theorem twinsBy (h : Paired first f bs t u) : t.TwinsBy first f u := by
  refine ⟨h.alignedBy.bijOn, h.alignedBy.root_eq, fun n hn => ?_⟩
  have hmem := h.left.perm.mem_iff.mp hn
  have hnodes := grove_map (g := Bud.twin first f) (f := f) (fun _ => rfl) none bs
  have htwin : ((n.bud.twin first f).node (n.parent.map f) (n.children.map f)) ∈ u.nodeList := by
    rw [h.right.perm.mem_iff]
    exact hnodes ▸ List.mem_map_of_mem hmem
  have hbud : n.bud ∈ bs.flatMap buds := h.left.mem_buds_iff.mpr ⟨n, hn, rfl⟩
  refine ⟨_, h.right.toCoherent.node?_id htwin, rfl, rfl, rfl, rfl, ?_⟩
  show (n.bud.twin first f).origin = n.origin ∨ _ ∧ (n.bud.twin first f).origin = f n.id ∧ _
  rw [Bud.twin]
  split
  case isTrue hv => exact Or.inr ⟨hv.1, rfl, hv.2, h.new n.bud hbud hv.2⟩
  case isFalse => exact Or.inl rfl

theorem twins (h : Paired first f bs t u) : t.Twins first u := ⟨f, h.twinsBy⟩

/-! ### Looking a candidate up -/

/-- Every node of the twin corresponds to a node. -/
theorem exists_node (h : Paired first f bs t u) (hm : m ∈ u.nodeList) :
    ∃ n ∈ t.nodeList, m.bud = n.bud.twin first f := by
  have hbud := h.right.mem_buds_iff.mpr ⟨m, hm, rfl⟩
  rw [flatMap_buds_map] at hbud
  obtain ⟨v, hv, e⟩ := List.mem_map.mp hbud
  obtain ⟨n, hn, rfl⟩ := h.left.mem_buds_iff.mp hv
  exact ⟨n, hn, e.symm⟩

/-- **An old candidate** is located at corresponding nodes, or in neither tree. -/
theorem locate_cases (h : Paired first f bs t u)
    (hold : ∀ o, candidate.candidateOrigin = some o → o < first) :
    (∃ e, t.locate candidate = .error e ∧ u.locate candidate = .error e) ∨
    ∃ c s, bs = Place.plug c [s] ∧ t.locate candidate = .ok s.id ∧
      u.locate candidate = .ok (s.map (Bud.twin first f)).id := by
  -- both nodes carry the origin of the candidate, or neither does
  have agree : ∀ n ∈ t.nodeList, ∀ o, candidate.candidateOrigin = some o →
      ((n.bud.twin first f).origin = o ↔ n.origin = o) := fun n hn o ho =>
    Bud.origin_twin_eq_iff (hold o ho) (h.new _ (h.left.mem_buds_iff.mpr ⟨n, hn, rfl⟩))
  cases hn : t.counterpart? candidate with
  | none =>
    have hm : u.counterpart? candidate = none := by
      rw [h.right.counterpart?_eq_none_iff]
      intro m hm ho
      obtain ⟨n, hn', e⟩ := h.exists_node hm
      have horigin : m.origin = (n.bud.twin first f).origin := congrArg Bud.origin e
      refine h.left.counterpart?_eq_none_iff.mp hn n hn' ?_
      rw [(agree n hn' _ ho).mp horigin.symm, ho]
    refine Or.inl ⟨.notFound candidate.candidateOrigin, ?_, ?_⟩
    · rw [h.left.locate_eq, hn]
    · rw [h.right.locate_eq, hm]
  | some n =>
    obtain ⟨hn', ho⟩ := h.left.counterpart?_eq_some_iff.mp hn
    obtain ⟨c, s, rfl, rfl⟩ := h.left.exists_plug_eq hn'
    refine Or.inr ⟨c, s, rfl, h.left.locate_eq_ok_iff.mpr ⟨_, hn, rfl⟩, ?_⟩
    have hright := h.right
    rw [Place.map_plug, List.map_singleton] at hright
    refine hright.locate_id ?_
    rw [ho]
    refine congrArg some (Eq.symm ?_)
    show (s.map (Bud.twin first f)).bud.origin = _
    rw [bud_map]
    exact (agree _ hn' _ ho).mpr rfl

/-! ### Removing -/

/-- Twins that are cut in corresponding places make twins of what is cut out and of what is left. -/
theorem detach (h : Paired first f (c.plug [s]) t u) :
    Paired first f [s] (t.detach s.id).removed
      (u.detach (s.map (Bud.twin first f)).id).removed ∧
    Paired first f (c.plug []) (t.detach s.id).rest
      (u.detach (s.map (Bud.twin first f)).id).rest := by
  have hright := h.right
  rw [Place.map_plug, List.map_singleton] at hright
  have hnew : ∀ {cs : List Branch}, (∀ v ∈ cs.flatMap buds, v ∈ c.buds ++ [s].flatMap buds) →
      ∀ v ∈ cs.flatMap buds, first ≤ v.id → first ≤ f v.id := fun hcs v hv =>
    h.new v ((c.perm_buds_plug [s]).mem_iff.mpr (hcs v hv))
  refine ⟨⟨h.left.spells_removed, hright.spells_removed, hnew ?_⟩,
    ⟨h.left.spells_rest, ?_, hnew ?_⟩⟩
  · exact fun v hv => List.mem_append_right _ hv
  · rw [Place.map_plug]
    exact hright.spells_rest
  · intro v hv
    rw [(c.perm_buds_plug []).mem_iff, List.flatMap_nil, List.append_nil] at hv
    exact List.mem_append_left _ hv

/-- **Removing by an old candidate** fails in both twins, or leaves twins behind. -/
theorem remove (h : Paired first f bs t u)
    (hold : ∀ o, candidate.candidateOrigin = some o → o < first) :
    (∃ e, t.remove candidate = .error e ∧ u.remove candidate = .error e) ∨
    ∃ x y, t.remove candidate = .ok x ∧ u.remove candidate = .ok y ∧
      x.removed.Twins first y.removed ∧ ∃ bs', Paired first f bs' x.rest y.rest := by
  rcases h.locate_cases hold with ⟨e, ht, hu⟩ | ⟨c, s, rfl, ht, hu⟩
  · refine Or.inl ⟨e, ?_, ?_⟩
    · rw [Tree.remove, ht]; rfl
    · rw [Tree.remove, hu]; rfl
  · obtain ⟨hremoved, hrest⟩ := h.detach
    exact Or.inr ⟨_, _, remove_eq_ok_iff.mpr ⟨_, ht, rfl⟩, remove_eq_ok_iff.mpr ⟨_, hu, rfl⟩,
      hremoved.twins, _, hrest⟩

end Paired

/-! ### Replacing -/

/-- The survivors of a cut carry the origins around its place. -/
theorem Spells.mem_origins_survivors (h : t.Spells (c.plug [s])) :
    o ∈ (t.survivors s).map Node.origin ↔ ∃ v ∈ c.buds, v.origin = o := by
  have hperm := (h.perm_survivors.map Node.bud).trans (c.perm_map_bud [s.id])
  have horigins : (t.survivors s).map Node.origin
      = ((t.survivors s).map Node.bud).map Bud.origin := by rw [List.map_map]; rfl
  rw [horigins, (hperm.map Bud.origin).mem_iff, List.mem_map]

/-- The correspondence after a graft that has used up the identities from `n₁` on in one tree, and
those from `n₂` on in the other. -/
def regraft (n₁ n₂ : NodeId) (f : NodeId → NodeId) (i : NodeId) : NodeId :=
  if i < n₁ then f i else n₂.shift (i.val - n₁.val)

theorem regraft_of_lt {i : NodeId} (h : i < n₁) : regraft n₁ n₂ f i = f i := if_pos h

theorem regraft_shift (k : Nat) : regraft n₁ n₂ f (n₁.shift k) = n₂.shift k := by
  rw [regraft, if_neg (NodeId.not_lt_of_le (n₁.le_shift k))]
  exact congrArg n₂.shift (Nat.add_sub_cancel_left n₁.val k)

namespace Paired

/-- What is grafted into twins in corresponding places corresponds. -/
theorem map_graft (h : Paired first f (c.plug [s]) t u) (hb : ∀ v ∈ b.buds, v.origin < first)
    (h₁ : first ≤ n₁) :
    (t.graft s (b.copied n₁)).map (Bud.twin first (regraft n₁ n₂ f))
      = u.graft (s.map (Bud.twin first f)) (b.copied n₂) := by
  have hright := h.right
  rw [Place.map_plug, List.map_singleton] at hright
  rw [graft, graft, copied, copied, map_map, map_map, map_map]
  refine map_congr fun v hv => ?_
  refine Bud.twin_settle (hb v hv) (NodeId.le_trans h₁ (n₁.le_shift _)) (regraft_shift _) ?_
  -- an old origin is taken in both trees or in neither
  rw [h.left.mem_origins_survivors, hright.mem_origins_survivors, Place.buds_map]
  simp only [List.mem_map, exists_exists_and_eq_and]
  refine exists_congr fun w => and_congr_right fun hw => (Bud.origin_twin_eq_iff (hb v hv) ?_).symm
  exact h.new w ((c.perm_buds_plug [s]).mem_iff.mpr (List.mem_append_left _ hw))

/-- Twins that are grafted in corresponding places make twins. -/
theorem planted (h : Paired first f (c.plug [s]) t u) (ht : t.Sound n₁) (hu : u.Sound n₂)
    (hr : r.Sound first) (hb : r.Spells [b]) (h₁ : first ≤ n₁) (h₂ : first ≤ n₂) :
    Paired first (regraft n₁ n₂ f) (c.plug [t.graft s (b.copied n₁)])
      (t.planted s.id (r.copySubtree b.id n₁))
      (u.planted (s.map (Bud.twin first f)).id (r.copySubtree b.id n₂)) := by
  have hright := h.right
  rw [Place.map_plug, List.map_singleton] at hright
  have hold : ∀ v ∈ c.buds, v ∈ (c.plug [s]).flatMap buds ∧ v.id < n₁ := by
    intro v hv
    have hmem := (c.perm_buds_plug [s]).mem_iff.mpr (List.mem_append_left _ hv)
    exact ⟨hmem, ht.lt_of_mem_buds h.left hmem⟩
  have horigins : ∀ v ∈ b.buds, v.origin < first := fun v hv =>
    hr.lt_of_mem_origins hb.atTop (List.mem_map_of_mem hv)
  have hplace : c.map (Bud.twin first (regraft n₁ n₂ f)) = c.map (Bud.twin first f) :=
    Place.map_congr fun v hv => Bud.twin_congr (regraft_of_lt (hold v hv).2)
  refine ⟨(ht.scion (hr.mono h₁) hb).spells_planted h.left, ?_, ?_⟩
  · rw [Place.map_plug, hplace, List.map_singleton, h.map_graft horigins h₁]
    exact (hu.scion (hr.mono h₂) hb).spells_planted hright
  · intro v hv hle
    rw [(c.perm_buds_plug _).mem_iff, List.mem_append, List.flatMap_singleton] at hv
    rcases hv with hv | hv
    · rw [regraft_of_lt (hold v hv).2]
      exact h.new v (hold v hv).1 hle
    · -- the new nodes are numbered from `n₁` on
      have hid : v.id ∈ (t.graft s (b.copied n₁)).ids := List.mem_map_of_mem hv
      rw [hb.ids_graft_copied] at hid
      rw [regraft, if_neg (NodeId.not_lt_of_le (NodeId.mem_block.mp hid).1)]
      exact NodeId.le_trans h₂ (n₂.le_shift _)

/-- **Replacing by an old candidate and an old replacement** fails in both twins, or leaves twins
behind. -/
theorem replace (h : Paired first f bs t u) (ht : t.Sound n₁) (hu : u.Sound n₂)
    (hr : r.Sound first) (h₁ : first ≤ n₁) (h₂ : first ≤ n₂)
    (hold : ∀ o, candidate.candidateOrigin = some o → o < first) :
    (∃ e, t.replace candidate r n₁ = .error e ∧ u.replace candidate r n₂ = .error e) ∨
    ∃ x y, t.replace candidate r n₁ = .ok x ∧ u.replace candidate r n₂ = .ok y ∧
      ∃ f' bs', Paired first f' bs' x.result y.result := by
  rcases h.locate_cases hold with ⟨e, htl, hul⟩ | ⟨c, s, rfl, htl, hul⟩
  · refine Or.inl ⟨e, ?_, ?_⟩
    · rw [Tree.replace, htl]; rfl
    · rw [Tree.replace, hul]; rfl
  · cases hroot : r.rootNode? with
    | none =>
      have herror : r.rootNode = .error .emptyTree := by rw [rootNode, hroot]
      refine Or.inl ⟨.emptyTree, ?_, ?_⟩
      · rw [Tree.replace, htl, herror]; rfl
      · rw [Tree.replace, hul, herror]; rfl
    | some n =>
      obtain ⟨i, hi, -⟩ := Option.bind_eq_some_iff.mp hroot
      obtain ⟨b, hb, -⟩ := hr.exists_branch hi
      exact Or.inr ⟨_, _, hb.replace_eq htl, hb.replace_eq hul, _, _,
        h.planted ht hu hr hb h₁ h₂⟩

end Paired

/-! ### Copies -/

/-- **A copy is a twin** of its original. -/
theorem Sound.exists_paired_copyOf {next : NodeId} (h : t.Sound next) (hle : next ≤ first) :
    ∃ f bs, Paired first f bs t (t.copyOf next) := by
  obtain ⟨bs, hs⟩ := h.spells
  have hlt : ∀ v ∈ bs.flatMap buds, v.id < first := fun v hv =>
    NodeId.lt_of_lt_of_le (h.lt_of_mem_buds hs hv) hle
  have hnew : ∀ f : NodeId → NodeId, ∀ v ∈ bs.flatMap buds, first ≤ v.id → first ≤ f v.id :=
    fun f v hv hle => absurd (hlt v hv) (NodeId.not_lt_of_le hle)
  cases hr : t.root with
  | none =>
    obtain rfl := hs.root_eq_none_iff.mp hr
    refine ⟨id, [], hs, ?_, hnew id⟩
    rw [Tree.copyOf, hr]
    exact spells_empty.rename t.name
  | some r =>
    obtain ⟨b, rfl, rfl⟩ := hs.eq_singleton hr
    refine ⟨b.copiedId next, [b], hs, ?_, hnew _⟩
    have htwin : b.map (Bud.twin first (b.copiedId next)) = b.copied next := by
      refine map_congr fun v hv => Bud.twin_of_lt (hlt v ?_)
      rwa [List.flatMap_singleton]
    rw [Tree.copyOf, hr, List.map_singleton, htwin]
    exact (hs.atTop.copySubtree next).rename t.name

end Tree

end SyntaxTree
