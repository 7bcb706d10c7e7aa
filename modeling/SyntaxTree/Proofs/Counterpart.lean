/-
SyntaxTree/Proofs/Counterpart.lean

Looking a candidate up.  A candidate is recognised by the origin of its root, and there
are two ways from that origin to a live node: `counterpart?` goes through the index and
then the registry, `locate` through the index alone and answers with an error where there
is nothing.  On a coherent tree both lead to the one live node that carries the origin
(`counterpart?_eq_some_iff`, `locate_eq`).
-/
import SyntaxTree.Proofs.Spelling
import SyntaxTree.Tree.Search

namespace SyntaxTree

namespace Tree

namespace Coherent

variable {t candidate : Tree} {n : Node}

/-- **The counterpart of a candidate** is the live node with the origin of its root. -/
theorem counterpart?_eq_some_iff (h : t.Coherent) :
    t.counterpart? candidate = some n ↔
      n ∈ t.nodeList ∧ candidate.candidateOrigin = some n.origin := by
  simp only [counterpart?, Option.bind_eq_some_iff]
  constructor
  · rintro ⟨o, ho, i, hi, hn⟩
    obtain ⟨m, hm, rfl, rfl⟩ := h.origins_get?_eq_some_iff.mp hi
    rw [h.node?_id hm] at hn
    obtain rfl := Option.some.inj hn
    exact ⟨hm, ho⟩
  · rintro ⟨hn, ho⟩
    exact ⟨n.origin, ho, n.id, h.origins_get?_eq_some_iff.mpr ⟨n, hn, rfl, rfl⟩, h.node?_id hn⟩

/-- A candidate has no counterpart if its origin is carried by no live node, or if it has no
origin. -/
theorem counterpart?_eq_none_iff (h : t.Coherent) :
    t.counterpart? candidate = none ↔
      ∀ n ∈ t.nodeList, candidate.candidateOrigin ≠ some n.origin := by
  rw [Option.eq_none_iff_forall_ne_some]
  constructor
  · exact fun hnone n hn ho => hnone n (h.counterpart?_eq_some_iff.mpr ⟨hn, ho⟩)
  · exact fun hnone n hn => hnone n (h.counterpart?_eq_some_iff.mp hn).1
      (h.counterpart?_eq_some_iff.mp hn).2

/-- The index alone leads to the identity of the counterpart. -/
theorem index_eq (h : t.Coherent) :
    candidate.candidateOrigin.bind t.origins.get? = (t.counterpart? candidate).map Node.id := by
  cases hc : t.counterpart? candidate with
  | some n =>
    obtain ⟨hn, ho⟩ := h.counterpart?_eq_some_iff.mp hc
    rw [ho]
    exact h.origins_get?_eq_some_iff.mpr ⟨n, hn, rfl, rfl⟩
  | none =>
    rw [Option.map_none, Option.eq_none_iff_forall_ne_some]
    intro i hi
    obtain ⟨o, ho, hi⟩ := Option.bind_eq_some_iff.mp hi
    obtain ⟨n, hn, rfl, -⟩ := h.origins_get?_eq_some_iff.mp hi
    exact h.counterpart?_eq_none_iff.mp hc n hn ho

/-- **Locating a candidate** finds its counterpart, or names the origin that was not found. -/
theorem locate_eq (h : t.Coherent) :
    t.locate candidate = match t.counterpart? candidate with
      | some n => .ok n.id
      | none => .error (.notFound candidate.candidateOrigin) := by
  rw [locate, h.index_eq]
  cases t.counterpart? candidate <;> rfl

theorem locate_eq_ok_iff (h : t.Coherent) {i : NodeId} :
    t.locate candidate = .ok i ↔ ∃ n, t.counterpart? candidate = some n ∧ n.id = i := by
  rw [h.locate_eq]
  cases t.counterpart? candidate with
  | some n => simp
  | none => simp

end Coherent

namespace Spells

open Branch

variable {t candidate : Tree} {c : Place} {s : Branch}

/-- A candidate with the origin of the node at a place has that node as its counterpart, -/
theorem counterpart?_bottom (h : t.Spells (c.plug [s]))
    (ho : candidate.candidateOrigin = some s.bud.origin) :
    t.counterpart? candidate = some (s.bottom c.parent) :=
  h.counterpart?_eq_some_iff.mpr ⟨h.mem_nodeList (bottom_mem_nodes _ _), ho⟩

/-- and is located at it. -/
theorem locate_id (h : t.Spells (c.plug [s]))
    (ho : candidate.candidateOrigin = some s.bud.origin) : t.locate candidate = .ok s.id :=
  h.locate_eq_ok_iff.mpr ⟨_, h.counterpart?_bottom ho, rfl⟩

end Spells

end Tree

end SyntaxTree
