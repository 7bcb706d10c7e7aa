/-
SyntaxTree/Proofs/Cache.lean

A cache under any history of changes.  Values are stored, dropped, changed in place and handed
up from an only child, in any order and for any nodes; what the cache then lists is told from
the history alone.

Two things are told of a history, neither with a list of entries.  `lastWritten` is the value that
was last written under an identity and not dropped since.  `PresentSince cs k i` says that the
change at position `k` is the one that last made `i` present: nothing was there before it, and
something has been there ever since.  The listing has exactly those values, in the order of these
positions (`chronicle_run`).

The order is carried by one law for all changes (`follows_apply`): what is still present keeps its
place among the others, and what has just become present, one identity at most, is behind them.
-/
import Mathlib.Data.List.Induction
import Mathlib.Logic.Function.Basic
import SyntaxTree.Evaluation.Cache
import SyntaxTree.Proofs.OrderedMap

namespace SyntaxTree

namespace Cache

variable {ν : Type}

/-! ### Changes -/

/-- What can be done to a cache. -/
inductive Change (ν : Type) where
  | store (id : NodeId) (v : ν)
  | take (id : NodeId)
  /-- Changes a value where it stands. -/
  | update (id : NodeId) (f : ν → ν)
  /-- Hands the value of an only child up. -/
  | propagate (n : Node)

/-- What a change hands back. -/
inductive Reply (ν : Type) where
  | value (v : Option ν)
  /-- Whether a value was handed up. -/
  | handedUp (done : Bool)

/-- A change, and the cache after it. -/
def apply (c : Cache ν) : Change ν → Reply ν × Cache ν
  | .store i v => (.value (c.store i v).1, (c.store i v).2)
  | .take i => (.value (c.take i).1, (c.take i).2)
  | .update i f => (.value (c.update i f).1, (c.update i f).2)
  | .propagate n => (.handedUp (c.propagate n).1, (c.propagate n).2)

/-- Changes one after another, made to an empty cache: what they hand back, and the cache after
them. -/
def run (cs : List (Change ν)) : List (Reply ν) × Cache ν :=
  cs.foldl (fun p x => (p.1 ++ [(p.2.apply x).1], (p.2.apply x).2)) ([], .empty)

/-! ### What is told of a history -/

/-- The identity whose value a change is about. -/
def Change.target : Change ν → NodeId
  | .store i _ | .take i | .update i _ => i
  | .propagate n => n.id

/-- The value that a node can be handed, which is that of its only child. -/
def offered (m : NodeId → Option ν) (n : Node) : Option ν :=
  match n.children with
  | [child] => m child
  | _ => none

/-- The value that a change leaves under its identity. -/
def Change.written (m : NodeId → Option ν) : Change ν → Option ν
  | .store _ v => some v
  | .take _ => none
  | .update i f => (m i).map f
  | .propagate n => (offered m n).or (m n.id)

/-- What a change hands back. -/
def Change.reply (m : NodeId → Option ν) : Change ν → Reply ν
  | .store i _ | .take i => .value (m i)
  | .update i f => .value ((m i).map f)
  | .propagate n => .handedUp (offered m n).isSome

/-- The values after a change. -/
def Change.effect (x : Change ν) (m : NodeId → Option ν) : NodeId → Option ν :=
  Function.update m x.target (x.written m)

/-- The value that was last written under an identity and not dropped since. -/
def lastWritten (cs : List (Change ν)) : NodeId → Option ν :=
  cs.foldl (fun m x => x.effect m) fun _ => none

/-- The change at position `k` is the one that last made the identity present: there was no value
before it, and there has been one ever since. -/
def PresentSince (cs : List (Change ν)) (k : Nat) (i : NodeId) : Prop :=
  k < cs.length ∧ lastWritten (cs.take k) i = none ∧
    ∀ j, k < j → j ≤ cs.length → lastWritten (cs.take j) i ≠ none

/-- What is to be said of the replies `rs` to some changes and of the cache `c` after them. -/
structure Chronicle (cs : List (Change ν)) (rs : List (Reply ν)) (c : Cache ν) : Prop where
  /-- Every identity is listed once. -/
  nodup : c.keys.Nodup
  /-- The values listed are those last written. -/
  listed : ∀ i v, (i, v) ∈ c.entries ↔ lastWritten cs i = some v
  /-- Whatever is listed became present by one of the changes, and has been so since. -/
  since : ∀ i ∈ c.keys, ∃! k, PresentSince cs k i
  /-- The listing has the order in which these changes were made. -/
  order : c.keys.Pairwise fun i j =>
    ∀ k l, PresentSince cs k i → PresentSince cs l j → k < l
  /-- Lookups agree with the listing. -/
  get?_iff : ∀ i v, c.get? i = some v ↔ (i, v) ∈ c.entries
  contains_iff : ∀ i, c.contains i = true ↔ i ∈ c.keys
  size_eq : c.size = c.entries.length
  isEmpty_iff : c.isEmpty = true ↔ c.entries = []
  /-- Every change hands back what its rule says of the values before it. -/
  replies : rs.length = cs.length ∧ ∀ (k : Nat) (x : Change ν), cs[k]? = some x →
    rs[k]? = some (x.reply (lastWritten (cs.take k)))
  /-- Writing under an identity that is present moves nothing. -/
  overwrite : ∀ x : Change ν, x.target ∈ c.keys → (∀ i, x ≠ .take i) →
    (c.apply x).2.keys = c.keys
  /-- Dropping reorders nothing. -/
  drop : ∀ i, (c.apply (.take i)).2.keys = c.keys.filter fun j => j ≠ i
  /-- What is dropped and stored again goes to the end. -/
  again : ∀ i v, ((c.apply (.take i)).2.apply (.store i v)).2.keys
    = (c.keys.filter fun j => j ≠ i) ++ [i]
  /-- The value of an only child is handed up, if there is one, -/
  handed : ∀ (n : Node) (child : NodeId) (v : ν), n.children = [child] → (child, v) ∈ c.entries →
    c.propagate n = (true, c.insert n.id v)
  /-- and otherwise nothing happens. -/
  unhanded : ∀ n : Node, (¬ ∃ child, n.children = [child] ∧ child ∈ c.keys) →
    c.propagate n = (false, c)

/-! ### One change -/

theorem offered_eq_some_iff {m : NodeId → Option ν} {n : Node} {v : ν} :
    offered m n = some v ↔ ∃ child, n.children = [child] ∧ m child = some v := by
  unfold offered
  split
  case h_1 child hchild => simp [hchild]
  case h_2 hchildren => exact ⟨nofun, fun ⟨child, hchild, _⟩ => absurd hchild (hchildren child)⟩

/-- Handing up is storing what the only child offers. -/
theorem propagate_eq (c : Cache ν) (n : Node) : c.propagate n =
    match offered c.get? n with
    | some v => (true, c.insert n.id v)
    | none => (false, c) := by
  unfold propagate offered
  split
  · split <;> simp_all
  · split <;> simp_all

/-- **The values after a change.** -/
theorem get?_apply (c : Cache ν) (x : Change ν) : (c.apply x).2.get? = x.effect c.get? := by
  funext j
  rw [Change.effect, Function.update_apply]
  cases x with
  | store i v => exact OrderedMap.get?_insert c i j v
  | take i => exact OrderedMap.get?_erase c i j
  | update i f =>
    show (c.modify i f).get? j = if j = i then (c.get? i).map f else c.get? j
    rw [OrderedMap.get?_modify]
    split
    case isTrue hj => rw [hj]
    case isFalse => rfl
  | propagate n =>
    show (c.propagate n).2.get? j
      = if j = n.id then (offered c.get? n).or (c.get? n.id) else c.get? j
    rw [propagate_eq]
    cases offered c.get? n with
    | some v => exact OrderedMap.get?_insert c n.id j v
    | none =>
      show c.get? j = if j = n.id then c.get? n.id else c.get? j
      split
      case isTrue hj => rw [hj]
      case isFalse => rfl

/-- **What a change hands back.** -/
theorem reply_apply (c : Cache ν) (x : Change ν) : (c.apply x).1 = x.reply c.get? := by
  cases x with
  | store | take | update => rfl
  | propagate n =>
    show Reply.handedUp (c.propagate n).1 = .handedUp (offered c.get? n).isSome
    rw [propagate_eq]
    cases offered c.get? n <;> rfl

/-- One listing may come after another if what is in both has the same order in them, and at most
one identity is new, at the end. -/
inductive Follows (l : List NodeId) : List NodeId → Prop
  | kept {l' : List NodeId} (h : l'.Sublist l) : Follows l l'
  | joined {i : NodeId} (h : i ∉ l) : Follows l (l ++ [i])

theorem follows_insert (c : Cache ν) (i : NodeId) (v : ν) : Follows c.keys (c.insert i v).keys := by
  by_cases hi : i ∈ c.keys
  · rw [OrderedMap.keys_insert_of_mem v hi]
    exact .kept (List.Sublist.refl _)
  · rw [OrderedMap.keys_insert_of_not_mem v hi]
    exact .joined hi

/-- **The order after a change.** -/
theorem follows_apply (c : Cache ν) (x : Change ν) : Follows c.keys (c.apply x).2.keys := by
  cases x with
  | store i v => exact follows_insert c i v
  | take i =>
    show Follows c.keys (c.erase i).keys
    rw [OrderedMap.keys_erase]
    exact .kept List.filter_sublist
  | update i f =>
    show Follows c.keys (c.modify i f).keys
    rw [OrderedMap.keys_modify]
    exact .kept (List.Sublist.refl _)
  | propagate n =>
    show Follows c.keys (c.propagate n).2.keys
    rw [propagate_eq]
    cases offered c.get? n with
    | some v => exact follows_insert c n.id v
    | none => exact .kept (List.Sublist.refl _)

/-- What holds of any two identities in the order of their listing holds of them afterwards, if it
holds of a new one behind an old one. -/
theorem Follows.pairwise {l l' : List NodeId} {R S : NodeId → NodeId → Prop} (h : Follows l l')
    (hl : l.Pairwise R) (hold : ∀ i ∈ l, ∀ j ∈ l, R i j → S i j)
    (hnew : ∀ i ∈ l, ∀ j ∈ l', j ∉ l → S i j) : l'.Pairwise S := by
  have hl' : l.Pairwise S := hl.imp_of_mem fun hi hj => hold _ hi _ hj
  cases h with
  | kept h => exact hl'.sublist h
  | @joined i hi =>
    refine List.pairwise_append.mpr ⟨hl', List.pairwise_singleton S i, fun j hj k hk => ?_⟩
    obtain rfl := List.mem_singleton.mp hk
    exact hnew j hj k (List.mem_append_right _ hk) hi

/-- What is written under an identity that is present moves nothing. -/
theorem keys_apply_of_mem (c : Cache ν) {x : Change ν} (hx : x.target ∈ c.keys)
    (htake : ∀ i, x ≠ .take i) : (c.apply x).2.keys = c.keys := by
  cases x with
  | store i v => exact OrderedMap.keys_insert_of_mem v hx
  | take i => exact absurd rfl (htake i)
  | update i f => exact OrderedMap.keys_modify c i f
  | propagate n =>
    show (c.propagate n).2.keys = c.keys
    rw [propagate_eq]
    cases offered c.get? n with
    | some v => exact OrderedMap.keys_insert_of_mem v hx
    | none => rfl

/-! ### Histories -/

variable {cs : List (Change ν)} {x : Change ν} {i : NodeId} {k l : Nat}

theorem run_concat (cs : List (Change ν)) (x : Change ν) : run (cs ++ [x]) =
    ((run cs).1 ++ [((run cs).2.apply x).1], ((run cs).2.apply x).2) := by
  rw [run, List.foldl_append]
  rfl

theorem lastWritten_concat (cs : List (Change ν)) (x : Change ν) :
    lastWritten (cs ++ [x]) = x.effect (lastWritten cs) := by
  rw [lastWritten, List.foldl_append]
  rfl

/-- **The values after a history.** -/
theorem get?_run (cs : List (Change ν)) : (run cs).2.get? = lastWritten cs := by
  induction cs using List.reverseRecOn with
  | nil => rfl
  | append_singleton cs x ih => rw [run_concat, lastWritten_concat, get?_apply, ih]

theorem mem_keys_run_iff : i ∈ (run cs).2.keys ↔ lastWritten cs i ≠ none := by
  rw [← get?_run, ne_eq, OrderedMap.get?_eq_none_iff, not_not]

theorem nodup_run (cs : List (Change ν)) : (run cs).2.keys.Nodup := by
  induction cs using List.reverseRecOn with
  | nil => exact List.nodup_nil
  | append_singleton cs x ih =>
    rw [run_concat]
    exact (follows_apply _ x).pairwise ih (fun _ _ _ _ h => h) fun i hi j _ hj hij => hj (hij ▸ hi)

theorem replies_run (cs : List (Change ν)) : (run cs).1.length = cs.length ∧
    ∀ (k : Nat) (x : Change ν), cs[k]? = some x →
      (run cs).1[k]? = some (x.reply (lastWritten (cs.take k))) := by
  induction cs using List.reverseRecOn with
  | nil => exact ⟨rfl, fun k x h => nomatch h⟩
  | append_singleton cs y ih =>
    obtain ⟨hlength, hreplies⟩ := ih
    rw [run_concat]
    refine ⟨by simp [hlength], fun k x hx => ?_⟩
    rcases Nat.lt_or_ge k cs.length with hk | hk
    · rw [List.getElem?_append_left hk] at hx
      rw [List.getElem?_append_left (hlength ▸ hk), List.take_append_of_le_length (Nat.le_of_lt hk)]
      exact hreplies k x hx
    · -- the last change
      obtain rfl : k = cs.length := by
        have := (List.getElem?_eq_some_iff.mp hx).1
        simp only [List.length_append, List.length_cons, List.length_nil] at this
        omega
      obtain rfl : y = x := by simpa using hx
      rw [List.take_left, ← hlength, List.getElem?_concat_length, reply_apply, get?_run]

/-! ### The order of a listing -/

/-- Something has been present since one change only. -/
theorem PresentSince.unique (hk : PresentSince cs k i) (hl : PresentSince cs l i) : k = l := by
  obtain ⟨hk, hbefore, hever⟩ := hk
  obtain ⟨hl, hbefore', hever'⟩ := hl
  rcases Nat.lt_trichotomy k l with h | h | h
  · exact absurd hbefore' (hever l h (Nat.le_of_lt hl))
  · exact h
  · exact absurd hbefore (hever' k h (Nat.le_of_lt hk))

theorem PresentSince.lastWritten_ne_none (h : PresentSince cs k i) : lastWritten cs i ≠ none := by
  rw [← List.take_length (l := cs)]
  exact h.2.2 cs.length h.1 (Nat.le_refl _)

/-- What is present stays present since the same change. -/
theorem PresentSince.concat (h : PresentSince cs k i) (hi : lastWritten (cs ++ [x]) i ≠ none) :
    PresentSince (cs ++ [x]) k i := by
  obtain ⟨hk, hbefore, hever⟩ := h
  refine ⟨by simp only [List.length_append]; omega, ?_, fun j hkj hj => ?_⟩
  · rwa [List.take_append_of_le_length (Nat.le_of_lt hk)]
  · rcases Nat.lt_or_ge cs.length j with hlast | hj'
    · rwa [List.take_of_length_le (by simp only [List.length_append, List.length_singleton]; omega)]
    · rw [List.take_append_of_le_length hj']
      exact hever j hkj hj'

/-- What a change makes present has been present since that change. -/
theorem presentSince_length (hi : lastWritten cs i = none)
    (hi' : lastWritten (cs ++ [x]) i ≠ none) : PresentSince (cs ++ [x]) cs.length i := by
  refine ⟨by simp, by rwa [List.take_left], fun j hlast _ => ?_⟩
  rwa [List.take_of_length_le (by simp only [List.length_append, List.length_singleton]; omega)]

/-- Whatever is listed has been present since one of the changes. -/
theorem exists_presentSince (h : i ∈ (run cs).2.keys) : ∃ k, PresentSince cs k i := by
  induction cs using List.reverseRecOn with
  | nil => cases h
  | append_singleton cs x ih =>
    rw [mem_keys_run_iff] at h ih
    by_cases hi : lastWritten cs i = none
    · exact ⟨cs.length, presentSince_length hi h⟩
    · obtain ⟨k, hk⟩ := ih hi
      exact ⟨k, hk.concat h⟩

/-- **The listing has the order** in which its identities became present. -/
theorem pairwise_run (cs : List (Change ν)) : (run cs).2.keys.Pairwise fun i j =>
    ∀ k l, PresentSince cs k i → PresentSince cs l j → k < l := by
  induction cs using List.reverseRecOn with
  | nil => exact .nil
  | append_singleton cs x ih =>
    -- what was listed before has been present since the same change
    have hold : ∀ {i k}, i ∈ (run cs).2.keys → PresentSince (cs ++ [x]) k i →
        PresentSince cs k i := by
      intro i k hi hk
      obtain ⟨k', hk'⟩ := exists_presentSince hi
      exact hk.unique (hk'.concat hk.lastWritten_ne_none) ▸ hk'
    have hmem : ∀ i, i ∈ ((run cs).2.apply x).2.keys ↔ lastWritten (cs ++ [x]) i ≠ none := by
      intro i
      rw [← mem_keys_run_iff, run_concat]
    rw [run_concat]
    refine (follows_apply (run cs).2 x).pairwise ih ?_ ?_
    · exact fun i hi j hj hij k l hk hl => hij k l (hold hi hk) (hold hj hl)
    · -- a new identity is present since the last change, all others were so before it
      intro i hi j hj hnew k l hk hl
      rw [mem_keys_run_iff, not_not] at hnew
      rw [hl.unique (presentSince_length hnew ((hmem j).mp hj))]
      exact (hold hi hk).1

/-! ### The listing -/

theorem mem_entries_iff {c : Cache ν} (hnodup : c.keys.Nodup) {v : ν} :
    (i, v) ∈ c.entries ↔ c.get? i = some v := by
  have htable : c = OrderedMap.tabulate Prod.fst Prod.snd c.entries := by simp [OrderedMap.tabulate]
  rw [htable, OrderedMap.get?_tabulate_eq_some_iff hnodup, ← htable]
  simp

/-- **A cache is an ordered map under every history**: it lists the values last written, each once,
in the order in which they last became present, and everything that is looked up or handed
back agrees with that. -/
theorem chronicle_run (cs : List (Change ν)) : Chronicle cs (run cs).1 (run cs).2 := by
  have hnodup := nodup_run cs
  refine ⟨hnodup, ?_, ?_, pairwise_run cs, ?_, ?_, rfl, ?_, replies_run cs, ?_, ?_, ?_, ?_, ?_⟩
  · -- listed
    intro i v
    rw [mem_entries_iff hnodup, get?_run]
  · -- since
    intro i hi
    obtain ⟨k, hk⟩ := exists_presentSince hi
    exact ⟨k, hk, fun l hl => hl.unique hk⟩
  · exact fun i v => (mem_entries_iff hnodup).symm
  · exact fun i => OrderedMap.contains_iff_mem_keys
  · exact List.isEmpty_iff
  · exact fun x hx htake => keys_apply_of_mem _ hx htake
  · exact fun i => OrderedMap.keys_erase _ i
  · -- again
    intro i v
    have hgone : i ∉ ((run cs).2.erase i).keys := by simp [OrderedMap.keys_erase]
    exact (OrderedMap.keys_insert_of_not_mem v hgone).trans
      (congrArg (· ++ [i]) (OrderedMap.keys_erase _ i))
  · -- handed
    intro n child v hchild hmem
    rw [mem_entries_iff hnodup] at hmem
    rw [propagate_eq, offered_eq_some_iff.mpr ⟨child, hchild, hmem⟩]
  · -- unhanded
    intro n hn
    have hoffered : offered (run cs).2.get? n = none := by
      refine Option.eq_none_iff_forall_ne_some.mpr fun v hv => hn ?_
      obtain ⟨child, hchild, hv⟩ := offered_eq_some_iff.mp hv
      exact ⟨child, hchild, OrderedMap.contains_iff_mem_keys.mp (Option.isSome_of_eq_some hv)⟩
    rw [propagate_eq, hoffered]

/-- A value that is changed stays where it is, and one that is dropped and stored again does not. -/
example : (run [.store ⟨1⟩ "a", .store ⟨2⟩ "b", .take ⟨1⟩, .store ⟨1⟩ "c",
    .update ⟨2⟩ (· ++ "!")]).2.entries = [(⟨2⟩, "b!"), (⟨1⟩, "c")] := by decide

end Cache

end SyntaxTree
