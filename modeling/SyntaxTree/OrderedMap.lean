/-
SyntaxTree/OrderedMap.lean

Finite maps that remember the order in which their keys arrived.  The registry of a
tree, its provenance index and the value cache of an evaluation are all such maps, and
the order is visible in every listing, so it belongs to the type: a map is the list of
its entries, oldest first.

  * `insert` overwrites in place and appends a new key at the end;
  * `erase` closes the gap and leaves the order of the others alone;
  * `modify` changes one value where it stands.

The main statements are one equation per operation through `get?` (`get?_insert`,
`get?_erase`, `get?_modify`) and one through `keys` (`keys_insert_of_mem`,
`keys_insert_of_not_mem`, `keys_erase`, `keys_modify`).
-/
namespace SyntaxTree

/-- A finite map from `κ` to `ν` with its entries in order of arrival. -/
structure OrderedMap (κ : Type) (ν : Type) where
  /-- The entries, oldest first. -/
  entries : List (κ × ν)
deriving Repr

namespace OrderedMap

variable {κ ν : Type}

/-- The map without entries. -/
def empty : OrderedMap κ ν := ⟨[]⟩

instance : Inhabited (OrderedMap κ ν) := ⟨empty⟩

/-- The keys in order of arrival. -/
def keys (m : OrderedMap κ ν) : List κ := m.entries.map Prod.fst

/-- The values in order of arrival of their keys. -/
def values (m : OrderedMap κ ν) : List ν := m.entries.map Prod.snd

/-- The number of entries. -/
def size (m : OrderedMap κ ν) : Nat := m.entries.length

/-- Whether there is no entry. -/
def isEmpty (m : OrderedMap κ ν) : Bool := m.entries.isEmpty

/-- The entries whose key and value pass a test, in the old order. -/
def filter (m : OrderedMap κ ν) (keep : κ → ν → Bool) : OrderedMap κ ν :=
  ⟨m.entries.filter fun e => keep e.1 e.2⟩

theorem keys_empty : (empty : OrderedMap κ ν).keys = [] := rfl

section Lookup

variable [DecidableEq κ]

/-- The value stored under a key. -/
def get? (m : OrderedMap κ ν) (k : κ) : Option ν := m.entries.lookup k

/-- Whether a key is present. -/
def contains (m : OrderedMap κ ν) (k : κ) : Bool := (m.get? k).isSome

/-- Changes the value under a key where it stands; an absent key changes nothing. -/
def modify (m : OrderedMap κ ν) (k : κ) (f : ν → ν) : OrderedMap κ ν :=
  ⟨m.entries.map fun e => if e.1 = k then (e.1, f e.2) else e⟩

/-- Stores a value: in place if the key is present, at the end if it is new. -/
def insert (m : OrderedMap κ ν) (k : κ) (v : ν) : OrderedMap κ ν :=
  if m.contains k then m.modify k fun _ => v else ⟨m.entries ++ [(k, v)]⟩

/-- Drops a key; the other entries keep their order. -/
def erase (m : OrderedMap κ ν) (k : κ) : OrderedMap κ ν :=
  ⟨m.entries.filter fun e => e.1 ≠ k⟩

/-- Inserts pairs one after another, so the last value of a repeated key stays. -/
def ofList (pairs : List (κ × ν)) : OrderedMap κ ν :=
  pairs.foldl (fun m e => m.insert e.1 e.2) empty

/-! ### Looking up after an operation -/

theorem get?_empty (k : κ) : (empty : OrderedMap κ ν).get? k = none := rfl

theorem contains_iff_mem_keys {m : OrderedMap κ ν} {k : κ} : m.contains k = true ↔ k ∈ m.keys := by
  obtain ⟨es⟩ := m
  induction es with
  | nil => simp [contains, get?, keys]
  | cons e es ih =>
    simp only [contains, get?, keys] at ih
    by_cases h : k = e.1 <;> grind [contains, get?, keys]

theorem contains_eq_false_iff {m : OrderedMap κ ν} {k : κ} :
    m.contains k = false ↔ k ∉ m.keys := by
  rw [← contains_iff_mem_keys, Bool.not_eq_true]

theorem get?_eq_none_iff {m : OrderedMap κ ν} {k : κ} : m.get? k = none ↔ k ∉ m.keys := by
  rw [← contains_eq_false_iff, contains, Option.isSome_eq_false_iff, Option.isNone_iff_eq_none]

theorem get?_modify (m : OrderedMap κ ν) (k j : κ) (f : ν → ν) :
    (m.modify k f).get? j = if j = k then (m.get? j).map f else m.get? j := by
  obtain ⟨es⟩ := m
  induction es with
  | nil => simp [modify, get?]
  | cons e es ih =>
    simp only [modify, get?] at ih
    by_cases hk : e.1 = k <;> by_cases hj : j = e.1 <;> grind [modify, get?]

theorem get?_append_pair (es : List (κ × ν)) (k j : κ) (v : ν) :
    (⟨es ++ [(k, v)]⟩ : OrderedMap κ ν).get? j
      = ((⟨es⟩ : OrderedMap κ ν).get? j).or (if j = k then some v else none) := by
  induction es with
  | nil => by_cases h : j = k <;> grind [get?]
  | cons e es ih =>
    simp only [get?] at ih
    by_cases h : j = e.1 <;> grind [get?]

theorem get?_insert (m : OrderedMap κ ν) (k j : κ) (v : ν) :
    (m.insert k v).get? j = if j = k then some v else m.get? j := by
  rw [insert]
  split
  · rename_i h
    rw [get?_modify]
    by_cases hj : j = k
    · subst hj
      obtain ⟨w, hw⟩ := Option.isSome_iff_exists.1 h
      simp [hw]
    · simp [hj]
  · rename_i h
    rw [get?_append_pair]
    by_cases hj : j = k
    · subst hj
      have : m.get? j = none := by simpa [contains] using h
      simp [this]
    · simp [hj]

theorem get?_erase (m : OrderedMap κ ν) (k j : κ) :
    (m.erase k).get? j = if j = k then none else m.get? j := by
  obtain ⟨es⟩ := m
  induction es with
  | nil => simp [erase, get?]
  | cons e es ih =>
    simp only [erase, get?] at ih
    by_cases hk : e.1 = k <;> by_cases hj : j = e.1 <;> grind [erase, get?]

/-! ### The order of the keys after an operation -/

theorem keys_modify (m : OrderedMap κ ν) (k : κ) (f : ν → ν) : (m.modify k f).keys = m.keys := by
  simp only [keys, modify, List.map_map]
  refine List.map_congr_left fun e _ => ?_
  by_cases h : e.1 = k <;> simp [h]

theorem keys_insert_of_mem {m : OrderedMap κ ν} {k : κ} (v : ν) (h : k ∈ m.keys) :
    (m.insert k v).keys = m.keys := by
  rw [insert, if_pos (contains_iff_mem_keys.2 h), keys_modify]

theorem keys_insert_of_not_mem {m : OrderedMap κ ν} {k : κ} (v : ν) (h : k ∉ m.keys) :
    (m.insert k v).keys = m.keys ++ [k] := by
  rw [insert, if_neg (by rw [contains_iff_mem_keys]; exact h)]
  simp [keys]

theorem keys_erase (m : OrderedMap κ ν) (k : κ) :
    (m.erase k).keys = m.keys.filter fun j => j ≠ k := by
  simp [keys, erase, List.filter_map, Function.comp_def]

end Lookup

end OrderedMap

end SyntaxTree
