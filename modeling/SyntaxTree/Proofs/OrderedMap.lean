/-
SyntaxTree/Proofs/OrderedMap.lean

Ordered maps that are read off a list.  The registry of a tree has one entry for each of
its nodes, filed under the identity, and so has its provenance index, filed under the
origin; both are

    tabulate key value xs

for the same list `xs`.  As long as no key repeats, every operation of `OrderedMap` on
such a map is an operation of lists on `xs`, and the order of the entries is that of the
list.  The theory of trees therefore speaks of lists of nodes and never of entries.
-/
import Mathlib.Data.List.Induction
import Mathlib.Data.List.Nodup
import SyntaxTree.OrderedMap

namespace SyntaxTree

namespace OrderedMap

variable {α κ ν : Type}

/-- The map with one entry for each item of a list, in the order of the list. -/
def tabulate (key : α → κ) (value : α → ν) (xs : List α) : OrderedMap κ ν :=
  ⟨xs.map fun x => (key x, value x)⟩

variable {key : α → κ} {value : α → ν} {xs : List α}

@[simp] theorem keys_tabulate : (tabulate key value xs).keys = xs.map key := by
  simp [tabulate, keys]

@[simp] theorem values_tabulate : (tabulate key value xs).values = xs.map value := by
  simp [tabulate, values]

theorem filter_tabulate (keep : κ → ν → Bool) :
    (tabulate key value xs).filter keep
      = tabulate key value (xs.filter fun x => keep (key x) (value x)) := by
  simp [tabulate, filter, List.filter_map, Function.comp_def]

section Lookup

variable [DecidableEq κ]

/-! ### Lookup -/

/-- What is found under a key is the value of the first item with that key. -/
theorem get?_tabulate_eq_find? (k : κ) :
    (tabulate key value xs).get? k = (xs.find? fun x => key x = k).map value := by
  induction xs with
  | nil => rfl
  | cons x xs ih =>
    simp only [tabulate, get?] at ih
    by_cases h : key x = k
    · subst h
      simp [tabulate, get?]
    · have h' : (k == key x) = false := by simpa using fun e => h e.symm
      simp [tabulate, get?, List.lookup_cons, h, h', ih]

/-- Where no key repeats, looking up is membership. -/
theorem get?_tabulate_eq_some_iff (hnd : (xs.map key).Nodup) {k : κ} {v : ν} :
    (tabulate key value xs).get? k = some v ↔ ∃ x ∈ xs, key x = k ∧ value x = v := by
  rw [get?_tabulate_eq_find?, Option.map_eq_some_iff]
  constructor
  · rintro ⟨x, hx, rfl⟩
    exact ⟨x, List.mem_of_find?_eq_some hx, by simpa using List.find?_some hx, rfl⟩
  · rintro ⟨x, hx, rfl, rfl⟩
    obtain ⟨y, hy⟩ : ∃ y, xs.find? (fun z => key z = key x) = some y :=
      Option.isSome_iff_exists.mp (List.find?_isSome.mpr ⟨x, hx, by simp⟩)
    have hkey : key y = key x := by simpa using List.find?_some hy
    have hyx : y = x := List.inj_on_of_nodup_map hnd (List.mem_of_find?_eq_some hy) hx hkey
    exact ⟨x, hyx ▸ hy, rfl⟩

theorem contains_tabulate {k : κ} :
    (tabulate key value xs).contains k = true ↔ k ∈ xs.map key := by
  rw [contains_iff_mem_keys, keys_tabulate]

/-! ### Changes -/

/-- Changing the value under a key changes the item with that key. -/
theorem modify_tabulate {k : κ} {f : ν → ν} {g : α → α} (hkey : ∀ x, key (g x) = key x)
    (hvalue : ∀ x, value (g x) = if key x = k then f (value x) else value x) :
    (tabulate key value xs).modify k f = tabulate key value (xs.map g) := by
  simp only [tabulate, modify, List.map_map, mk.injEq]
  refine List.map_congr_left fun x _ => ?_
  by_cases h : key x = k <;> simp [hkey, hvalue, h]

/-- A new key is filed at the end. -/
theorem insert_tabulate {x : α} (hx : key x ∉ xs.map key) :
    (tabulate key value xs).insert (key x) (value x) = tabulate key value (xs ++ [x]) := by
  rw [insert, if_neg (fun h => hx (contains_tabulate.mp h))]
  simp [tabulate]

/-- Dropping several keys keeps the entries under all others. -/
theorem foldl_erase (ks : List κ) (m : OrderedMap κ ν) :
    ks.foldl erase m = m.filter fun k _ => k ∉ ks := by
  induction ks generalizing m with
  | nil => simp [filter]
  | cons k ks ih =>
    rw [List.foldl_cons, ih]
    simp only [erase, filter, List.filter_filter, mk.injEq]
    refine List.filter_congr fun e _ => ?_
    simp [Bool.and_comm]

/-- Pairs with keys of their own are filed as they come. -/
theorem ofList_map (hnd : (xs.map key).Nodup) :
    ofList (xs.map fun x => (key x, value x)) = tabulate key value xs := by
  induction xs using List.reverseRecOn with
  | nil => rfl
  | append_singleton xs x ih =>
    rw [List.map_append, List.nodup_append] at hnd
    have hx : key x ∉ xs.map key := fun h => hnd.2.2 _ h _ (by simp) rfl
    have ih := ih hnd.1
    rw [ofList] at ih
    rw [ofList, List.map_append, List.foldl_append, ih]
    exact insert_tabulate hx

end Lookup

end OrderedMap

end SyntaxTree
