/-
SyntaxTree/Proofs/Json/Reader.lean

The laws of readers.  What a reader does is said by when it succeeds: `bind_eq_ok_iff` takes
a reader apart, and there is one law for each of the readers that it comes down to.

The laws are equivalences: what a reader has taken off the front of a text can be told from
what is left.
-/
import Mathlib.Data.List.TakeWhile
import SyntaxTree.Proofs.Json.Grammar

namespace SyntaxTree.Json

namespace Reader

variable {α β σ : Type} {r : Reader α} {f : α → Reader β} {cs rest : List Char} {a : α} {b : β}
  {p : Char → Bool} {c : Char}

/-! ### Putting readers one behind the other -/

theorem bind_eq_ok_iff : (r >>= f) cs = .ok (b, rest) ↔
    ∃ a mid, r cs = .ok (a, mid) ∧ f a mid = .ok (b, rest) := by
  show (r cs).bind (fun p => f p.1 p.2) = _ ↔ _
  cases r cs with
  | error e => exact ⟨nofun, fun ⟨_, _, h, _⟩ => nomatch h⟩
  | ok p =>
    refine ⟨fun h => ⟨p.1, p.2, rfl, h⟩, ?_⟩
    rintro ⟨a, mid, h, hf⟩
    obtain rfl := Except.ok.inj h
    exact hf

theorem bind_of_ok {mid : List Char} (h : r cs = .ok (a, mid)) : (r >>= f) cs = f a mid := by
  show (r cs).bind (fun p => f p.1 p.2) = _
  rw [h]
  rfl

theorem bind_of_error {fault : Fault} (h : r cs = .error fault) : (r >>= f) cs = .error fault := by
  show (r cs).bind (fun p => f p.1 p.2) = _
  rw [h]
  rfl

theorem pure_eq_ok_iff {a' : α} : (pure a : Reader α) cs = .ok (a', rest) ↔ a' = a ∧ rest = cs := by
  show Except.ok (a, cs) = Except.ok (a', rest) ↔ _
  rw [Except.ok.injEq, Prod.mk.injEq]
  exact and_congr eq_comm eq_comm

theorem refuse_ne_ok {fault : Fault} : (refuse fault : Reader α) cs ≠ .ok (a, rest) := nofun

/-! ### Characters -/

theorem next_eq_ok_iff : next cs = .ok (c, rest) ↔ cs = c :: rest := by
  cases cs <;> simp [next]

theorem peek_eq_ok_iff : peek cs = .ok (c, rest) ↔ ∃ u, cs = c :: u ∧ rest = c :: u := by
  cases cs with
  | nil => simp [peek]
  | cons d u => simp [peek]; grind

theorem expect_eq_ok_iff {u : Unit} : expect c cs = .ok (u, rest) ↔ cs = c :: rest := by
  cases cs with
  | nil => simp [expect]
  | cons d u =>
    rw [expect]
    split <;> simp_all

theorem word_eq_ok_iff {w : List Char} {u : Unit} : word w cs = .ok (u, rest) ↔ cs = w ++ rest := by
  induction w generalizing cs with
  | nil => rw [word, pure_eq_ok_iff]; simp [eq_comm]
  | cons c w ih => simp [word, bind_eq_ok_iff, expect_eq_ok_iff, ih]

/-! ### Runs of characters -/

/-- No character of the kind comes next. -/
def Past (p : Char → Bool) (cs : List Char) : Prop := ∀ c ∈ cs.head?, p c = false

theorem past_cons : Past p (c :: cs) ↔ p c = false := by simp [Past]

theorem takeWhile_eq_nil_of_past (h : Past p rest) : rest.takeWhile p = [] := by
  cases rest with
  | nil => rfl
  | cons c rest => simp [past_cons.mp h]

theorem dropWhile_eq_self_of_past (h : Past p rest) : rest.dropWhile p = rest := by
  cases rest with
  | nil => rfl
  | cons c rest => simp [past_cons.mp h]

theorem past_dropWhile (p : Char → Bool) (cs : List Char) : Past p (cs.dropWhile p) := by
  intro c hc
  cases hd : cs.dropWhile p with
  | nil => rw [hd] at hc; cases hc
  | cons d u =>
    rw [hd] at hc
    obtain rfl := Option.some.inj hc
    have := List.dropWhile_get_zero_not p cs
    simp_all

/-- A text is divided where a run of characters ends. -/
theorem takeWhile_dropWhile_iff {w : List Char} :
    cs.takeWhile p = w ∧ cs.dropWhile p = rest ↔
      cs = w ++ rest ∧ (∀ c ∈ w, p c = true) ∧ Past p rest := by
  constructor
  · rintro ⟨rfl, rfl⟩
    exact ⟨List.takeWhile_append_dropWhile.symm, fun c hc => List.mem_takeWhile_imp hc,
      past_dropWhile p cs⟩
  · rintro ⟨rfl, hw, hrest⟩
    rw [List.takeWhile_append_of_pos hw, List.dropWhile_append_of_pos hw,
      takeWhile_eq_nil_of_past hrest, dropWhile_eq_self_of_past hrest, List.append_nil]
    exact ⟨rfl, rfl⟩

theorem takeWhile_eq_ok_iff {w : List Char} : takeWhile p cs = .ok (w, rest) ↔
    cs = w ++ rest ∧ (∀ c ∈ w, p c = true) ∧ Past p rest := by
  rw [takeWhile, Except.ok.injEq, Prod.mk.injEq, takeWhile_dropWhile_iff]

theorem accept_eq_ok_iff {found : Bool} : accept p cs = .ok (found, rest) ↔
    (found = true ∧ ∃ c, cs = c :: rest ∧ p c = true) ∨
      (found = false ∧ rest = cs ∧ Past p cs) := by
  cases cs with
  | nil =>
    rw [accept]
    simp [Past]
  | cons c cs =>
    rw [accept, past_cons]
    split <;> grind

/-! ### Blanks -/

theorem blanks_nil : Blanks [] := fun _ hc => nomatch hc

theorem Blanks.append {bs bs' : List Char} (h : Blanks bs) (h' : Blanks bs') : Blanks (bs ++ bs') :=
  fun c hc => (List.mem_append.mp hc).elim (h c) (h' c)

theorem skipBlanks_eq_ok_iff {u : Unit} : skipBlanks cs = .ok (u, rest) ↔
    ∃ bs, Blanks bs ∧ cs = bs ++ rest ∧ Past isBlank rest := by
  have hdrop : skipBlanks cs = .ok (u, rest) ↔
      ∃ bs, cs.takeWhile isBlank = bs ∧ cs.dropWhile isBlank = rest := by
    simp [skipBlanks]
  rw [hdrop]
  refine exists_congr fun bs => ?_
  rw [takeWhile_dropWhile_iff, Blanks]
  exact and_left_comm

/-- Looking past blanks finds the first character that is none. -/
theorem peekPastBlanks_eq_ok_iff : peekPastBlanks cs = .ok (c, rest) ↔
    ∃ bs u, Blanks bs ∧ cs = bs ++ rest ∧ rest = c :: u ∧ isBlank c = false := by
  rw [peekPastBlanks, bind_eq_ok_iff]
  constructor
  · rintro ⟨_, mid, hskip, hpeek⟩
    obtain ⟨u, rfl, rfl⟩ := peek_eq_ok_iff.mp hpeek
    obtain ⟨bs, hbs, rfl, hpast⟩ := skipBlanks_eq_ok_iff.mp hskip
    exact ⟨bs, u, hbs, rfl, rfl, past_cons.mp hpast⟩
  · rintro ⟨bs, u, hbs, rfl, rfl, hc⟩
    exact ⟨(), c :: u, skipBlanks_eq_ok_iff.mpr ⟨bs, hbs, rfl, past_cons.mpr hc⟩,
      peek_eq_ok_iff.mpr ⟨u, rfl, rfl⟩⟩

theorem endOfAll_eq_ok_iff {u : Unit} : endOfAll cs = .ok (u, rest) ↔ Blanks cs ∧ rest = [] := by
  have hdrop : cs.dropWhile isBlank = [] ↔ Blanks cs := by
    rw [List.dropWhile_eq_nil_iff]; rfl
  rw [endOfAll, ← hdrop]
  split
  case h_1 h => simp [h, eq_comm]
  case h_2 h => simp [h]

/-! ### Whole texts -/

theorem run_eq_ok_iff {text : String} :
    r.run text = .ok a ↔ ∃ rest, r text.toList = .ok (a, rest) ∧ Blanks rest := by
  have hrun : r.run text = .ok a ↔
      ∃ rest, (r >>= fun a => endOfAll >>= fun _ => pure a) text.toList = .ok (a, rest) := by
    unfold run
    split
    case h_1 a' rest h =>
      refine ⟨fun ha => ⟨rest, Except.ok.inj ha ▸ h⟩, fun ⟨rest', h'⟩ => ?_⟩
      rw [(Prod.mk.inj (Except.ok.inj (h.symm.trans h'))).1]
    case h_2 fault h => exact ⟨nofun, fun ⟨rest, h'⟩ => nomatch h.symm.trans h'⟩
  rw [hrun]
  constructor
  · rintro ⟨_, h⟩
    rw [bind_eq_ok_iff] at h
    obtain ⟨a', rest, hread, h⟩ := h
    rw [bind_eq_ok_iff] at h
    obtain ⟨_, _, hend, hpure⟩ := h
    obtain ⟨rfl, rfl⟩ := pure_eq_ok_iff.mp hpure
    exact ⟨rest, hread, (endOfAll_eq_ok_iff.mp hend).1⟩
  · rintro ⟨rest, hread, hrest⟩
    have hend : endOfAll rest = .ok ((), []) := endOfAll_eq_ok_iff.mpr ⟨hrest, rfl⟩
    refine ⟨[], ?_⟩
    rw [bind_of_ok hread, bind_of_ok hend]
    rfl

end Reader

end SyntaxTree.Json
