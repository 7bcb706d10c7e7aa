/-
SyntaxTree/Proofs/Json/Row.lean

Rows of items between brackets.  A turn of the loop that reads them stands either at the
closing bracket or, behind blanks and perhaps a comma, at an item (`itemTurn_forms`), and
what it does in either case is one equation (`itemTurn_close`, `itemTurn_lead`).

A reader reads what a grammar describes (`Reads`) if it takes exactly such a text, and the
blanks before it, wherever what follows cannot belong to the text any more.  Rows of items
that are read in this sense are read by `listOf` (`Reads.listOf_eq_ok_iff`).  The turns that
the loop is granted are always enough, since every item has a character of its own.
-/
import Mathlib.Data.List.Forall2
import SyntaxTree.Proofs.Json.Reader

namespace SyntaxTree.Json

open Reader

/-! ### Turns -/

/-- Whether a character closes an array or an object. -/
def closesNesting (c : Char) : Bool := c = ']' || c = '\x7d'

/-- Whether a character that stands behind a number could belong to it. -/
def extendsNumber (c : Char) : Bool := isDigit c || c = '.' || c = 'e' || c = 'E'

theorem not_extends_of_isBlank {c : Char} (h : isBlank c = true) : extendsNumber c = false := by
  simp only [isBlank, Bool.or_eq_true, decide_eq_true_eq] at h
  rcases h with ((rfl | rfl) | rfl) | rfl <;> decide

section Closing

variable {close : Char} (h : closesNesting close = true)

include h

theorem isBlank_of_closes : isBlank close = false := by
  simp only [closesNesting, Bool.or_eq_true, decide_eq_true_eq] at h
  rcases h with rfl | rfl <;> decide

theorem not_extends_of_closes : extendsNumber close = false := by
  simp only [closesNesting, Bool.or_eq_true, decide_eq_true_eq] at h
  rcases h with rfl | rfl <;> decide

theorem ne_comma_of_closes : ',' ≠ close := by
  simp only [closesNesting, Bool.or_eq_true, decide_eq_true_eq] at h
  rcases h with rfl | rfl <;> decide

theorem ne_of_closes {c : Char} (hc : closesNesting c = false) : c ≠ close := by
  rintro rfl
  rw [h] at hc
  cases hc

end Closing

namespace Reader

variable {α σ : Type} {close c : Char} {item : σ → Reader σ} {isFirst : Bool} {s : σ}
  {cs u lead bs rest : List Char}

theorem peekPastBlanks_append (hbs : Blanks bs) (hc : isBlank c = false) :
    peekPastBlanks (bs ++ c :: u) = .ok (c, c :: u) :=
  peekPastBlanks_eq_ok_iff.mpr ⟨bs, u, hbs, rfl, rfl, hc⟩

/-- At the closing bracket the loop is done. -/
theorem itemTurn_close (hclose : isBlank close = false) (hbs : Blanks bs) :
    itemTurn close item (isFirst, s) (bs ++ close :: u) = .ok (.finished s, u) := by
  rw [itemTurn, bind_of_ok (peekPastBlanks_append hbs hclose), if_pos rfl]
  rfl

/-- In front of an item the loop reads it. -/
theorem itemTurn_lead (hcomma : ',' ≠ close) (hlead : LeadText isFirst lead)
    (hc : isBlank c = false) (hne : c ≠ close) :
    itemTurn close item (isFirst, s) (lead ++ c :: u)
      = (item s >>= fun s' => pure (.again (false, s'))) (c :: u) := by
  cases hlead with
  | first hbs =>
    rw [itemTurn, bind_of_ok (peekPastBlanks_append hbs hc), if_neg hne, if_pos rfl]
  | @later bs bs' hbs hbs' =>
    have hpeek := peekPastBlanks_append (u := bs' ++ c :: u) hbs (show isBlank ',' = false by decide)
    have hexpect : expect ',' (',' :: (bs' ++ c :: u)) = .ok ((), bs' ++ c :: u) :=
      expect_eq_ok_iff.mpr rfl
    rw [List.append_assoc, List.cons_append, itemTurn, bind_of_ok hpeek, if_neg hcomma,
      if_neg Bool.false_ne_true, bind_of_ok hexpect, bind_of_ok (peekPastBlanks_append hbs' hc),
      if_neg hne]

/-- Where a turn succeeds, the text goes on with the closing bracket or with an item. -/
theorem itemTurn_forms {t : Turn (Bool × σ) σ}
    (hturn : itemTurn close item (isFirst, s) cs = .ok (t, rest)) :
    (∃ bs u, Blanks bs ∧ cs = bs ++ close :: u) ∨
      ∃ lead c u, LeadText isFirst lead ∧ cs = lead ++ c :: u ∧ isBlank c = false ∧ c ≠ close := by
  rw [itemTurn, bind_eq_ok_iff] at hturn
  obtain ⟨c, _, hpeek, h⟩ := hturn
  obtain ⟨bs, u, hbs, rfl, rfl, hc⟩ := peekPastBlanks_eq_ok_iff.mp hpeek
  rcases eq_or_ne c close with rfl | hne
  · exact .inl ⟨bs, u, hbs, rfl⟩
  · rw [if_neg hne] at h
    cases isFirst with
    | true => exact .inr ⟨bs, c, u, .first hbs, rfl, hc, hne⟩
    | false =>
      -- a comma, and after it no closing bracket
      rw [if_neg Bool.false_ne_true, bind_eq_ok_iff] at h
      obtain ⟨_, mid, hexpect, h⟩ := h
      obtain ⟨rfl, rfl⟩ := List.cons.inj (expect_eq_ok_iff.mp hexpect)
      rw [bind_eq_ok_iff] at h
      obtain ⟨d, _, hpeek', h⟩ := h
      obtain ⟨bs', u', hbs', rfl, rfl, hd⟩ := peekPastBlanks_eq_ok_iff.mp hpeek'
      rcases eq_or_ne d close with rfl | hne'
      · rw [if_pos rfl] at h
        exact absurd h refuse_ne_ok
      · exact .inr ⟨bs ++ ',' :: bs', d, u', .later hbs hbs', by simp, hd, hne'⟩

/-- Adds what an item is to the items read so far. -/
def collect (item : Reader α) (done : List α) : Reader (List α) := do return (← item) :: done

theorem listOf_eq_ok_iff {item : Reader α} {xs : List α} : listOf close item cs = .ok (xs, rest) ↔
    turns (itemTurn close (collect item)) cs.length (true, []) cs = .ok (xs.reverse, rest) := by
  rw [listOf, bind_eq_ok_iff]
  constructor
  · rintro ⟨reversed, mid, h, hpure⟩
    obtain ⟨rfl, rfl⟩ := pure_eq_ok_iff.mp hpure
    rw [List.reverse_reverse]
    exact h
  · intro h
    exact ⟨xs.reverse, rest, h, pure_eq_ok_iff.mpr ⟨xs.reverse_reverse.symm, rfl⟩⟩

end Reader

/-! ### Rows -/

/-- Whether an item could begin with this character. -/
def Opens (w : List Char) : Prop :=
  ∃ c u, w = c :: u ∧ isBlank c = false ∧ closesNesting c = false

/-- The reader takes texts described by `R`, and the blanks before them, where what follows cannot
belong to them. -/
structure Reads {α : Type} (item : Reader α) (R : List Char → α → Prop) : Prop where
  opens : ∀ {w x}, R w x → Opens w
  sound : ∀ {cs x rest}, item cs = .ok (x, rest) → ∃ bs w, Blanks bs ∧ R w x ∧ cs = bs ++ (w ++ rest)
  complete : ∀ {bs w x rest}, Blanks bs → R w x → Past extendsNumber rest →
    item (bs ++ (w ++ rest)) = .ok (x, rest)

section Rows

variable {α : Type} {R : List Char → α → Prop} {item : Reader α} {isFirst : Bool} {close : Char}
  {cs w rest : List Char} {xs done out : List α}

/-- Behind an item of a row nothing belongs to the item any more. -/
theorem RowText.past (h : RowText R .false w xs) (hclose : extendsNumber close = false) :
    Past extendsNumber (w ++ close :: rest) := by
  have blanks : ∀ {bs cs}, Blanks bs → Past extendsNumber cs → Past extendsNumber (bs ++ cs) := by
    intro bs cs hbs hcs
    cases bs with
    | nil => exact hcs
    | cons b bs => exact past_cons.mpr (not_extends_of_isBlank (hbs b List.mem_cons_self))
  cases h with
  | done hbs => exact blanks hbs (past_cons.mpr hclose)
  | item hlead hx hxs =>
    cases hlead with
    | later hbs hbs' =>
      rw [List.append_assoc, List.append_assoc]
      exact blanks hbs (past_cons.mpr (by decide))

theorem RowText.length_le (hR : Reads item R) (h : RowText R isFirst w xs) :
    xs.length ≤ w.length := by
  induction h with
  | done => exact Nat.zero_le _
  | item hlead hx hxs ih =>
    obtain ⟨c, u, rfl, -⟩ := hR.opens hx
    simp only [List.length_append, List.length_cons]
    omega

namespace Reads

variable (hR : Reads item R) (hclose : closesNesting close = true)

include hR hclose

theorem rowText_of_turns {n : Nat} (h : turns (itemTurn close (collect item)) n (isFirst, done) cs
      = .ok (out, rest)) :
    ∃ w xs, RowText R isFirst w xs ∧ cs = w ++ close :: rest ∧ out = xs.reverse ++ done := by
  induction n generalizing isFirst done cs with
  | zero => exact absurd h refuse_ne_ok
  | succ n ih =>
    rw [turns, bind_eq_ok_iff] at h
    obtain ⟨t, mid, hturn, h⟩ := h
    rcases itemTurn_forms hturn with ⟨bs, u, hbs, rfl⟩ | ⟨lead, c, u, hlead, rfl, hc, hne⟩
    · -- the row has ended
      rw [itemTurn_close (isBlank_of_closes hclose) hbs] at hturn
      obtain ⟨rfl, rfl⟩ := Prod.mk.inj (Except.ok.inj hturn)
      obtain ⟨rfl, rfl⟩ := pure_eq_ok_iff.mp h
      exact ⟨bs, [], .done hbs, rfl, rfl⟩
    · -- an item, and the row from there on
      rw [itemTurn_lead (ne_comma_of_closes hclose) hlead hc hne, bind_eq_ok_iff] at hturn
      obtain ⟨_, mid, hitem, hpure⟩ := hturn
      obtain ⟨rfl, rfl⟩ := pure_eq_ok_iff.mp hpure
      obtain ⟨x, mid, hitem, hpure⟩ := bind_eq_ok_iff.mp hitem
      obtain ⟨rfl, rfl⟩ := pure_eq_ok_iff.mp hpure
      obtain ⟨bs, w, hbs, hx, hw⟩ := hR.sound hitem
      obtain ⟨v, xs, hxs, rfl, rfl⟩ := ih h
      -- the item has begun where the blanks were past
      obtain rfl : bs = [] := by
        cases bs with
        | nil => rfl
        | cons b bs =>
          obtain ⟨rfl, -⟩ := List.cons.inj hw
          exact absurd (hbs c List.mem_cons_self) (by simp [hc])
      rw [List.nil_append] at hw
      refine ⟨lead ++ (w ++ v), x :: xs, .item hlead hx hxs, ?_, ?_⟩
      · rw [hw]; simp
      · simp

theorem turns_of_rowText {n : Nat} (h : RowText R isFirst w xs) (hn : xs.length < n) :
    turns (itemTurn close (collect item)) n (isFirst, done) (w ++ close :: rest)
      = .ok (xs.reverse ++ done, rest) := by
  induction h generalizing n done with
  | done hbs =>
    obtain ⟨n, rfl⟩ := Nat.exists_eq_succ_of_ne_zero (Nat.ne_of_gt hn)
    rw [turns, bind_of_ok (itemTurn_close (isBlank_of_closes hclose) hbs)]
    rfl
  | @item isFirst lead w u x xs hlead hx hxs ih =>
    obtain ⟨n, rfl⟩ := Nat.exists_eq_succ_of_ne_zero (Nat.ne_of_gt (Nat.zero_lt_of_lt hn))
    obtain ⟨c, v, rfl, hc, hne⟩ := hR.opens hx
    have hclosing : c ≠ close := ne_of_closes hclose hne
    have hpast : Past extendsNumber (u ++ close :: rest) := hxs.past (not_extends_of_closes hclose)
    have hitem := hR.complete blanks_nil hx hpast
    have hcollect : collect item done (c :: (v ++ (u ++ close :: rest)))
        = .ok (x :: done, u ++ close :: rest) := by
      rw [List.nil_append, List.cons_append] at hitem
      rw [collect, bind_of_ok hitem]
      rfl
    have hturn : itemTurn close (collect item) (isFirst, done)
          (lead ++ c :: (v ++ (u ++ close :: rest)))
        = .ok (.again (false, x :: done), u ++ close :: rest) := by
      rw [itemTurn_lead (ne_comma_of_closes hclose) hlead hc hclosing, bind_of_ok hcollect]
      rfl
    have htext : lead ++ (c :: v ++ u) ++ close :: rest = lead ++ c :: (v ++ (u ++ close :: rest)) := by
      simp
    rw [htext, turns, bind_of_ok hturn]
    show turns _ n (false, x :: done) _ = _
    rw [ih (Nat.lt_of_succ_lt_succ hn), List.reverse_cons, List.append_assoc]
    rfl

/-- **Rows are read** as the grammar says. -/
theorem listOf_eq_ok_iff : listOf close item cs = .ok (xs, rest) ↔
    ∃ w, RowText R .true w xs ∧ cs = w ++ close :: rest := by
  rw [Reader.listOf_eq_ok_iff]
  constructor
  · intro h
    obtain ⟨w, ys, hrow, hcs, hys⟩ := hR.rowText_of_turns hclose h
    rw [List.append_nil, List.reverse_inj] at hys
    exact ⟨w, hys ▸ hrow, hcs⟩
  · rintro ⟨w, hrow, rfl⟩
    have hlen := hrow.length_le hR
    rw [hR.turns_of_rowText hclose hrow, List.append_nil]
    simp only [List.length_append, List.length_cons]
    omega

end Reads

/-! ### Rows without blanks -/

theorem rowText_flatMap {ws : List (List Char)} (h : List.Forall₂ R ws xs) :
    RowText R .false (ws.flatMap (',' :: ·)) xs := by
  induction h with
  | nil => exact .done blanks_nil
  | cons hx _ ih => exact .item (.later blanks_nil blanks_nil) hx ih

/-- Behind the first text there is a comma before each. -/
theorem intercalate_comma_cons (w : List Char) (ws : List (List Char)) :
    List.intercalate [','] (w :: ws) = w ++ ws.flatMap (',' :: ·) := by
  induction ws generalizing w with
  | nil => simp
  | cons u ws ih => simp [ih]

/-- Texts of items with nothing but commas between them. -/
theorem rowText_intercalate {ws : List (List Char)} (h : List.Forall₂ R ws xs) :
    RowText R .true (List.intercalate [','] ws) xs := by
  cases h with
  | nil => exact .done blanks_nil
  | @cons w x ws xs hx hxs =>
    rw [intercalate_comma_cons]
    exact .item (.first blanks_nil) hx (rowText_flatMap hxs)

end Rows

end SyntaxTree.Json
