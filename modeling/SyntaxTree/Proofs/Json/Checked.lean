/-
SyntaxTree/Proofs/Json/Checked.lean

Readers that look at what they read while they read it.  Such a reader is compared with a
plain one, which reads a text to its end, and a check that is made afterwards (`Checks`):

  * where the plain reader succeeds, the other answers what the check says of the result, and
    refuses the shape if the check fails;
  * where the other succeeds, so does the plain one, and the check agrees.

Nothing is said of a text that the plain reader refuses: the reader that looks may have refused
it before, for its shape.  The comparison is kept by putting readers together; for the items
between brackets it is an induction on the turns of the loop (`Checks.items`).
-/
import SyntaxTree.Proofs.Json.Row

namespace SyntaxTree.Json

namespace Reader

variable {α β γ σ : Type}

/-- What was read, if it is of the shape asked for. -/
def wellShaped : Option β → Reader β
  | some b => pure b
  | none => refuse .wrongShape

theorem wellShaped_eq_ok_iff {o : Option β} {b : β} {cs rest : List Char} :
    wellShaped o cs = .ok (b, rest) ↔ o = some b ∧ rest = cs := by
  cases o with
  | none => exact ⟨nofun, fun h => nomatch h.1⟩
  | some b' => rw [wellShaped, pure_eq_ok_iff, Option.some.injEq, eq_comm]

theorem wellShaped_bind {o : Option β} {f : β → Option γ} {cs : List Char} :
    (wellShaped o >>= fun b => wellShaped (f b)) cs = wellShaped (o >>= f) cs := by
  cases o <;> rfl

/-- The reader on the right reads what the plain one reads, and checks it. -/
structure Checks (plain : Reader α) (check : α → Option β) (checked : Reader β) : Prop where
  ok : ∀ {cs a rest}, plain cs = .ok (a, rest) → checked cs = wellShaped (check a) rest
  of_ok : ∀ {cs b rest}, checked cs = .ok (b, rest) →
    ∃ a, plain cs = .ok (a, rest) ∧ check a = some b

namespace Checks

variable {plain : Reader α} {check : α → Option β} {checked : Reader β} {cs rest : List Char}

theorem ok_iff (h : Checks plain check checked) {b : β} : checked cs = .ok (b, rest) ↔
    ∃ a, plain cs = .ok (a, rest) ∧ check a = some b := by
  refine ⟨h.of_ok, ?_⟩
  rintro ⟨a, hplain, hcheck⟩
  rw [h.ok hplain, hcheck]
  rfl

theorem congr {check' : α → Option β} (h : Checks plain check checked)
    (hcheck : ∀ a, check' a = check a) : Checks plain check' checked := by
  rwa [funext hcheck]

/-- A check may be made of what was read. -/
theorem afterwards (plain : Reader α) (check : α → Option β) :
    Checks plain check (plain >>= fun a => wellShaped (check a)) := by
  refine ⟨fun h => bind_of_ok h, fun h => ?_⟩
  rw [bind_eq_ok_iff] at h
  obtain ⟨a, mid, ha, h⟩ := h
  obtain ⟨hcheck, rfl⟩ := wellShaped_eq_ok_iff.mp h
  exact ⟨a, ha, hcheck⟩

/-- The shape may be refused at once if no result would pass. -/
theorem refused (h : ∀ {cs a rest}, plain cs = .ok (a, rest) → check a = none) :
    Checks plain check (refuse .wrongShape) := by
  refine ⟨fun hplain => ?_, fun hok => absurd hok refuse_ne_ok⟩
  rw [h hplain]
  rfl

/-- The shape may be refused before the plain reader has begun. -/
theorem refusedBefore (first : Reader γ) {plain : γ → Reader α}
    (h : ∀ c, Checks (plain c) check (refuse .wrongShape : Reader β)) :
    Checks (first >>= plain) check (refuse .wrongShape) := by
  refine ⟨fun hplain => ?_, fun hok => absurd hok refuse_ne_ok⟩
  rw [bind_eq_ok_iff] at hplain
  obtain ⟨c, mid, -, hplain⟩ := hplain
  show (refuse .wrongShape : Reader β) mid = _
  exact (h c).ok hplain

/-- The shape may be refused behind what was read if no result would pass. -/
theorem refusedAfter (plain : Reader α)
    (h : ∀ {cs a rest}, plain cs = .ok (a, rest) → check a = none) :
    Checks plain check (plain >>= fun _ => refuse .wrongShape) := by
  constructor
  · intro cs a rest hplain
    rw [bind_of_ok hplain, h hplain]
    rfl
  · intro cs b rest hok
    rw [bind_eq_ok_iff] at hok
    obtain ⟨_, _, -, hok⟩ := hok
    exact absurd hok refuse_ne_ok

/-- Both may begin alike. -/
theorem after (first : Reader γ) {plain : γ → Reader α} {checked : γ → Reader β}
    (h : ∀ c, Checks (plain c) check (checked c)) :
    Checks (first >>= plain) check (first >>= checked) := by
  constructor
  · intro cs a rest hplain
    rw [bind_eq_ok_iff] at hplain
    obtain ⟨c, mid, hc, hplain⟩ := hplain
    rw [bind_of_ok hc]
    exact (h c).ok hplain
  · intro cs b rest hok
    rw [bind_eq_ok_iff] at hok
    obtain ⟨c, mid, hc, hok⟩ := hok
    obtain ⟨a, hplain, hcheck⟩ := (h c).of_ok hok
    exact ⟨a, by rw [bind_of_ok hc]; exact hplain, hcheck⟩

/-- A second check may follow the first. -/
theorem andThen (h : Checks plain check checked) (f : β → Option γ) :
    Checks plain (fun a => check a >>= f) (checked >>= fun b => wellShaped (f b)) := by
  constructor
  · intro cs a rest hplain
    rw [← wellShaped_bind]
    show (checked cs).bind _ = (wellShaped (check a) rest).bind _
    rw [h.ok hplain]
  · intro cs c rest hok
    rw [bind_eq_ok_iff] at hok
    obtain ⟨b, mid, hb, hc⟩ := hok
    obtain ⟨hf, rfl⟩ := wellShaped_eq_ok_iff.mp hc
    obtain ⟨a, hplain, hcheck⟩ := h.of_ok hb
    exact ⟨a, hplain, by rw [hcheck]; exact hf⟩

/-- What is read may be wrapped before it is checked. -/
theorem wrap {f : γ → α} {plain : Reader γ} (h : Checks plain (fun c => check (f c)) checked) :
    Checks (plain >>= fun c => pure (f c)) check checked := by
  constructor
  · intro cs a rest hplain
    rw [bind_eq_ok_iff] at hplain
    obtain ⟨c, mid, hc, hpure⟩ := hplain
    obtain ⟨rfl, rfl⟩ := pure_eq_ok_iff.mp hpure
    exact h.ok hc
  · intro cs b rest hok
    obtain ⟨c, hc, hcheck⟩ := h.of_ok hok
    exact ⟨f c, by rw [bind_of_ok hc]; rfl, hcheck⟩

/-! ### The items between brackets -/

section Items

variable {item : Reader α} {step : σ → α → Option σ} {read : σ → Reader σ} {close : Char}
  {n : Nat} {isFirst : Bool} {s s' : σ} {done out : List α}

theorem turns_of_ok (h : ∀ s, Checks item (step s) (read s)) (hclose : closesNesting close = true)
    (hturns : turns (itemTurn close (collect item)) n (isFirst, done) cs = .ok (out, rest)) :
    ∃ xs : List α, out = xs.reverse ++ done ∧ ∀ s,
      turns (itemTurn close read) n (isFirst, s) cs = wellShaped (xs.foldlM step s) rest := by
  induction n generalizing isFirst done cs with
  | zero => exact absurd hturns refuse_ne_ok
  | succ n ih =>
    rw [turns, bind_eq_ok_iff] at hturns
    obtain ⟨t, mid, hturn, hturns⟩ := hturns
    rcases itemTurn_forms hturn with ⟨bs, u, hbs, rfl⟩ | ⟨lead, c, u, hlead, rfl, hc, hne⟩
    · rw [itemTurn_close (isBlank_of_closes hclose) hbs] at hturn
      obtain ⟨rfl, rfl⟩ := Prod.mk.inj (Except.ok.inj hturn)
      obtain ⟨rfl, rfl⟩ := pure_eq_ok_iff.mp hturns
      refine ⟨[], rfl, fun s => ?_⟩
      rw [turns, bind_of_ok (itemTurn_close (isBlank_of_closes hclose) hbs)]
      rfl
    · rw [itemTurn_lead (ne_comma_of_closes hclose) hlead hc hne, bind_eq_ok_iff] at hturn
      obtain ⟨_, mid, hitem, hpure⟩ := hturn
      obtain ⟨rfl, rfl⟩ := pure_eq_ok_iff.mp hpure
      rw [collect, bind_eq_ok_iff] at hitem
      obtain ⟨x, mid, hitem, hpure⟩ := hitem
      obtain ⟨rfl, rfl⟩ := pure_eq_ok_iff.mp hpure
      obtain ⟨xs, rfl, hxs⟩ := ih hturns
      refine ⟨x :: xs, by simp, fun s => ?_⟩
      have hread := (h s).ok hitem
      have hturn : itemTurn close read (isFirst, s) (lead ++ c :: u)
          = (read s >>= fun s' => pure (.again (false, s'))) (c :: u) :=
        itemTurn_lead (ne_comma_of_closes hclose) hlead hc hne
      rw [List.foldlM_cons]
      cases hstep : step s x with
      | none =>
        -- the item is refused, and the row with it
        rw [hstep] at hread
        rw [turns]
        exact bind_of_error (hturn.trans (bind_of_error hread))
      | some s' =>
        rw [hstep] at hread
        rw [turns, bind_of_ok (hturn.trans (bind_of_ok hread))]
        exact hxs s'

theorem of_turns_ok (h : ∀ s, Checks item (step s) (read s)) (hclose : closesNesting close = true)
    (hturns : turns (itemTurn close read) n (isFirst, s) cs = .ok (s', rest)) :
    ∃ xs : List α, xs.foldlM step s = some s' ∧ ∀ done,
      turns (itemTurn close (collect item)) n (isFirst, done) cs = .ok (xs.reverse ++ done, rest) := by
  induction n generalizing isFirst s cs with
  | zero => exact absurd hturns refuse_ne_ok
  | succ n ih =>
    rw [turns, bind_eq_ok_iff] at hturns
    obtain ⟨t, mid, hturn, hturns⟩ := hturns
    rcases itemTurn_forms hturn with ⟨bs, u, hbs, rfl⟩ | ⟨lead, c, u, hlead, rfl, hc, hne⟩
    · rw [itemTurn_close (isBlank_of_closes hclose) hbs] at hturn
      obtain ⟨rfl, rfl⟩ := Prod.mk.inj (Except.ok.inj hturn)
      obtain ⟨rfl, rfl⟩ := pure_eq_ok_iff.mp hturns
      refine ⟨[], rfl, fun done => ?_⟩
      rw [turns, bind_of_ok (itemTurn_close (isBlank_of_closes hclose) hbs)]
      rfl
    · rw [itemTurn_lead (ne_comma_of_closes hclose) hlead hc hne, bind_eq_ok_iff] at hturn
      obtain ⟨_, mid, hread, hpure⟩ := hturn
      obtain ⟨rfl, rfl⟩ := pure_eq_ok_iff.mp hpure
      obtain ⟨x, hitem, hstep⟩ := (h s).of_ok hread
      obtain ⟨xs, hfold, hxs⟩ := ih hturns
      refine ⟨x :: xs, by rw [List.foldlM_cons, hstep]; exact hfold, fun done => ?_⟩
      have hcollect : collect item done (c :: u) = .ok (x :: done, mid) := by
        rw [collect, bind_of_ok hitem]
        rfl
      have hturn : itemTurn close (collect item) (isFirst, done) (lead ++ c :: u)
          = (collect item done >>= fun s' => pure (.again (false, s'))) (c :: u) :=
        itemTurn_lead (ne_comma_of_closes hclose) hlead hc hne
      rw [turns, bind_of_ok (hturn.trans (bind_of_ok hcollect)), List.reverse_cons, List.append_assoc]
      exact hxs (x :: done)

/-- **Items are checked one by one** while they are read. -/
theorem items (h : ∀ s, Checks item (step s) (read s)) (hclose : closesNesting close = true) (s : σ) :
    Checks (listOf close item) (fun xs => xs.foldlM step s) (items close read s) := by
  constructor
  · intro cs xs rest hlist
    obtain ⟨ys, hys, hread⟩ := turns_of_ok h hclose (Reader.listOf_eq_ok_iff.mp hlist)
    rw [List.append_nil, List.reverse_inj] at hys
    rw [hys]
    exact hread s
  · intro cs s' rest hitems
    obtain ⟨xs, hfold, hlist⟩ := of_turns_ok h hclose hitems
    refine ⟨xs, Reader.listOf_eq_ok_iff.mpr ?_, hfold⟩
    rw [hlist [], List.append_nil]

theorem foldlM_cons_map (check : α → Option β) (xs : List α) (done : List β) :
    xs.foldlM (fun done x => check x >>= fun y => some (y :: done)) done
      = (xs.mapM check).map (fun ys => ys.reverse ++ done) := by
  induction xs generalizing done with
  | nil => rfl
  | cons x xs ih =>
    rw [List.foldlM_cons, List.mapM_cons]
    cases check x with
    | none => rfl
    | some y =>
      show List.foldlM _ (y :: done) xs = _
      rw [ih]
      cases xs.mapM check with
      | none => rfl
      | some ys => simp

/-- A list is checked if its items are. -/
theorem list (h : Checks plain check checked) (hclose : closesNesting close = true) :
    Checks (listOf close plain) (fun xs => xs.mapM check) (listOf close checked) := by
  have hitem : ∀ done, Checks plain (fun a => check a >>= fun b => some (b :: done))
      (collect checked done) := fun done => h.andThen fun b => some (b :: done)
  have hlist : Checks (listOf close plain) _ (listOf close checked) :=
    (items hitem hclose []).andThen fun reversed => some reversed.reverse
  refine hlist.congr fun xs => ?_
  rw [foldlM_cons_map]
  cases xs.mapM check <;> simp

end Items

end Checks

end Reader

end SyntaxTree.Json
