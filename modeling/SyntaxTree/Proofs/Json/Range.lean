/-
SyntaxTree/Proofs/Json/Range.lean

Which numbers are in range, said without a reader.  A number is not held against the largest double
as it stands.  Its leading digits, as many as a 64-bit word has room for, make a number of their own
(`Leading`, `Numeral.Scales`), and that number and the power of ten it is to be scaled by are
rounded to the nearest doubles (`Nearest`).  The numeral is in range (`Numeral.InRange`) if the
nearest double to their product is finite; and it is in range if it is to be scaled down.

The reader finds this out with a division and without any search (`nearest_roundToDouble`,
`Nearest.eq_roundToDouble`, `Numeral.scales_scaled`), and compares the product itself to half a step
beyond the largest double (`Nearest.le_largestDouble_iff`).  So it refuses just the numbers that
are not in range (`Numeral.inRange_iff`).
-/
import Mathlib.Data.List.Induction
import Mathlib.Data.Nat.Digits.Defs
import Mathlib.Data.Nat.Dist
import SyntaxTree.Proofs.Json.Grammar

namespace SyntaxTree.Json

/-! ### Doubles -/

/-- The number has no more than `k` significant bits. -/
def HasBits (k d : Nat) : Prop := ∃ m e, m < 2 ^ k ∧ d = m * 2 ^ e

/-- The number `d` is what `x` is rounded to: no other with 53 significant bits is nearer, and if
another is as near, then `d` is the one of the two that needs only 52. -/
structure Nearest (x d : Nat) : Prop where
  hasBits : HasBits 53 d
  dist_le : ∀ c, HasBits 53 c → Nat.dist x d ≤ Nat.dist x c
  even : ∀ c, HasBits 53 c → c ≠ d → Nat.dist x c = Nat.dist x d → HasBits 52 d

/-- The largest finite double. -/
def largestDouble : Nat := 2 ^ 1024 - 2 ^ 971

variable {x d c j k : Nat}

theorem hasBits_mul {m : Nat} (h : m < 2 ^ k) (e : Nat) : HasBits k (m * 2 ^ e) := ⟨m, e, h, rfl⟩

/-- One step beyond the largest significand stands the smallest of the next size. -/
theorem hasBits_mul_of_le {m : Nat} (h : m ≤ 2 ^ (k + 1)) (e : Nat) :
    HasBits (k + 1) (m * 2 ^ e) := by
  rcases Nat.lt_or_eq_of_le h with h | rfl
  · exact hasBits_mul h e
  · rw [← Nat.pow_add, ← Nat.one_mul (2 ^ _)]
    exact hasBits_mul (Nat.one_lt_two_pow (Nat.succ_ne_zero k)) _

/-- An even significand has a bit to spare. -/
theorem hasBits_mul_of_even {m : Nat} (h : m ≤ 2 ^ (k + 2)) (heven : m % 2 = 0) (e : Nat) :
    HasBits (k + 1) (m * 2 ^ e) := by
  obtain ⟨q, rfl⟩ : ∃ q, m = 2 * q := ⟨m / 2, by omega⟩
  have hq : q ≤ 2 ^ (k + 1) := by
    rw [Nat.pow_succ'] at h
    exact Nat.le_of_mul_le_mul_left h (by decide)
  have hshift : 2 * q * 2 ^ e = q * 2 ^ (e + 1) := by
    rw [Nat.pow_succ', ← Nat.mul_assoc, Nat.mul_comm q]
  rw [hshift]
  exact hasBits_mul_of_le hq _

/-- A number with few significant bits is a multiple of a power of two, if it is large. -/
theorem HasBits.dvd (h : HasBits (k + 1) d) (hle : 2 ^ k * 2 ^ j ≤ d) : 2 ^ j ∣ d := by
  obtain ⟨m, e, hm, rfl⟩ := h
  have hlt : 2 ^ (k + j) < 2 ^ (k + 1 + e) := by
    calc 2 ^ (k + j) ≤ m * 2 ^ e := by rw [Nat.pow_add]; exact hle
      _ < 2 ^ (k + 1) * 2 ^ e := Nat.mul_lt_mul_of_pos_right hm (Nat.two_pow_pos e)
      _ = 2 ^ (k + 1 + e) := (Nat.pow_add 2 _ _).symm
  have hj : j ≤ e := by
    have := (Nat.pow_lt_pow_iff_right (by decide)).mp hlt
    omega
  exact Dvd.dvd.mul_left (Nat.pow_dvd_pow 2 hj) m

/-! ### Rounding -/

/-- Between a double and the next larger one there is no other. -/
theorem HasBits.le_or_le (hc : HasBits 53 c) {below : Nat} (hbelow : 2 ^ 52 ≤ below) :
    c ≤ below * 2 ^ j ∨ below * 2 ^ j + 2 ^ j ≤ c := by
  refine or_iff_not_imp_left.mpr fun hlt => ?_
  have hlt : below * 2 ^ j < c := Nat.lt_of_not_le hlt
  obtain ⟨q, rfl⟩ := hc.dvd ((Nat.mul_le_mul_right _ hbelow).trans hlt.le)
  rw [Nat.mul_comm (2 ^ j)] at hlt ⊢
  rw [← Nat.succ_mul]
  exact Nat.mul_le_mul_right _ (Nat.lt_of_mul_lt_mul_right hlt)

/-- A number that has bits to spare lies between two doubles, and is rounded to one of them. -/
theorem exists_roundToDouble (hx : 52 < x.log2) : ∃ below left j, x = below * 2 ^ j + left ∧
    left < 2 ^ j ∧ 2 ^ 52 ≤ below ∧ below < 2 ^ 53 ∧
    Numeral.roundToDouble x = if 2 ^ j < 2 * left ∨ (2 ^ j = 2 * left ∧ below % 2 = 1)
      then (below + 1) * 2 ^ j else below * 2 ^ j := by
  have hne : x ≠ 0 := by rintro rfl; simp at hx
  have hlog : x.log2 = 52 + (x.log2 - 52) := by omega
  refine ⟨x / 2 ^ (x.log2 - 52), x % 2 ^ (x.log2 - 52), x.log2 - 52, (Nat.div_add_mod' x _).symm,
    Nat.mod_lt x (Nat.two_pow_pos _), ?_, ?_, rfl⟩
  · rw [Nat.le_div_iff_mul_le (Nat.two_pow_pos _), ← Nat.pow_add, ← hlog]
    exact Nat.log2_self_le hne
  · rw [Nat.div_lt_iff_lt_mul (Nat.two_pow_pos _), ← Nat.pow_add]
    exact (Nat.log2_lt hne).mp (by omega)

theorem roundToDouble_of_log2_le (hx : x.log2 ≤ 52) : Numeral.roundToDouble x = x := by
  rw [Numeral.roundToDouble, Nat.sub_eq_zero_of_le hx]
  simp [Nat.mod_one]

theorem hasBits_of_log2_le (hx : x.log2 ≤ 52) : HasBits 53 x := by
  rw [← Nat.mul_one x]
  exact hasBits_mul (Nat.lt_log2_self.trans_le (Nat.pow_le_pow_right (by decide) (by omega))) 0

/-- **The reader rounds** to the nearest double. -/
theorem nearest_roundToDouble (x : Nat) : Nearest x (Numeral.roundToDouble x) := by
  rcases Nat.lt_or_ge 52 x.log2 with hx | hx
  · obtain ⟨below, left, j, hsplit, hleft, hlow, hhigh, hround⟩ := exists_roundToDouble hx
    have gap : ∀ {c}, HasBits 53 c → c ≤ below * 2 ^ j ∨ below * 2 ^ j + 2 ^ j ≤ c := fun hc =>
      hc.le_or_le hlow
    have hdown : HasBits 53 (below * 2 ^ j) := hasBits_mul hhigh j
    have hup : HasBits 53 ((below + 1) * 2 ^ j) := hasBits_mul_of_le hhigh j
    have hnext : (below + 1) * 2 ^ j = below * 2 ^ j + 2 ^ j := Nat.succ_mul _ _
    rw [hround]
    split
    case isTrue h =>
      refine ⟨hup, fun c hc => ?_, fun c hc hne heq => ?_⟩
      · have := gap hc
        simp only [Nat.dist] at *
        omega
      · -- only the number below is as near, and then this one is even
        have heven : (below + 1) % 2 = 0 := by
          have := gap hc
          simp only [Nat.dist] at heq
          omega
        exact hasBits_mul_of_even hhigh heven j
    case isFalse h =>
      refine ⟨hdown, fun c hc => ?_, fun c hc hne heq => ?_⟩
      · have := gap hc
        simp only [Nat.dist] at *
        omega
      · have heven : below % 2 = 0 := by
          have := gap hc
          simp only [Nat.dist] at heq
          omega
        exact hasBits_mul_of_even hhigh.le heven j
  · rw [roundToDouble_of_log2_le hx]
    refine ⟨hasBits_of_log2_le hx, fun c _ => ?_, fun c _ hne heq => ?_⟩
    · rw [Nat.dist_self]
      exact Nat.zero_le _
    · exact absurd (Nat.eq_of_dist_eq_zero (heq.trans (Nat.dist_self x))).symm hne

/-- **No two doubles are nearest**: of two equally near ones only one is even. -/
theorem Nearest.eq_roundToDouble (h : Nearest x d) : d = Numeral.roundToDouble x := by
  have hround := nearest_roundToDouble x
  have hdist : Nat.dist x d = Nat.dist x (Numeral.roundToDouble x) :=
    Nat.le_antisymm (h.dist_le _ hround.hasBits) (hround.dist_le _ h.hasBits)
  by_contra hne
  rcases Nat.lt_or_ge 52 x.log2 with hx | hx
  · obtain ⟨below, left, j, hsplit, hleft, hlow, hhigh, -⟩ := exists_roundToDouble hx
    have heven := h.even _ hround.hasBits (Ne.symm hne) hdist.symm
    have heven' := hround.even _ h.hasBits hne hdist
    have hgap := h.hasBits.le_or_le (j := j) hlow
    have hgap' := hround.hasBits.le_or_le (j := j) hlow
    have hdown := h.dist_le _ (hasBits_mul hhigh j)
    have hup := h.dist_le _ (hasBits_mul_of_le hhigh j)
    rw [Nat.succ_mul] at hup
    have hdouble : 2 ^ (j + 1) = 2 * 2 ^ j := Nat.pow_succ'
    have hlarge : 2 ^ 51 * 2 ^ (j + 1) ≤ below * 2 ^ j := by
      rw [hdouble, ← Nat.mul_assoc]
      exact Nat.mul_le_mul_right _ hlow
    have hpos := Nat.two_pow_pos j
    generalize Numeral.roundToDouble x = d' at *
    generalize below * 2 ^ j = low at *
    simp only [Nat.dist] at hdist hdown hup
    -- one of the two stands below the number and the other above it
    have hstep : 2 ^ (j + 1) ∣ 2 ^ j := by
      rcases Nat.lt_or_gt_of_ne hne with hlt | hlt
      · obtain ⟨rfl, rfl⟩ : d = low ∧ d' = low + 2 ^ j := by omega
        exact (Nat.dvd_add_right (heven.dvd hlarge)).mp (heven'.dvd (by omega))
      · obtain ⟨rfl, rfl⟩ : d' = low ∧ d = low + 2 ^ j := by omega
        exact (Nat.dvd_add_right (heven'.dvd hlarge)).mp (heven.dvd (by omega))
    have hle := Nat.le_of_dvd hpos hstep
    omega
  · rw [roundToDouble_of_log2_le hx, Nat.dist_self] at hdist
    exact hne ((Nat.eq_of_dist_eq_zero hdist).symm.trans (roundToDouble_of_log2_le hx).symm)

/-- The largest finite double is odd, and the next double is `2 ^ 1024`; half a step below it stands
the bound of the reader. -/
theorem exists_top : ∃ top half, 0 < half ∧ largestDouble + 2 * half = top ∧
    Numeral.overflowBound + half = top ∧ HasBits 53 largestDouble ∧ ¬ HasBits 52 largestDouble ∧
    HasBits 53 top ∧ ∀ c, HasBits 53 c → c ≤ largestDouble ∨ top ≤ c := by
  refine ⟨2 ^ 1024, 2 ^ 970, Nat.two_pow_pos _, by decide +kernel, by decide +kernel,
    ⟨2 ^ 53 - 1, 971, by decide, by decide +kernel⟩, fun hbits => ?_,
    ⟨1, 1024, by decide, by decide +kernel⟩, fun c hc => ?_⟩
  · exact absurd (hbits.dvd (j := 972) (by decide +kernel)) (by decide +kernel)
  · have hfactor : (2 ^ 53 - 1) * 2 ^ 971 = largestDouble := by decide +kernel
    have hnext : largestDouble + 2 ^ 971 = 2 ^ 1024 := by decide +kernel
    have hgap := hc.le_or_le (j := 971) (show 2 ^ 52 ≤ 2 ^ 53 - 1 by decide)
    rwa [hfactor, hnext] at hgap

/-- **A number has a finite nearest double** as long as it is less than half a step beyond the
largest. -/
theorem Nearest.le_largestDouble_iff (h : Nearest x d) :
    d ≤ largestDouble ↔ x < Numeral.overflowBound := by
  obtain ⟨top, half, hpos, hstep, hbound, hlargest, hodd, htop, hgap⟩ := exists_top
  have hgap := hgap d h.hasBits
  have hdist := h.dist_le _ hlargest
  have hdist' := h.dist_le _ htop
  have htie := h.even _ htop
  simp only [Nat.dist] at hdist hdist' htie
  generalize largestDouble = largest at *
  generalize Numeral.overflowBound = bound at *
  constructor
  · intro hd
    by_contra hx
    -- the number is half a step beyond, and would have been rounded to the even double above
    obtain rfl : d = largest := by omega
    exact hodd (htie (by omega) (by omega))
  · intro hx
    omega

/-! ### Leading digits -/

theorem ofDigits_eq (ds : List Nat) : ofDigits ds = Nat.ofDigits 10 ds.reverse := by
  induction ds using List.reverseRecOn with
  | nil => rfl
  | append_singleton ds d ih =>
    rw [List.reverse_append, List.reverse_singleton, List.singleton_append, Nat.ofDigits_cons, ← ih,
      ofDigits, List.foldl_append]
    show ofDigits ds * 10 + d = _
    omega

theorem ofDigits_append (ds es : List Nat) :
    ofDigits (ds ++ es) = ofDigits ds * 10 ^ es.length + ofDigits es := by
  rw [ofDigits_eq, ofDigits_eq, ofDigits_eq, List.reverse_append, Nat.ofDigits_append,
    List.length_reverse, Nat.mul_comm, Nat.add_comm]

theorem ofDigits_le_append (ds es : List Nat) : ofDigits ds ≤ ofDigits (ds ++ es) := by
  rw [ofDigits_append]
  exact (Nat.le_mul_of_pos_right _ (Nat.pow_pos (by decide))).trans (Nat.le_add_right _ _)

/-- The digits `taken` are as many of `ds` as a 64-bit word has room for behind those of `front`;
the digits `left` are the others. -/
structure Leading (front ds taken left : List Nat) : Prop where
  eq_append : ds = taken ++ left
  room : ofDigits (front ++ taken) < 2 ^ 64
  full : ∀ d rest, left = d :: rest → 2 ^ 64 ≤ ofDigits (front ++ taken ++ [d])

/-- There is one way only to take as many digits as possible. -/
theorem Leading.unique {front ds taken left taken' left' : List Nat}
    (h : Leading front ds taken left) (h' : Leading front ds taken' left') :
    taken = taken' ∧ left = left' := by
  have short : ∀ {ts ls ts' ls' : List Nat}, Leading front ds ts ls → Leading front ds ts' ls' →
      ts <+: ts' → ts = ts' ∧ ls = ls' := by
    rintro ts ls ts' ls' h h' ⟨more, rfl⟩
    have hleft : ls = more ++ ls' := by
      have heq := h.eq_append.symm.trans h'.eq_append
      rwa [List.append_assoc, List.append_cancel_left_eq] at heq
    cases more with
    | nil => exact ⟨(List.append_nil ts).symm, hleft⟩
    | cons d more =>
      -- there would have been room for one more digit
      have hfull := (h.full d _ hleft).trans (ofDigits_le_append _ more)
      rw [List.append_assoc, List.append_assoc] at hfull
      exact absurd h'.room (Nat.not_lt.mpr hfull)
  have hprefix : taken <+: ds := ⟨left, h.eq_append.symm⟩
  have hprefix' : taken' <+: ds := ⟨left', h'.eq_append.symm⟩
  rcases List.prefix_or_prefix_of_prefix hprefix hprefix' with hle | hle
  · exact short h h' hle
  · obtain ⟨htaken, hleft⟩ := short h' h hle
    exact ⟨htaken.symm, hleft.symm⟩

namespace Numeral

/-- The reader takes as many digits as possible. -/
theorem leading_absorb (front ds : List Nat) (hfront : ofDigits front < 2 ^ 64) :
    ∃ taken, Leading front ds taken (absorb (ofDigits front) ds).2 ∧
      (absorb (ofDigits front) ds).1 = ofDigits (front ++ taken) := by
  induction ds generalizing front with
  | nil =>
    rw [← List.append_nil front] at hfront
    exact ⟨[], ⟨rfl, hfront, nofun⟩, congrArg ofDigits (List.append_nil front).symm⟩
  | cons d ds ih =>
    have hnext : ofDigits front * 10 + d = ofDigits (front ++ [d]) := by
      rw [ofDigits_append]
      simp [ofDigits]
    rw [absorb, hnext]
    split
    case isTrue hroom =>
      obtain ⟨taken, htaken, hvalue⟩ := ih (front ++ [d]) hroom
      rw [List.append_assoc] at hvalue
      refine ⟨d :: taken, ⟨congrArg (d :: ·) htaken.eq_append, ?_, fun e rest hrest => ?_⟩, hvalue⟩
      · simpa using htaken.room
      · simpa using htaken.full e rest hrest
    case isFalse hroom =>
      refine ⟨[], ⟨rfl, ?_, ?_⟩, congrArg ofDigits (List.append_nil front).symm⟩
      · rwa [List.append_nil]
      · intro e rest hrest
        obtain ⟨rfl, -⟩ := List.cons.inj hrest
        rw [List.append_nil]
        exact Nat.not_lt.mp hroom

/-- The numeral is read as the significand `s`, to be scaled by the power `p` of ten.  The digits of
`s` are the leading ones before the point, and behind these as many of the fraction as there is
still room for.  A digit before the point that was dropped counts into the power; so does,
downwards, a digit of the fraction that was taken. -/
def Scales (n : Numeral) (s : Nat) (p : Int) : Prop :=
  ∃ taken dropped taken' unread, Leading [] n.whole taken dropped ∧
    Leading taken n.fraction taken' unread ∧ s = ofDigits (taken ++ taken') ∧
    p = n.exponent + dropped.length - taken'.length

/-- **The leading digits** that the reader takes. -/
theorem scales_scaled (n : Numeral) : n.Scales n.scaled.1 n.scaled.2 := by
  obtain ⟨taken, hwhole, hvalue⟩ := leading_absorb [] n.whole (by decide)
  obtain ⟨taken', hfraction, hvalue'⟩ := leading_absorb taken n.fraction hwhole.room
  have hscaled : n.scaled = ((absorb (ofDigits taken) n.fraction).1,
      n.exponent + (absorb (ofDigits []) n.whole).2.length
        - (n.fraction.length - (absorb (ofDigits taken) n.fraction).2.length : Nat)) := by
    rw [show ofDigits taken = _ from hvalue.symm]
    rfl
  refine ⟨taken, _, taken', _, hwhole, hfraction, ?_, ?_⟩
  · rw [hscaled, hvalue']
  · have hlength := congrArg List.length hfraction.eq_append
    rw [List.length_append] at hlength
    rw [hscaled]
    omega

theorem Scales.eq_scaled {n : Numeral} {s : Nat} {p : Int} (h : n.Scales s p) :
    s = n.scaled.1 ∧ p = n.scaled.2 := by
  obtain ⟨taken, dropped, taken', unread, hwhole, hfraction, rfl, rfl⟩ := h
  obtain ⟨ts, ds, ts', us, hwhole', hfraction', hs, hp⟩ := n.scales_scaled
  obtain ⟨rfl, rfl⟩ := hwhole.unique hwhole'
  obtain ⟨rfl, rfl⟩ := hfraction.unique hfraction'
  exact ⟨hs.symm, hp.symm⟩

/-! ### The range -/

/-- **The numeral is in range**: it is to be scaled down, or the product of the double nearest to
its leading digits and the double nearest to the power of ten is not rounded beyond the largest
double. -/
def InRange (n : Numeral) : Prop :=
  ∃ s p, n.Scales s p ∧ (p < 0 ∨ ∃ d e f, Nearest s d ∧ Nearest (10 ^ p.toNat) e ∧
    Nearest (d * e) f ∧ f ≤ largestDouble)

theorem overflows_iff {n : Numeral} : n.overflows = true ↔ n.scaled.1 ≠ 0 ∧ (308 < n.scaled.2 ∨
    0 ≤ n.scaled.2 ∧
      overflowBound ≤ roundToDouble n.scaled.1 * roundToDouble (10 ^ n.scaled.2.toNat)) := by
  simp [overflows]

theorem overflowBound_lt : overflowBound < 10 ^ 309 := by decide +kernel

theorem roundToDouble_zero : roundToDouble 0 = 0 := rfl

/-- What is not zero is not rounded to zero. -/
theorem roundToDouble_pos (h : 0 < x) : 0 < roundToDouble x := by
  have hdist := (nearest_roundToDouble x).dist_le 1 ⟨1, 0, by decide, rfl⟩
  by_contra hzero
  rw [Nat.eq_zero_of_not_pos hzero] at hdist
  simp only [Nat.dist] at hdist
  omega

/-- A power of ten beyond the doubles is rounded to a number beyond them. -/
theorem overflowBound_le_roundToDouble {p : Int} (h : 308 < p) :
    overflowBound ≤ roundToDouble (10 ^ p.toNat) := by
  obtain ⟨top, half, -, -, hbound, -, -, -, hgap⟩ := exists_top
  have hround := nearest_roundToDouble (10 ^ p.toNat)
  rcases hgap _ hround.hasBits with hle | hle
  · have hexponent : 309 ≤ p.toNat := by omega
    have hten := pow_le_pow_right₀ (show 1 ≤ 10 by decide) hexponent
    have hlt := hround.le_largestDouble_iff.mp hle
    exact absurd (overflowBound_lt.trans_le hten) hlt.asymm
  · exact (hbound ▸ Nat.le_add_right _ half).trans hle

/-- **The reader refuses** the numbers that are not in range, and no others. -/
theorem inRange_iff {n : Numeral} : n.InRange ↔ n.overflows = false := by
  rw [← Bool.not_eq_true, overflows_iff]
  constructor
  · rintro ⟨s, p, hscales, hrange⟩ ⟨hne, hlarge⟩
    obtain ⟨rfl, rfl⟩ := hscales.eq_scaled
    obtain hneg | ⟨d, e, f, hd, he, hf, hle⟩ := hrange
    · omega
    · have hlt := hf.le_largestDouble_iff.mp hle
      rw [hd.eq_roundToDouble, he.eq_roundToDouble] at hlt
      rcases hlarge with hpower | ⟨-, hproduct⟩
      · have hpos := roundToDouble_pos (Nat.pos_of_ne_zero hne)
        have hten := (overflowBound_le_roundToDouble hpower).trans (Nat.le_mul_of_pos_left _ hpos)
        exact absurd hlt (Nat.not_lt.mpr hten)
      · exact absurd hlt (Nat.not_lt.mpr hproduct)
  · intro hsmall
    refine ⟨_, _, n.scales_scaled, or_iff_not_imp_left.mpr fun hpower => ?_⟩
    refine ⟨_, _, _, nearest_roundToDouble _, nearest_roundToDouble _, nearest_roundToDouble _,
      (nearest_roundToDouble _).le_largestDouble_iff.mpr ?_⟩
    by_cases hzero : n.scaled.1 = 0
    · rw [hzero, roundToDouble_zero, Nat.zero_mul]
      decide +kernel
    · by_contra hproduct
      exact hsmall ⟨hzero, .inr ⟨Int.not_lt.mp hpower, Nat.not_lt.mp hproduct⟩⟩

end Numeral

end SyntaxTree.Json
