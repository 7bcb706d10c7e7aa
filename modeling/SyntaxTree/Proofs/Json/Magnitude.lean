/-
SyntaxTree/Proofs/Json/Magnitude.lean

How near the range of numerals comes to that of the doubles.  Whether a numeral is in range depends
on its leading digits and on a power of ten, both of them rounded.  Neither step goes far astray:
the scaled significand is near to the magnitude (`Numeral.Scales.nearly`), as near as a full
significand is long, and so is a rounded number to what it was (`Numeral.nearly_of_nearest`).  So a
number that is below the bound of the doubles by one part in `2 ^ 50` is in range, and one that is
beyond it by as much is not (`Numeral.inRange_of_lt`, `Numeral.not_inRange_of_le`).
-/
import Mathlib.Data.Nat.Digits.Defs
import Mathlib.Data.Rat.Cast.Order
import Mathlib.Tactic.Linarith
import Mathlib.Tactic.NormNum
import Mathlib.Tactic.Positivity
import SyntaxTree.Proofs.Json.Range

namespace SyntaxTree.Json

variable {w : List Char} {ds : List Nat} {n : Numeral}

/-! ### Digits -/

theorem digitValue_lt {c : Char} (h : isDigit c = true) : digitValue c < 10 := by
  rw [isDigit, Bool.and_eq_true, decide_eq_true_eq, decide_eq_true_eq] at h
  have hc : c.toNat ≤ '9'.toNat := h.2
  have hnine : '9'.toNat = 57 := rfl
  have hzero : '0'.toNat = 48 := rfl
  rw [digitValue]
  omega

theorem DigitsText.lt_ten (h : DigitsText w ds) : ∀ d ∈ ds, d < 10 := by
  rw [← h.values]
  intro d hd
  obtain ⟨c, hc, rfl⟩ := List.mem_map.mp hd
  exact digitValue_lt (h.all_isDigit c hc)

theorem NumeralText.lt_ten (h : NumeralText w n) :
    (∀ d ∈ n.whole, d < 10) ∧ ∀ d ∈ n.fraction, d < 10 := by
  obtain ⟨-, hwhole, hfraction, -⟩ := h
  refine ⟨hwhole.digits.lt_ten, ?_⟩
  generalize n.fraction = ds at hfraction ⊢
  cases hfraction with
  | absent => exact List.forall_mem_nil _
  | digits h => exact h.lt_ten

theorem ofDigits_lt (h : ∀ d ∈ ds, d < 10) : ofDigits ds < 10 ^ ds.length := by
  rw [ofDigits_eq, ← List.length_reverse]
  exact Nat.ofDigits_lt_base_pow_length (by decide) fun d hd => h d (List.mem_reverse.mp hd)

/-- A digit that finds no room finds the significand full. -/
theorem Leading.le_of_ne_nil {front taken left : List Nat} (h : Leading front ds taken left)
    (hds : ∀ d ∈ ds, d < 10) (hne : left ≠ []) : 2 ^ 60 ≤ ofDigits (front ++ taken) := by
  obtain ⟨d, rest, rfl⟩ := List.exists_cons_of_ne_nil hne
  have hd : d < 10 := hds d (by simp [h.eq_append])
  have hfull := h.full d rest rfl
  have hdigit : ofDigits [d] = d := Nat.zero_add d
  rw [ofDigits_append, hdigit, List.length_singleton] at hfull
  omega

namespace Numeral

/-! ### Being near -/

/-- The numbers differ by no more than one part in `2 ^ k`. -/
def Nearly (k : Nat) (x y : ℚ) : Prop := x ≤ (1 + 1 / 2 ^ k) * y ∧ y ≤ (1 + 1 / 2 ^ k) * x

theorem Nearly.refl {x : ℚ} (k : Nat) (h : 0 ≤ x) : Nearly k x x := by
  have hle : x ≤ (1 + 1 / 2 ^ k) * x :=
    le_mul_of_one_le_left h (le_add_of_nonneg_right (by positivity))
  exact ⟨hle, hle⟩

theorem Nearly.mul_right {x y z : ℚ} {k : Nat} (h : Nearly k x y) (hz : 0 ≤ z) :
    Nearly k (x * z) (y * z) := by
  rw [Nearly, ← mul_assoc, ← mul_assoc]
  exact ⟨mul_le_mul_of_nonneg_right h.1 hz, mul_le_mul_of_nonneg_right h.2 hz⟩

theorem Nearly.trans {x y z : ℚ} {j k l : Nat} (hxy : Nearly j x y) (hyz : Nearly k y z)
    (hx : 0 ≤ x) (hz : 0 ≤ z) (hl : (1 + 1 / 2 ^ j : ℚ) * (1 + 1 / 2 ^ k) ≤ 1 + 1 / 2 ^ l) :
    Nearly l x z := by
  have hj : (0 : ℚ) ≤ 1 + 1 / 2 ^ j := by positivity
  have hk : (0 : ℚ) ≤ 1 + 1 / 2 ^ k := by positivity
  constructor
  · calc x ≤ (1 + 1 / 2 ^ j) * y := hxy.1
      _ ≤ (1 + 1 / 2 ^ j) * ((1 + 1 / 2 ^ k) * z) := mul_le_mul_of_nonneg_left hyz.1 hj
      _ ≤ (1 + 1 / 2 ^ l) * z := by
        rw [← mul_assoc]
        exact mul_le_mul_of_nonneg_right hl hz
  · calc z ≤ (1 + 1 / 2 ^ k) * y := hyz.2
      _ ≤ (1 + 1 / 2 ^ k) * ((1 + 1 / 2 ^ j) * x) := mul_le_mul_of_nonneg_left hxy.2 hk
      _ ≤ (1 + 1 / 2 ^ l) * x := by
        rw [← mul_assoc, mul_comm (1 + 1 / 2 ^ k : ℚ)]
        exact mul_le_mul_of_nonneg_right hl hx

/-- Numbers with the same leading part are near, if that part is full. -/
theorem nearly_of_leading {lead u x y : Nat} (hfull : 2 ^ 60 ≤ lead) (hx : lead * u ≤ x)
    (hx' : x ≤ (lead + 1) * u) (hy : lead * u ≤ y) (hy' : y ≤ (lead + 1) * u) :
    Nearly 60 x y := by
  have hunit : 2 ^ 60 * u ≤ lead * u := Nat.mul_le_mul_right u hfull
  rw [Nat.add_mul, Nat.one_mul] at hx' hy'
  have hxy : 2 ^ 60 * x ≤ (2 ^ 60 + 1) * y := by omega
  have hyx : 2 ^ 60 * y ≤ (2 ^ 60 + 1) * x := by omega
  have hxy : (2 ^ 60 * x : ℚ) ≤ (2 ^ 60 + 1) * y := by exact_mod_cast hxy
  have hyx : (2 ^ 60 * y : ℚ) ≤ (2 ^ 60 + 1) * x := by exact_mod_cast hyx
  constructor <;> linarith

/-! ### The magnitude -/

/-- How large a numeral is, whatever its sign. -/
def magnitude (n : Numeral) : ℚ :=
  ofDigits (n.whole ++ n.fraction) * 10 ^ (n.exponent - n.fraction.length)

theorem magnitude_eq {s k : Nat} (hs : ofDigits (n.whole ++ n.fraction) = s)
    (hk : n.exponent - n.fraction.length = k) : n.magnitude = (s * 10 ^ k : Nat) := by
  rw [magnitude, hs, hk, zpow_natCast]
  norm_cast

/-- The leading digits before and behind the point stand for all digits. -/
theorem nearly_leading {taken dropped taken' unread : List Nat}
    (h : ∀ d ∈ dropped ++ (taken' ++ unread), d < 10)
    (hfull : dropped ≠ [] → 2 ^ 60 ≤ ofDigits taken)
    (hfull' : unread ≠ [] → 2 ^ 60 ≤ ofDigits (taken ++ taken')) :
    Nearly 60 (ofDigits (taken ++ taken') * 10 ^ (dropped.length + unread.length) : Nat)
      (ofDigits (taken ++ (dropped ++ (taken' ++ unread))) : Nat) := by
  have hbelow := ofDigits_lt h
  by_cases hdropped : dropped = []
  · subst hdropped
    by_cases hunread : unread = []
    · subst hunread
      simpa using Nearly.refl 60 (Nat.cast_nonneg _)
    · have hlow : ofDigits unread < 10 ^ unread.length := ofDigits_lt fun d hd => h d (by simp [hd])
      rw [List.nil_append, ← List.append_assoc, ofDigits_append (taken ++ taken'), List.length_nil,
        Nat.zero_add]
      refine nearly_of_leading (hfull' hunread) (Nat.le_refl _) ?_ (Nat.le_add_right _ _) ?_
      · exact Nat.mul_le_mul_right _ (Nat.le_succ _)
      · rw [Nat.add_mul, Nat.one_mul]
        omega
  · have hlow : ofDigits taken' < 10 ^ taken'.length := ofDigits_lt fun d hd => h d (by simp [hd])
    have hunit : 10 ^ (dropped ++ (taken' ++ unread)).length
        = 10 ^ taken'.length * 10 ^ (dropped.length + unread.length) := by
      rw [← Nat.pow_add, List.length_append, List.length_append, Nat.add_left_comm]
    rw [ofDigits_append taken taken', ofDigits_append taken]
    refine nearly_of_leading (u := 10 ^ (dropped ++ (taken' ++ unread)).length)
      (hfull hdropped) ?_ ?_ (Nat.le_add_right _ _) ?_
    · rw [hunit, ← Nat.mul_assoc]
      exact Nat.mul_le_mul_right _ (Nat.le_add_right _ _)
    · rw [hunit, ← Nat.mul_assoc]
      refine Nat.mul_le_mul_right _ ?_
      rw [Nat.add_mul, Nat.one_mul]
      omega
    · rw [Nat.add_mul, Nat.one_mul]
      omega

/-- **The scaled significand** is near to the magnitude. -/
theorem Scales.nearly {s : Nat} {p : Int} (h : n.Scales s p) (hwhole : ∀ d ∈ n.whole, d < 10)
    (hfraction : ∀ d ∈ n.fraction, d < 10) : Nearly 60 (s * 10 ^ p) n.magnitude := by
  obtain ⟨taken, dropped, taken', unread, hleading, hleading', rfl, rfl⟩ := h
  have hw := hleading.eq_append
  have hf := hleading'.eq_append
  have hdigits : ∀ d ∈ dropped ++ (taken' ++ unread), d < 10 := by
    intro d hd
    rcases List.mem_append.mp hd with hd | hd
    · exact hwhole d (hw ▸ List.mem_append_right _ hd)
    · exact hfraction d (hf ▸ hd)
  have hfull : dropped ≠ [] → 2 ^ 60 ≤ ofDigits taken := hleading.le_of_ne_nil hwhole
  have hfull' := hleading'.le_of_ne_nil hfraction
  have hnear := (nearly_leading hdigits hfull hfull').mul_right
    (zpow_nonneg (by norm_num : (0 : ℚ) ≤ 10) (n.exponent - n.fraction.length))
  rw [← hf] at hnear
  rw [magnitude, hw, List.append_assoc]
  refine (congrArg (Nearly 60 · _) ?_).mp hnear
  have hpower : ((dropped.length + unread.length : Nat) : Int) + (n.exponent - n.fraction.length)
      = n.exponent + dropped.length - taken'.length := by
    rw [hf, List.length_append]
    push_cast
    ring
  rw [Nat.cast_mul, Nat.cast_pow, mul_assoc, ← zpow_natCast, Nat.cast_ofNat,
    ← zpow_add₀ (by norm_num : (10 : ℚ) ≠ 0), hpower]

theorem Scales.lt {s : Nat} {p : Int} (h : n.Scales s p) : s < 2 ^ 64 := by
  obtain ⟨taken, dropped, taken', unread, -, hleading, rfl, -⟩ := h
  exact hleading.room

/-! ### Rounding -/

/-- **A nearest double** is near: the step between the doubles about a number is one part in
`2 ^ 52` of it, and half of that goes to either side. -/
theorem nearly_of_nearest {x d : Nat} (h : Nearest x d) : Nearly 52 d x := by
  by_cases hlog : x.log2 ≤ 52
  · -- the number has no bits to spare
    rw [h.eq_roundToDouble, roundToDouble_of_log2_le hlog]
    exact .refl 52 (Nat.cast_nonneg x)
  · obtain ⟨below, left, j, hsplit, hleft, hlow, hhigh, -⟩ :=
      exists_roundToDouble (Nat.lt_of_not_le hlog)
    have hdown := h.dist_le _ (hasBits_mul hhigh j)
    have hup := h.dist_le _ (hasBits_mul_of_le hhigh j)
    have hunit : 2 ^ 52 * 2 ^ j ≤ below * 2 ^ j := Nat.mul_le_mul_right _ hlow
    rw [Nat.succ_mul] at hup
    generalize below * 2 ^ j = low at *
    simp only [Nat.dist] at hdown hup
    have hup : 2 ^ 53 * d ≤ (2 ^ 53 + 1) * x := by omega
    have hdown : 2 ^ 53 * x ≤ 2 ^ 53 * d + x := by omega
    have hup : (2 ^ 53 * d : ℚ) ≤ (2 ^ 53 + 1) * x := by exact_mod_cast hup
    have hdown : (2 ^ 53 * x : ℚ) ≤ 2 ^ 53 * d + x := by exact_mod_cast hdown
    have hpos : (0 : ℚ) ≤ x := Nat.cast_nonneg x
    constructor <;> linarith

/-! ### The range -/

theorem magnitude_nonneg (n : Numeral) : 0 ≤ n.magnitude :=
  mul_nonneg (Nat.cast_nonneg _) (zpow_nonneg (by norm_num) _)

/-- The product of the nearest doubles is near to the magnitude. -/
theorem Scales.nearly_product {s d e : Nat} {p : Int} (h : n.Scales s p)
    (hwhole : ∀ d ∈ n.whole, d < 10) (hfraction : ∀ d ∈ n.fraction, d < 10) (hpower : 0 ≤ p)
    (hd : Nearest s d) (he : Nearest (10 ^ p.toNat) e) : Nearly 50 (d * e : Nat) n.magnitude := by
  have hscaled := h.nearly hwhole hfraction
  obtain ⟨k, rfl⟩ := Int.eq_ofNat_of_zero_le hpower
  rw [zpow_natCast] at hscaled
  rw [Int.toNat_natCast] at he
  rw [Nat.cast_mul]
  have hten : Nearly 52 e (10 ^ k) := by exact_mod_cast nearly_of_nearest he
  have hsignificand : Nearly 52 (d * e) (s * e) :=
    (nearly_of_nearest hd).mul_right (Nat.cast_nonneg _)
  have hpowers : Nearly 52 (s * e) (s * 10 ^ k) := by
    rw [mul_comm, mul_comm (s : ℚ)]
    exact hten.mul_right (Nat.cast_nonneg _)
  have hrest := hpowers.trans hscaled (l := 51) (by positivity) n.magnitude_nonneg (by norm_num)
  exact hsignificand.trans hrest (by positivity) n.magnitude_nonneg (by norm_num)

theorem cast_overflowBound : (overflowBound : ℚ) = 2 ^ 1024 - 2 ^ 970 := by
  have hbound : overflowBound + 2 ^ 970 = 2 ^ 1024 := by decide +kernel
  have hcast : ((overflowBound + 2 ^ 970 : Nat) : ℚ) = (2 ^ 1024 : Nat) := congrArg _ hbound
  rw [Nat.cast_add, Nat.cast_pow, Nat.cast_pow, Nat.cast_ofNat] at hcast
  exact eq_sub_of_add_eq hcast

theorem le_overflowBound : 2 ^ 65 ≤ overflowBound := by decide +kernel

/-- **A number below the doubles' bound** by one part in `2 ^ 50` is in range. -/
theorem inRange_of_lt (h : NumeralText w n)
    (hn : (1 + 1 / 2 ^ 50) * n.magnitude < 2 ^ 1024 - 2 ^ 970) : n.InRange := by
  obtain ⟨hwhole, hfraction⟩ := h.lt_ten
  rw [← cast_overflowBound] at hn
  refine ⟨_, _, n.scales_scaled, or_iff_not_imp_left.mpr fun hpower => ?_⟩
  have hproduct := (n.scales_scaled.nearly_product hwhole hfraction (Int.not_lt.mp hpower)
    (nearest_roundToDouble _) (nearest_roundToDouble _)).1
  exact ⟨_, _, _, nearest_roundToDouble _, nearest_roundToDouble _, nearest_roundToDouble _,
    (nearest_roundToDouble _).le_largestDouble_iff.mpr (Nat.cast_lt.mp (hproduct.trans_lt hn))⟩

/-- **A number beyond it** by as much is not. -/
theorem not_inRange_of_le (h : NumeralText w n)
    (hn : (1 + 1 / 2 ^ 50) * (2 ^ 1024 - 2 ^ 970) ≤ n.magnitude) : ¬ n.InRange := by
  obtain ⟨hwhole, hfraction⟩ := h.lt_ten
  rw [← cast_overflowBound] at hn
  rintro ⟨s, p, hscales, hrange⟩
  rcases lt_or_ge p 0 with hpower | hpower
  · -- a word full of digits is too small to be scaled down
    have hscaled := (hscales.nearly hwhole hfraction).2
    have hsmall : (s : ℚ) < 2 ^ 64 := by exact_mod_cast hscales.lt
    have hone : (10 : ℚ) ^ p ≤ 1 := zpow_le_one_of_nonpos₀ (by norm_num) hpower.le
    have hdown : s * (10 : ℚ) ^ p ≤ s := mul_le_of_le_one_right (Nat.cast_nonneg _) hone
    have hbound : (2 ^ 65 : ℚ) ≤ overflowBound := by exact_mod_cast le_overflowBound
    linarith
  · obtain ⟨d, e, f, hd, he, hf, hle⟩ := hrange.resolve_left (Int.not_lt.mpr hpower)
    have hproduct := (hscales.nearly_product hwhole hfraction hpower hd he).2
    have hlt : ((d * e : Nat) : ℚ) < overflowBound :=
      Nat.cast_lt.mpr (hf.le_largestDouble_iff.mp hle)
    linarith

end Numeral

end SyntaxTree.Json
