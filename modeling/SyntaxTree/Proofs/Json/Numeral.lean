/-
SyntaxTree/Proofs/Json/Numeral.lean

Numbers are read as the grammar says.  Nothing marks the end of a number, and so its reader
takes as much as it can: it finds a text of a number in range where the next character could not
belong to it (`numeral_append`), and only texts of such numbers are found (`numeralText_of_ok`).
-/
import SyntaxTree.Proofs.Json.Range
import SyntaxTree.Proofs.Json.Row

namespace SyntaxTree.Json

open Reader

variable {cs w rest sign whole fraction exponent : List Char} {ds : List Nat} {e : Int} {n : Numeral}

/-! ### Runs of digits -/

theorem Reader.Past.mono {p q : Char → Bool} (h : Past p cs) (hpq : ∀ c, q c = true → p c = true) :
    Past q cs := by
  intro c hc
  have hp := h c hc
  cases hq : q c with
  | false => rfl
  | true => rw [hpq c hq] at hp; cases hp

theorem DigitsText.exists_cons (h : DigitsText w ds) :
    ∃ c u, w = c :: u ∧ isDigit c = true := by
  obtain ⟨c, u, rfl⟩ := List.exists_cons_of_ne_nil h.ne_nil
  exact ⟨c, u, rfl, h.all_isDigit c List.mem_cons_self⟩

/-- A character that is no digit does not begin a run of digits. -/
theorem DigitsText.past (h : DigitsText w ds) {c : Char} (hc : isDigit c = false) :
    Past (fun d => decide (d = c)) (w ++ rest) := by
  obtain ⟨d, u, rfl, hd⟩ := h.exists_cons
  refine past_cons.mpr (decide_eq_false ?_)
  rintro rfl
  rw [hd] at hc
  cases hc

theorem digits_eq_ok_iff : digits cs = .ok (ds, rest) ↔
    ∃ w, DigitsText w ds ∧ cs = w ++ rest ∧ Past isDigit rest := by
  rw [digits, bind_eq_ok_iff]
  constructor
  · rintro ⟨c, mid, hpeek, h⟩
    obtain ⟨u, rfl, rfl⟩ := peek_eq_ok_iff.mp hpeek
    split at h
    case isTrue hc =>
      rw [bind_eq_ok_iff] at h
      obtain ⟨w, mid, hrun, hpure⟩ := h
      obtain ⟨hcs, hw, hpast⟩ := takeWhile_eq_ok_iff.mp hrun
      obtain ⟨rfl, rfl⟩ := pure_eq_ok_iff.mp hpure
      refine ⟨w, ⟨?_, hw, rfl⟩, hcs, hpast⟩
      -- the first digit is in the run
      rintro rfl
      rw [List.nil_append] at hcs
      rw [← hcs, past_cons, hc] at hpast
      cases hpast
    case isFalse => exact absurd h refuse_ne_ok
  · rintro ⟨w, hw, rfl, hpast⟩
    obtain ⟨c, u, rfl, hc⟩ := hw.exists_cons
    have hrun : takeWhile isDigit (c :: u ++ rest) = .ok (c :: u, rest) :=
      takeWhile_eq_ok_iff.mpr ⟨rfl, hw.all_isDigit, hpast⟩
    refine ⟨c, c :: u ++ rest, peek_eq_ok_iff.mpr ⟨u ++ rest, rfl, rfl⟩, ?_⟩
    rw [if_pos hc, bind_of_ok hrun, hw.values]
    rfl

theorem wholeDigits_eq_ok_iff : wholeDigits cs = .ok (ds, rest) ↔
    ∃ w, WholeText w ds ∧ cs = w ++ rest ∧ Past isDigit rest := by
  rw [wholeDigits, bind_eq_ok_iff]
  constructor
  · rintro ⟨ds', mid, hdigits, h⟩
    obtain ⟨w, hw, rfl, hpast⟩ := digits_eq_ok_iff.mp hdigits
    split at h
    case h_1 => exact absurd h refuse_ne_ok
    case h_2 hleading =>
      obtain ⟨rfl, rfl⟩ := pure_eq_ok_iff.mp h
      refine ⟨w, ⟨hw, fun hzero => ?_⟩, rfl, hpast⟩
      match ds, hzero with
      | [d], hzero => rw [Option.some.inj hzero]
      | d :: d' :: ds, hzero => exact absurd rfl (Option.some.inj hzero ▸ hleading d' ds)
  · rintro ⟨w, ⟨hw, hleading⟩, rfl, hpast⟩
    refine ⟨ds, rest, digits_eq_ok_iff.mpr ⟨w, hw, rfl, hpast⟩, ?_⟩
    split
    case h_1 => cases hleading rfl
    case h_2 => rfl

/-! ### Fraction and exponent -/

theorem fractionText_of_ok (h : fractionDigits cs = .ok (ds, rest)) :
    ∃ w, FractionText w ds ∧ cs = w ++ rest := by
  rw [fractionDigits, bind_eq_ok_iff] at h
  obtain ⟨found, mid, haccept, h⟩ := h
  rcases accept_eq_ok_iff.mp haccept with ⟨rfl, c, rfl, hc⟩ | ⟨rfl, rfl, -⟩
  · obtain ⟨w, hw, rfl, -⟩ := digits_eq_ok_iff.mp h
    rw [of_decide_eq_true hc]
    exact ⟨'.' :: w, .digits hw, rfl⟩
  · obtain ⟨rfl, rfl⟩ := pure_eq_ok_iff.mp h
    exact ⟨[], .absent, rfl⟩

theorem fractionDigits_append (h : FractionText w ds)
    (hpast : Past (fun c => isDigit c || c = '.') rest) :
    fractionDigits (w ++ rest) = .ok (ds, rest) := by
  cases h with
  | absent =>
    have hpoint : Past (fun c => decide (c = '.')) rest := hpast.mono fun c hc => by simp [hc]
    have haccept : accept (fun c => decide (c = '.')) rest = .ok (false, rest) :=
      accept_eq_ok_iff.mpr (.inr ⟨rfl, rfl, hpoint⟩)
    rw [List.nil_append, fractionDigits, bind_of_ok haccept]
    rfl
  | @digits w _ hw =>
    have hdigit : Past isDigit rest := hpast.mono fun c hc => by simp [hc]
    have haccept : accept (fun c => decide (c = '.')) ('.' :: (w ++ rest)) = .ok (true, w ++ rest) :=
      accept_eq_ok_iff.mpr (.inl ⟨rfl, '.', rfl, rfl⟩)
    rw [List.cons_append, fractionDigits, bind_of_ok haccept]
    exact digits_eq_ok_iff.mpr ⟨w, hw, rfl, hdigit⟩

theorem exponentText_of_ok (h : exponentPart cs = .ok (e, rest)) :
    ∃ w, ExponentText w e ∧ cs = w ++ rest := by
  rw [exponentPart, bind_eq_ok_iff] at h
  obtain ⟨found, mid, haccept, h⟩ := h
  rcases accept_eq_ok_iff.mp haccept with ⟨rfl, c, rfl, hc⟩ | ⟨rfl, rfl, -⟩
  · rw [if_pos rfl, bind_eq_ok_iff] at h
    have hc : c = 'e' ∨ c = 'E' := by simpa using hc
    obtain ⟨negative, mid, hminus, h⟩ := h
    rcases accept_eq_ok_iff.mp hminus with ⟨rfl, d, rfl, hd⟩ | ⟨rfl, rfl, -⟩
    · rw [if_pos rfl, bind_eq_ok_iff] at h
      obtain ⟨ds, mid, hdigits, h⟩ := h
      obtain ⟨w, hw, rfl, -⟩ := digits_eq_ok_iff.mp hdigits
      obtain ⟨rfl, rfl⟩ := pure_eq_ok_iff.mp h
      rw [of_decide_eq_true hd]
      exact ⟨c :: '-' :: w, .minus hc hw, rfl⟩
    · rw [if_neg Bool.false_ne_true, bind_eq_ok_iff] at h
      obtain ⟨plus, mid, hplus, h⟩ := h
      rw [bind_eq_ok_iff] at h
      obtain ⟨ds, mid', hdigits, h⟩ := h
      obtain ⟨w, hw, rfl, -⟩ := digits_eq_ok_iff.mp hdigits
      obtain ⟨rfl, rfl⟩ := pure_eq_ok_iff.mp h
      rcases accept_eq_ok_iff.mp hplus with ⟨-, d, rfl, hd⟩ | ⟨-, rfl, -⟩
      · rw [of_decide_eq_true hd]
        exact ⟨c :: '+' :: w, .plus hc hw, rfl⟩
      · exact ⟨c :: w, .bare hc hw, rfl⟩
  · obtain ⟨rfl, rfl⟩ := pure_eq_ok_iff.mp h
    exact ⟨[], .absent, rfl⟩

theorem exponentPart_append (h : ExponentText w e) (hpast : Past extendsNumber rest) :
    exponentPart (w ++ rest) = .ok (e, rest) := by
  have hdigit : Past isDigit rest := hpast.mono fun c hc => by simp [extendsNumber, hc]
  have begins : ∀ {c : Char} {u : List Char}, (c = 'e' ∨ c = 'E') →
      accept (fun c => decide (c = 'e') || decide (c = 'E')) (c :: u) = .ok (true, u) := fun hc =>
    accept_eq_ok_iff.mpr (.inl ⟨rfl, _, rfl, by simpa using hc⟩)
  have passes : ∀ {c : Char} {ds : List Nat} {v : List Char}, DigitsText v ds → isDigit c = false →
      accept (fun d => decide (d = c)) (v ++ rest) = .ok (false, v ++ rest) := fun hv hc =>
    accept_eq_ok_iff.mpr (.inr ⟨rfl, rfl, hv.past hc⟩)
  have number : ∀ {ds : List Nat} {v : List Char}, DigitsText v ds →
      digits (v ++ rest) = .ok (ds, rest) := fun hv =>
    digits_eq_ok_iff.mpr ⟨_, hv, rfl, hdigit⟩
  cases h with
  | absent =>
    have hnone : Past (fun c => decide (c = 'e') || decide (c = 'E')) rest :=
      hpast.mono fun c hc => by
        have hc : c = 'e' ∨ c = 'E' := by simpa using hc
        rcases hc with rfl | rfl <;> rfl
    have haccept : accept (fun c => decide (c = 'e') || decide (c = 'E')) rest = .ok (false, rest) :=
      accept_eq_ok_iff.mpr (.inr ⟨rfl, rfl, hnone⟩)
    rw [List.nil_append, exponentPart, bind_of_ok haccept]
    rfl
  | bare he hv =>
    rw [List.cons_append, exponentPart, bind_of_ok (begins he), if_pos rfl,
      bind_of_ok (passes hv rfl), if_neg Bool.false_ne_true, bind_of_ok (passes hv rfl),
      bind_of_ok (number hv)]
    rfl
  | @plus _ v _ he hv =>
    have hminus : accept (fun d => decide (d = '-')) ('+' :: (v ++ rest))
        = .ok (false, '+' :: (v ++ rest)) :=
      accept_eq_ok_iff.mpr (.inr ⟨rfl, rfl, past_cons.mpr rfl⟩)
    have hplus : accept (fun d => decide (d = '+')) ('+' :: (v ++ rest)) = .ok (true, v ++ rest) :=
      accept_eq_ok_iff.mpr (.inl ⟨rfl, '+', rfl, rfl⟩)
    rw [List.cons_append, List.cons_append, exponentPart, bind_of_ok (begins he), if_pos rfl,
      bind_of_ok hminus, if_neg Bool.false_ne_true, bind_of_ok hplus, bind_of_ok (number hv)]
    rfl
  | @minus _ v _ he hv =>
    have hminus : accept (fun d => decide (d = '-')) ('-' :: (v ++ rest)) = .ok (true, v ++ rest) :=
      accept_eq_ok_iff.mpr (.inl ⟨rfl, '-', rfl, rfl⟩)
    rw [List.cons_append, List.cons_append, exponentPart, bind_of_ok (begins he), if_pos rfl,
      bind_of_ok hminus, if_pos rfl, bind_of_ok (number hv)]
    rfl

/-! ### Numbers -/

/-- A number with one digit before the point, digits behind it and a power of ten. -/
theorem numeralText_scientific {c : Char} {d : Nat} {es : List Nat} (hwhole : DigitsText [c] [d])
    (hfraction : DigitsText fraction ds) (hexponent : DigitsText exponent es) :
    NumeralText (c :: '.' :: (fraction ++ 'e' :: exponent)) ⟨false, [d], ds, ofDigits es⟩ := by
  have hdigit : WholeText [c] [d] := ⟨hwhole, fun h => congrArg ([·]) (Option.some.inj h)⟩
  exact .parts (n := ⟨false, [d], ds, ofDigits es⟩) .plus hdigit (.digits hfraction)
    (.bare (.inl rfl) hexponent)

/-- **Only numbers are read**, and only those that are in range. -/
theorem numeralText_of_ok (h : numeral cs = .ok (n, rest)) :
    ∃ w, NumeralText w n ∧ n.InRange ∧ cs = w ++ rest := by
  rw [numeral, bind_eq_ok_iff] at h
  obtain ⟨negative, mid, hsign, h⟩ := h
  rw [bind_eq_ok_iff] at h
  obtain ⟨whole, mid₁, hwhole, h⟩ := h
  rw [bind_eq_ok_iff] at h
  obtain ⟨fraction, mid₂, hfraction, h⟩ := h
  rw [bind_eq_ok_iff] at h
  obtain ⟨exponent, mid₃, hexponent, h⟩ := h
  obtain ⟨we, he, rfl⟩ := exponentText_of_ok hexponent
  obtain ⟨wf, hf, rfl⟩ := fractionText_of_ok hfraction
  obtain ⟨ww, hw, rfl, -⟩ := wholeDigits_eq_ok_iff.mp hwhole
  split at h
  case isTrue => exact absurd h refuse_ne_ok
  case isFalse hsize =>
    obtain ⟨rfl, rfl⟩ := pure_eq_ok_iff.mp h
    have hsize := Numeral.inRange_iff.mpr (Bool.not_eq_true _ ▸ hsize)
    rcases accept_eq_ok_iff.mp hsign with ⟨rfl, c, rfl, hc⟩ | ⟨rfl, rfl, -⟩
    · rw [of_decide_eq_true hc]
      exact ⟨['-'] ++ ww ++ wf ++ we, .parts .minus hw hf he, hsize, by simp⟩
    · exact ⟨[] ++ ww ++ wf ++ we, .parts .plus hw hf he, hsize, by simp⟩

/-- An exponent does not go on a fraction, -/
theorem ExponentText.past (h : ExponentText exponent e) (hpast : Past extendsNumber rest) :
    Past (fun c => isDigit c || c = '.') (exponent ++ rest) := by
  have letter : ∀ {c : Char} {u : List Char}, (c = 'e' ∨ c = 'E') →
      Past (fun c => isDigit c || c = '.') (c :: u) := by
    rintro c u (rfl | rfl) <;> exact past_cons.mpr (by decide)
  cases h with
  | absent => exact hpast.mono fun c hc => by simp [extendsNumber, hc]
  | bare he => exact letter he
  | plus he => exact letter he
  | minus he => exact letter he

/-- nor does a fraction go on the digits before it. -/
theorem FractionText.past (h : FractionText fraction ds) (he : ExponentText exponent e)
    (hpast : Past extendsNumber rest) : Past isDigit (fraction ++ (exponent ++ rest)) := by
  cases h with
  | absent => exact (he.past hpast).mono fun c hc => by simp [hc]
  | digits => exact past_cons.mpr (by decide)

/-- A sign is read off a number, if there is one. -/
theorem accept_sign {negative : Bool} (h : SignText sign negative) (hw : WholeText whole ds) :
    accept (fun c => decide (c = '-')) (sign ++ (whole ++ rest)) = .ok (negative, whole ++ rest) := by
  cases h with
  | plus =>
    exact accept_eq_ok_iff.mpr (.inr ⟨rfl, rfl, hw.digits.past rfl⟩)
  | minus => exact accept_eq_ok_iff.mpr (.inl ⟨rfl, '-', rfl, rfl⟩)

/-- **A number is read** where nothing that follows could belong to it. -/
theorem numeral_append (h : NumeralText w n) (hn : n.InRange)
    (hpast : Past extendsNumber rest) : numeral (w ++ rest) = .ok (n, rest) := by
  obtain ⟨hsign, hwhole, hfraction, hexponent⟩ := h
  rename_i sign whole fraction exponent
  have hw : wholeDigits (whole ++ (fraction ++ (exponent ++ rest)))
      = .ok (n.whole, fraction ++ (exponent ++ rest)) :=
    wholeDigits_eq_ok_iff.mpr ⟨whole, hwhole, rfl, hfraction.past hexponent hpast⟩
  have hf := fractionDigits_append hfraction (hexponent.past hpast)
  have he := exponentPart_append hexponent hpast
  have hs : accept (fun c => decide (c = '-')) (sign ++ (whole ++ (fraction ++ (exponent ++ rest))))
      = .ok (n.negative, whole ++ (fraction ++ (exponent ++ rest))) := accept_sign hsign hwhole
  rw [List.append_assoc, List.append_assoc, List.append_assoc, numeral, bind_of_ok hs, bind_of_ok hw,
    bind_of_ok hf, bind_of_ok he]
  show (if n.overflows = true then refuse .badSyntax else pure n : Reader Numeral) rest = _
  rw [Numeral.inRange_iff.mp hn]
  rfl

end SyntaxTree.Json
