/-
SyntaxTree/Proofs/Json/Text.lean

Strings are read as the grammar says, and what is written for a string is one of its texts.

A string needs no look at what follows it, so the law of every reader here is an equivalence:
it succeeds on `cs` with `x` and leaves `rest` if and only if `cs = w ++ rest` for a text `w`
of `x` (`escapedUnits_eq_ok_iff`, `escaped_eq_ok_iff`, `textBody_eq_ok_iff`).
-/
import SyntaxTree.Proofs.Json.Reader

namespace SyntaxTree.Json

open Reader

variable {cs w rest : List Char} {c : Char} {n : Nat}

/-! ### Escapes -/

theorem hexUnit_eq_ok_iff : hexUnit cs = .ok (n, rest) ↔
    ∃ a b c d, hexUnit? a b c d = some n ∧ cs = a :: b :: c :: d :: rest := by
  constructor
  · intro h
    unfold hexUnit at h
    by_cases hbytes : byteCount (cs.take 4) < 4
    · rw [if_pos hbytes] at h
      cases h
    · rw [if_neg hbytes] at h
      split at h
      case h_1 a b c d u =>
        cases hunit : hexUnit? a b c d with
        | none => rw [hunit] at h; cases h
        | some unit =>
          rw [hunit] at h
          obtain ⟨rfl, rfl⟩ := Prod.mk.inj (Except.ok.inj h)
          exact ⟨a, b, c, d, hunit, rfl⟩
      case h_2 => cases h
  · rintro ⟨a, b, c, d, hunit, rfl⟩
    -- four characters are at least four bytes
    have hbytes : ¬ byteCount (List.take 4 (a :: b :: c :: d :: rest)) < 4 := by
      have ha := a.utf8Size_pos
      have hb := b.utf8Size_pos
      have hc := c.utf8Size_pos
      have hd := d.utf8Size_pos
      simp only [List.take, byteCount, List.foldr]
      omega
    rw [hexUnit, if_neg hbytes]
    simp [hunit]

/-- The first half of a pair is no second half. -/
theorem isLowSurrogate_eq_false (h : isHighSurrogate n = true) : isLowSurrogate n = false := by
  simp only [isHighSurrogate, isLowSurrogate, Bool.and_eq_true, decide_eq_true_eq,
    Bool.and_eq_false_iff, decide_eq_false_iff_not] at h ⊢
  omega

theorem escapedUnits_eq_ok_iff :
    escapedUnits cs = .ok (c, rest) ↔ ∃ w, UnitsText w c ∧ cs = w ++ rest := by
  rw [escapedUnits, bind_eq_ok_iff]
  constructor
  · rintro ⟨n, mid, hn, h⟩
    obtain ⟨a, b, c', d, hunit, rfl⟩ := hexUnit_eq_ok_iff.mp hn
    split at h
    case isTrue => exact absurd h refuse_ne_ok
    case isFalse hlow =>
      rw [Bool.not_eq_true] at hlow
      split at h
      case isTrue hhigh =>
        rw [bind_eq_ok_iff] at h
        obtain ⟨_, mid, hword, h⟩ := h
        obtain rfl := word_eq_ok_iff.mp hword
        rw [bind_eq_ok_iff] at h
        obtain ⟨low, mid, hl, h⟩ := h
        obtain ⟨a', b', c', d', hunit', rfl⟩ := hexUnit_eq_ok_iff.mp hl
        split at h
        case isTrue hlow' =>
          obtain ⟨hc, hrest⟩ := pure_eq_ok_iff.mp h
          rw [hc, hrest]
          exact ⟨_, .pair hunit hhigh hunit' hlow', rfl⟩
        case isFalse => exact absurd h refuse_ne_ok
      case isFalse hhigh =>
        rw [Bool.not_eq_true] at hhigh
        obtain ⟨rfl, rfl⟩ := pure_eq_ok_iff.mp h
        exact ⟨_, .single hunit hlow hhigh, rfl⟩
  · rintro ⟨w, hw, rfl⟩
    cases hw with
    | single hunit hlow hhigh =>
      refine ⟨_, _, hexUnit_eq_ok_iff.mpr ⟨_, _, _, _, hunit, rfl⟩, ?_⟩
      rw [hlow, hhigh]
      rfl
    | @pair a b c d a' b' c' d' high low hunit hhigh hunit' hlow =>
      refine ⟨_, _, hexUnit_eq_ok_iff.mpr ⟨_, _, _, _, hunit, rfl⟩, ?_⟩
      have hword : word ['\\', 'u'] ('\\' :: 'u' :: a' :: b' :: c' :: d' :: rest)
          = .ok ((), a' :: b' :: c' :: d' :: rest) := word_eq_ok_iff.mpr rfl
      have hhex : hexUnit (a' :: b' :: c' :: d' :: rest) = .ok (low, rest) :=
        hexUnit_eq_ok_iff.mpr ⟨_, _, _, _, hunit', rfl⟩
      rw [isLowSurrogate_eq_false hhigh, hhigh, if_neg Bool.false_ne_true, if_pos rfl]
      show (word ['\\', 'u'] >>= _) ('\\' :: 'u' :: a' :: b' :: c' :: d' :: rest) = _
      rw [bind_of_ok hword, bind_of_ok hhex, hlow]
      rfl

theorem lookup_shortEscapes {letter : Char} :
    shortEscapes.lookup letter = some c ↔ (letter, c) ∈ shortEscapes := by
  constructor
  · intro h
    obtain ⟨l, r, hl, -⟩ := List.lookup_eq_some_iff.mp h
    exact hl ▸ List.mem_append_right l List.mem_cons_self
  · intro h
    simp only [shortEscapes, List.mem_cons, Prod.mk.injEq, List.not_mem_nil, or_false] at h
    rcases h with ⟨rfl, rfl⟩ | ⟨rfl, rfl⟩ | ⟨rfl, rfl⟩ | ⟨rfl, rfl⟩ | ⟨rfl, rfl⟩ | ⟨rfl, rfl⟩ |
      ⟨rfl, rfl⟩ | ⟨rfl, rfl⟩ <;> rfl

theorem escaped_eq_ok_iff :
    escaped cs = .ok (c, rest) ↔ ∃ w, EscapeText w c ∧ cs = w ++ rest := by
  rw [escaped, bind_eq_ok_iff]
  constructor
  · rintro ⟨letter, mid, hnext, h⟩
    obtain rfl := next_eq_ok_iff.mp hnext
    split at h
    case isTrue hu =>
      subst hu
      obtain ⟨w, hw, rfl⟩ := escapedUnits_eq_ok_iff.mp h
      exact ⟨'u' :: w, .units hw, rfl⟩
    case isFalse =>
      cases hlookup : shortEscapes.lookup letter with
      | none =>
        rw [hlookup] at h
        exact absurd h refuse_ne_ok
      | some meant =>
        rw [hlookup] at h
        obtain ⟨rfl, rfl⟩ := pure_eq_ok_iff.mp h
        exact ⟨[letter], .short (lookup_shortEscapes.mp hlookup), rfl⟩
  · rintro ⟨w, hw, rfl⟩
    cases hw with
    | @short letter _ hshort =>
      have hu : letter ≠ 'u' := by
        rintro rfl
        simp [shortEscapes] at hshort
      refine ⟨letter, rest, next_eq_ok_iff.mpr rfl, ?_⟩
      rw [if_neg hu, lookup_shortEscapes.mpr hshort]
      rfl
    | @units w _ hunits =>
      refine ⟨'u', w ++ rest, next_eq_ok_iff.mpr rfl, ?_⟩
      rw [if_pos rfl]
      exact escapedUnits_eq_ok_iff.mpr ⟨w, hunits, rfl⟩

/-! ### Strings -/

/-- A turn takes the text of one character, or the quote that ends the string. -/
theorem textTurn_eq_ok_iff {reversed : List Char} {t : Turn (List Char) String} :
    textTurn reversed cs = .ok (t, rest) ↔
      (cs = '"' :: rest ∧ t = .finished (.ofList reversed.reverse)) ∨
        ∃ w c, CharText w c ∧ cs = w ++ rest ∧ t = .again (c :: reversed) := by
  rw [textTurn, bind_eq_ok_iff]
  constructor
  · rintro ⟨c, mid, hnext, h⟩
    obtain rfl := next_eq_ok_iff.mp hnext
    split at h
    case isTrue hquote =>
      subst hquote
      obtain ⟨rfl, rfl⟩ := pure_eq_ok_iff.mp h
      exact .inl ⟨rfl, rfl⟩
    case isFalse hquote =>
      split at h
      case isTrue hslash =>
        subst hslash
        rw [bind_eq_ok_iff] at h
        obtain ⟨c, mid, hescaped, h⟩ := h
        obtain ⟨rfl, rfl⟩ := pure_eq_ok_iff.mp h
        obtain ⟨w, hw, rfl⟩ := escaped_eq_ok_iff.mp hescaped
        exact .inr ⟨'\\' :: w, c, .escape hw, rfl, rfl⟩
      case isFalse hslash =>
        split at h
        case isTrue => exact absurd h refuse_ne_ok
        case isFalse hcontrol =>
          obtain ⟨rfl, rfl⟩ := pure_eq_ok_iff.mp h
          exact .inr ⟨[c], c, .raw hquote hslash (Nat.le_of_not_lt hcontrol), rfl, rfl⟩
  · rintro (⟨rfl, rfl⟩ | ⟨w, c, hw, rfl, rfl⟩)
    · exact ⟨'"', rest, next_eq_ok_iff.mpr rfl, rfl⟩
    · cases hw with
      | raw hquote hslash hcontrol =>
        refine ⟨c, rest, next_eq_ok_iff.mpr rfl, ?_⟩
        rw [if_neg hquote, if_neg hslash, if_neg (Nat.not_lt_of_le hcontrol)]
        rfl
      | @escape w _ hescape =>
        have hescaped : escaped (w ++ rest) = .ok (c, rest) :=
          escaped_eq_ok_iff.mpr ⟨w, hescape, rfl⟩
        refine ⟨'\\', w ++ rest, next_eq_ok_iff.mpr rfl, ?_⟩
        rw [if_neg (by decide), if_pos rfl, bind_of_ok hescaped]
        rfl

theorem CharText.ne_nil (h : CharText w c) : w ≠ [] := by
  cases h <;> exact List.cons_ne_nil _ _

theorem CharsText.length_le {s : List Char} (h : CharsText w s) : s.length ≤ w.length := by
  induction h with
  | nil => exact Nat.le_refl _
  | cons h hs ih =>
    have := List.length_pos_iff.mpr h.ne_nil
    rw [List.length_append, List.length_cons]
    omega

theorem charsText_of_turns {n : Nat} {reversed : List Char} {s : String}
    (h : turns textTurn n reversed cs = .ok (s, rest)) :
    ∃ w u, CharsText w u ∧ cs = w ++ '"' :: rest ∧ s = .ofList (reversed.reverse ++ u) := by
  induction n generalizing reversed cs with
  | zero => exact absurd h refuse_ne_ok
  | succ n ih =>
    rw [turns, bind_eq_ok_iff] at h
    obtain ⟨t, mid, hturn, h⟩ := h
    rcases textTurn_eq_ok_iff.mp hturn with ⟨rfl, rfl⟩ | ⟨w, c, hw, rfl, rfl⟩
    · obtain ⟨rfl, rfl⟩ := pure_eq_ok_iff.mp h
      exact ⟨[], [], .nil, rfl, by rw [List.append_nil]⟩
    · obtain ⟨v, u, hu, rfl, rfl⟩ := ih h
      exact ⟨w ++ v, c :: u, .cons hw hu, by simp, by simp⟩

theorem turns_of_charsText {n : Nat} {reversed u : List Char} (h : CharsText w u)
    (hn : u.length < n) : turns textTurn n reversed (w ++ '"' :: rest)
      = .ok (.ofList (reversed.reverse ++ u), rest) := by
  induction h generalizing n reversed with
  | nil =>
    obtain ⟨n, rfl⟩ := Nat.exists_eq_succ_of_ne_zero (Nat.ne_of_gt hn)
    rw [List.nil_append, List.append_nil, turns,
      bind_of_ok (textTurn_eq_ok_iff.mpr (.inl ⟨rfl, rfl⟩))]
    rfl
  | @cons w v c u hw _ ih =>
    obtain ⟨n, rfl⟩ := Nat.exists_eq_succ_of_ne_zero (Nat.ne_of_gt (Nat.zero_lt_of_lt hn))
    have hturn : textTurn reversed (w ++ (v ++ '"' :: rest))
        = .ok (.again (c :: reversed), v ++ '"' :: rest) :=
      textTurn_eq_ok_iff.mpr (.inr ⟨w, c, hw, rfl, rfl⟩)
    rw [List.append_assoc, turns, bind_of_ok hturn]
    show turns textTurn n (c :: reversed) _ = _
    rw [ih (Nat.lt_of_succ_lt_succ hn), List.reverse_cons, List.append_assoc]
    rfl

/-- **Strings are read** as the grammar says. -/
theorem textBody_eq_ok_iff {s : String} :
    textBody cs = .ok (s, rest) ↔ ∃ w, StringText w s ∧ '"' :: cs = w ++ rest := by
  constructor
  · intro h
    obtain ⟨w, u, hu, rfl, rfl⟩ := charsText_of_turns h
    refine ⟨'"' :: (w ++ ['"']), .quoted ?_, by simp⟩
    simpa using hu
  · rintro ⟨_, ⟨h⟩, hcs⟩
    rename_i w
    obtain rfl : cs = w ++ '"' :: rest := by simpa using hcs
    have hlen := h.length_le
    have hturns : turns textTurn (w ++ '"' :: rest).length [] (w ++ '"' :: rest) = .ok (_, rest) :=
      turns_of_charsText h (by rw [List.length_append, List.length_cons]; omega)
    rw [List.reverse_nil, List.nil_append, String.ofList_toList] at hturns
    exact hturns

/-! ### Writing -/

/-- Two digits are enough for the control characters. -/
theorem hexUnit?_digitChar (h : n < 0x20) :
    hexUnit? '0' '0' (Nat.digitChar (n / 16)) (Nat.digitChar (n % 16)) = some n := by
  have all : ∀ k < 0x20, hexUnit? '0' '0' (Nat.digitChar (k / 16)) (Nat.digitChar (k % 16))
      = some k := by decide
  exact all n h

/-- What is written for a character is a text of it. -/
theorem charText_writtenChar (c : Char) : CharText (writtenChar c) c := by
  have short : ∀ {letter meant : Char}, c = meant → (letter, meant) ∈ shortEscapes →
      CharText ['\\', letter] c := fun h hmem => .escape (.short (h ▸ hmem))
  unfold writtenChar
  split_ifs with hquote hslash hb ht hn hf hr hcontrol
  · exact short hquote (by decide)
  · exact short hslash (by decide)
  · exact short hb (by decide)
  · exact short ht (by decide)
  · exact short hn (by decide)
  · exact short hf (by decide)
  · exact short hr (by decide)
  · -- a control character without a letter of its own
    have hlow : isLowSurrogate c.toNat = false := by
      simp only [isLowSurrogate, Bool.and_eq_false_iff, decide_eq_false_iff_not]
      omega
    have hhigh : isHighSurrogate c.toNat = false := by
      simp only [isHighSurrogate, Bool.and_eq_false_iff, decide_eq_false_iff_not]
      omega
    have hunits := UnitsText.single (hexUnit?_digitChar hcontrol) hlow hhigh
    rw [Char.ofNat_toNat] at hunits
    exact .escape (.units hunits)
  · exact .raw hquote hslash (Nat.le_of_not_lt hcontrol)

theorem charsText_flatMap (s : List Char) : CharsText (s.flatMap writtenChar) s := by
  induction s with
  | nil => exact .nil
  | cons c s ih => exact .cons (charText_writtenChar c) ih

/-- **What is written for a string** is a text of it. -/
theorem stringText_writtenText (s : String) : StringText (writtenText s) s :=
  .quoted (charsText_flatMap s.toList)

end SyntaxTree.Json
