/-
SyntaxTree/Proofs/Json/Value.lean

Values are read as the grammar says (`reads_value`), by induction on the number of brackets
that may be open: what stands between brackets is a row, and its items are values with one
bracket less.  A whole text is read if and only if it is a document (`run_value_eq_ok_iff`).
-/
import SyntaxTree.Proofs.Json.Numeral
import SyntaxTree.Proofs.Json.Text

namespace SyntaxTree.Json

open Reader

variable {cs w rest : List Char} {c : Char} {v : Value} {depth : Nat} {R : List Char → Value → Prop}
  {item : Reader Value}

/-! ### Values without brackets -/

/-- The first character of a value without brackets. -/
structure OpensScalar (c : Char) : Prop where
  not_blank : isBlank c = false
  not_closing : closesNesting c = false
  not_opening : opensNesting c = false

theorem ne_of_isDigit (h : isDigit c = true) {d : Char} (hd : isDigit d = false) : c ≠ d := by
  rintro rfl
  rw [h] at hd
  cases hd

theorem opensScalar_of_isDigit (h : isDigit c = true) : OpensScalar c := by
  have differs : ∀ {d : Char}, isDigit d = false → decide (c = d) = false := fun hd =>
    decide_eq_false (ne_of_isDigit h hd)
  refine ⟨?_, ?_, ?_⟩
  · rw [isBlank, differs rfl, differs rfl, differs rfl, differs rfl]; rfl
  · rw [closesNesting, differs rfl, differs rfl]; rfl
  · rw [opensNesting, differs rfl, differs rfl]; rfl

theorem scalarText_of_ok (h : scalar c (c :: cs) = .ok (v, rest)) :
    ∃ w, ScalarText Numeral.InRange w v ∧ c :: cs = w ++ rest := by
  have literal : ∀ {u : List Char} {x : Value}, ScalarText Numeral.InRange u x →
      (word u >>= fun _ => pure x) (c :: cs) = .ok (v, rest) →
        ∃ w, ScalarText Numeral.InRange w v ∧ c :: cs = w ++ rest := by
    intro u x hu h
    rw [bind_eq_ok_iff] at h
    obtain ⟨_, mid, hword, h⟩ := h
    obtain ⟨rfl, rfl⟩ := pure_eq_ok_iff.mp h
    exact ⟨u, hu, word_eq_ok_iff.mp hword⟩
  unfold scalar at h
  split_ifs at h with hquote hnull htrue hfalse hnumber
  · rw [bind_eq_ok_iff] at h
    obtain ⟨_, mid, hnext, h⟩ := h
    obtain ⟨rfl, rfl⟩ := List.cons.inj (next_eq_ok_iff.mp hnext)
    rw [bind_eq_ok_iff] at h
    obtain ⟨s, mid, hbody, h⟩ := h
    obtain ⟨rfl, rfl⟩ := pure_eq_ok_iff.mp h
    obtain ⟨w, hw, hcs⟩ := textBody_eq_ok_iff.mp hbody
    exact ⟨w, .string hw, hquote ▸ hcs⟩
  · exact literal .null h
  · exact literal .true h
  · exact literal .false h
  · rw [bind_eq_ok_iff] at h
    obtain ⟨n, mid, hn, h⟩ := h
    obtain ⟨rfl, rfl⟩ := pure_eq_ok_iff.mp h
    obtain ⟨w, hw, hsize, hcs⟩ := numeralText_of_ok hn
    exact ⟨w, .number hw hsize, hcs⟩
  · exact absurd h refuse_ne_ok

theorem SignText.eq_or {b : Bool} (h : SignText w b) : w = [] ∨ w = ['-'] := by
  cases h with
  | plus => exact .inl rfl
  | minus => exact .inr rfl

/-- Whether a value has brackets around it. -/
def Value.isNested : Value → Bool
  | .array _ | .object _ => true
  | _ => false

theorem not_isNested_of_scalar (h : scalar c cs = .ok (v, rest)) : v.isNested = false := by
  have wrapped : ∀ {β : Type} {r : Reader β} {f : β → Value} {u : List Char},
      (∀ b, (f b).isNested = false) → (r >>= fun b => pure (f b)) u = .ok (v, rest) →
      v.isNested = false := by
    intro β r f u hf h
    rw [bind_eq_ok_iff] at h
    obtain ⟨b, mid, -, h⟩ := h
    obtain ⟨rfl, -⟩ := pure_eq_ok_iff.mp h
    exact hf b
  unfold scalar at h
  split_ifs at h
  · rw [bind_eq_ok_iff] at h
    obtain ⟨_, mid, -, h⟩ := h
    exact wrapped (fun _ => rfl) h
  · exact wrapped (fun _ => rfl) h
  · exact wrapped (fun _ => rfl) h
  · exact wrapped (fun _ => rfl) h
  · exact wrapped (fun _ => rfl) h
  · exact absurd h refuse_ne_ok

/-- A number begins with a minus sign or with a digit. -/
theorem NumeralText.exists_cons {n : Numeral} (h : NumeralText w n) :
    ∃ c u, w = c :: u ∧ (c = '-' ∨ isDigit c = true) := by
  obtain ⟨hsign, hwhole, -, -⟩ := h
  obtain ⟨c, u, rfl, hc⟩ := hwhole.digits.exists_cons
  rcases hsign.eq_or with rfl | rfl
  · exact ⟨c, _, rfl, .inr hc⟩
  · exact ⟨'-', _, rfl, .inl rfl⟩

theorem scalar_append (h : ScalarText Numeral.InRange w v) (hpast : Past extendsNumber rest) :
    ∃ c u, w = c :: u ∧ OpensScalar c ∧ scalar c (c :: (u ++ rest)) = .ok (v, rest) := by
  have literal : ∀ {u : List Char} {x : Value},
      (word u >>= fun _ => pure x : Reader Value) (u ++ rest) = .ok (x, rest) := by
    intro u x
    have hword : word u (u ++ rest) = .ok ((), rest) := word_eq_ok_iff.mpr rfl
    rw [bind_of_ok hword]
    rfl
  cases h with
  | null => exact ⟨'n', "ull".toList, rfl, ⟨rfl, rfl, rfl⟩, literal⟩
  | true => exact ⟨'t', "rue".toList, rfl, ⟨rfl, rfl, rfl⟩, literal⟩
  | false => exact ⟨'f', "alse".toList, rfl, ⟨rfl, rfl, rfl⟩, literal⟩
  | @string _ s hs =>
    cases hs with
    | @quoted u _ hs =>
    have hnext : next ('"' :: (u ++ ['"'] ++ rest)) = .ok ('"', u ++ ['"'] ++ rest) :=
      next_eq_ok_iff.mpr rfl
    have hbody : textBody (u ++ ['"'] ++ rest) = .ok (s, rest) :=
      textBody_eq_ok_iff.mpr ⟨_, .quoted hs, rfl⟩
    refine ⟨'"', u ++ ['"'], rfl, ⟨rfl, rfl, rfl⟩, ?_⟩
    rw [scalar, if_pos rfl, bind_of_ok hnext, bind_of_ok hbody]
    rfl
  | @number _ n hn hsize =>
    have hread := numeral_append hn hsize hpast
    obtain ⟨c, u, rfl, hc⟩ := hn.exists_cons
    have hne : ∀ {d : Char}, d ≠ '-' → isDigit d = false → c ≠ d := by
      intro d hminus hd
      rcases hc with rfl | hc
      · exact hminus.symm
      · exact ne_of_isDigit hc hd
    refine ⟨c, u, rfl, ?_, ?_⟩
    · rcases hc with rfl | hc
      · exact ⟨rfl, rfl, rfl⟩
      · exact opensScalar_of_isDigit hc
    · rw [scalar, if_neg (hne (by decide) rfl), if_neg (hne (by decide) rfl),
        if_neg (hne (by decide) rfl), if_neg (hne (by decide) rfl), if_pos hc]
      rw [List.cons_append] at hread
      rw [bind_of_ok hread]
      rfl

theorem ScalarText.opens (h : ScalarText Numeral.InRange w v) : Opens w := by
  obtain ⟨c, u, rfl, hc, -⟩ := scalar_append h (show Past extendsNumber [] from nofun)
  exact ⟨c, u, rfl, hc.not_blank, hc.not_closing⟩

/-! ### Members and brackets -/

theorem memberName_eq_ok_iff {name : String} : memberName cs = .ok (name, rest) ↔
    ∃ bs u, Blanks bs ∧ StringText u name ∧ cs = bs ++ (u ++ rest) := by
  rw [memberName, bind_eq_ok_iff]
  constructor
  · rintro ⟨_, mid, hskip, h⟩
    obtain ⟨bs, hbs, rfl, -⟩ := skipBlanks_eq_ok_iff.mp hskip
    rw [bind_eq_ok_iff] at h
    obtain ⟨_, mid, hquote, hbody⟩ := h
    obtain rfl := expect_eq_ok_iff.mp hquote
    obtain ⟨u, hu, hmid⟩ := textBody_eq_ok_iff.mp hbody
    exact ⟨bs, u, hbs, hu, by rw [hmid]⟩
  · rintro ⟨bs, _, hbs, @⟨u, _, hu⟩, rfl⟩
    have hquote : expect '"' ('"' :: (u ++ ['"'] ++ rest)) = .ok ((), u ++ ['"'] ++ rest) :=
      expect_eq_ok_iff.mpr rfl
    refine ⟨(), _, skipBlanks_eq_ok_iff.mpr ⟨bs, hbs, rfl, past_cons.mpr rfl⟩, ?_⟩
    rw [List.cons_append, bind_of_ok hquote]
    exact textBody_eq_ok_iff.mpr ⟨_, .quoted hu, rfl⟩

theorem colon_eq_ok_iff {x : Unit} :
    colon cs = .ok (x, rest) ↔ ∃ bs, Blanks bs ∧ cs = bs ++ ':' :: rest := by
  rw [colon, bind_eq_ok_iff]
  constructor
  · rintro ⟨_, mid, hskip, h⟩
    obtain ⟨bs, hbs, rfl, -⟩ := skipBlanks_eq_ok_iff.mp hskip
    exact ⟨bs, hbs, by rw [expect_eq_ok_iff.mp h]⟩
  · rintro ⟨bs, hbs, rfl⟩
    exact ⟨(), ':' :: rest, skipBlanks_eq_ok_iff.mpr ⟨bs, hbs, rfl, past_cons.mpr rfl⟩,
      expect_eq_ok_iff.mpr rfl⟩

/-- Members are read if their values are. -/
theorem Reads.member (hR : Reads item R) : Reads (member item) (MemberText R) := by
  refine ⟨?_, ?_, ?_⟩
  · rintro _ _ ⟨⟨-⟩, -, -, -⟩
    exact ⟨'"', _, rfl, rfl, rfl⟩
  · intro cs m rest h
    rw [Json.member, bind_eq_ok_iff] at h
    obtain ⟨name, mid, hname, h⟩ := h
    obtain ⟨bs, u, hbs, hu, rfl⟩ := memberName_eq_ok_iff.mp hname
    rw [bind_eq_ok_iff] at h
    obtain ⟨_, mid, hcolon, h⟩ := h
    obtain ⟨bs₁, hbs₁, rfl⟩ := colon_eq_ok_iff.mp hcolon
    rw [bind_eq_ok_iff] at h
    obtain ⟨v, mid, hvalue, h⟩ := h
    obtain ⟨bs₂, w, hbs₂, hv, rfl⟩ := hR.sound hvalue
    obtain ⟨rfl, rfl⟩ := pure_eq_ok_iff.mp h
    exact ⟨bs, _, hbs, .named hu hbs₁ hbs₂ hv, by simp⟩
  · rintro bs _ _ rest hbs ⟨hu, hbs₁, hbs₂, hv⟩ hpast
    rename_i u bs₁ bs₂ w name v
    have hname : memberName (bs ++ (u ++ (bs₁ ++ ':' :: (bs₂ ++ (w ++ rest)))))
        = .ok (name, bs₁ ++ ':' :: (bs₂ ++ (w ++ rest))) :=
      memberName_eq_ok_iff.mpr ⟨bs, u, hbs, hu, rfl⟩
    have hcolon : colon (bs₁ ++ ':' :: (bs₂ ++ (w ++ rest))) = .ok ((), bs₂ ++ (w ++ rest)) :=
      colon_eq_ok_iff.mpr ⟨bs₁, hbs₁, rfl⟩
    have htext : bs ++ (u ++ (bs₁ ++ ':' :: (bs₂ ++ w)) ++ rest)
        = bs ++ (u ++ (bs₁ ++ ':' :: (bs₂ ++ (w ++ rest)))) := by simp
    rw [htext, Json.member, bind_of_ok hname, bind_of_ok hcolon,
      bind_of_ok (hR.complete hbs₂ hv hpast)]
    rfl

/-- A member without blanks. -/
theorem memberText_compact {u : List Char} {name : String} {R : List Char → Value → Prop}
    (hname : StringText u name) (hv : R w v) : MemberText R (u ++ ':' :: w) (name, v) :=
  .named hname blanks_nil blanks_nil hv

/-! ### Values -/

theorem valueText_of_scalarText {limit : Numeral → Prop} (h : ScalarText limit w v) :
    ValueText limit depth w v := by
  cases depth with
  | zero => exact h
  | succ depth => exact .inl h

/-- The text of a value is a document as it stands. -/
theorem document_of_valueText {limit : Numeral → Prop} {text : String} (htext : text.toList = w)
    (h : ValueText limit maxNesting w v) : Document limit text v :=
  .text (by rw [htext, List.nil_append, List.append_nil]) blanks_nil h blanks_nil

/-- **Values are read** as the grammar says. -/
theorem reads_value (depth : Nat) : Reads (value depth) (ValueText Numeral.InRange depth) := by
  induction depth with
  | zero =>
    refine ⟨ScalarText.opens, ?_, ?_⟩
    · intro cs v rest h
      rw [value, bind_eq_ok_iff] at h
      obtain ⟨c, mid, hpeek, h⟩ := h
      obtain ⟨bs, u, hbs, rfl, rfl, -⟩ := peekPastBlanks_eq_ok_iff.mp hpeek
      split at h
      case isTrue => exact absurd h refuse_ne_ok
      case isFalse =>
        obtain ⟨w, hw, hcs⟩ := scalarText_of_ok h
        exact ⟨bs, w, hbs, hw, by rw [hcs]⟩
    · intro bs w v rest hbs hw hpast
      obtain ⟨c, u, rfl, hc, hread⟩ := scalar_append hw hpast
      rw [List.cons_append, value, bind_of_ok (peekPastBlanks_append hbs hc.not_blank),
        hc.not_opening]
      exact hread
  | succ depth ih =>
    have hrow {cs vs rest} : listOf ']' (value depth) cs = .ok (vs, rest) ↔
        ∃ w, RowText (ValueText Numeral.InRange depth) .true w vs ∧ cs = w ++ ']' :: rest :=
      ih.listOf_eq_ok_iff rfl
    have hmembers {cs ms rest} : listOf '\x7d' (Json.member (value depth)) cs = .ok (ms, rest) ↔
        ∃ w, RowText (MemberText (ValueText Numeral.InRange depth)) .true w ms ∧ cs = w ++ '\x7d' :: rest :=
      ih.member.listOf_eq_ok_iff rfl
    refine ⟨?_, ?_, ?_⟩
    · rintro w v (hw | ⟨-⟩ | ⟨-⟩)
      · exact hw.opens
      · exact ⟨'[', _, rfl, rfl, rfl⟩
      · exact ⟨'\x7b', _, rfl, rfl, rfl⟩
    · intro cs v rest h
      rw [value, bind_eq_ok_iff] at h
      obtain ⟨c, mid, hpeek, h⟩ := h
      obtain ⟨bs, u, hbs, rfl, rfl, -⟩ := peekPastBlanks_eq_ok_iff.mp hpeek
      split_ifs at h with harray hobject
      · rw [bind_eq_ok_iff] at h
        obtain ⟨_, mid, hnext, h⟩ := h
        obtain ⟨rfl, rfl⟩ := List.cons.inj (next_eq_ok_iff.mp hnext)
        rw [bind_eq_ok_iff] at h
        obtain ⟨vs, mid, hvs, h⟩ := h
        obtain ⟨rfl, rfl⟩ := pure_eq_ok_iff.mp h
        obtain ⟨w, hw, rfl⟩ := hrow.mp hvs
        exact ⟨bs, '[' :: (w ++ [']']), hbs, .inr (.array hw), by simp [harray]⟩
      · rw [bind_eq_ok_iff] at h
        obtain ⟨_, mid, hnext, h⟩ := h
        obtain ⟨rfl, rfl⟩ := List.cons.inj (next_eq_ok_iff.mp hnext)
        rw [bind_eq_ok_iff] at h
        obtain ⟨ms, mid, hms, h⟩ := h
        obtain ⟨rfl, rfl⟩ := pure_eq_ok_iff.mp h
        obtain ⟨w, hw, rfl⟩ := hmembers.mp hms
        exact ⟨bs, '\x7b' :: (w ++ ['\x7d']), hbs, .inr (.object hw), by simp [hobject]⟩
      · obtain ⟨w, hw, hcs⟩ := scalarText_of_ok h
        exact ⟨bs, w, hbs, .inl hw, by rw [hcs]⟩
    · rintro bs w v rest hbs (hw | hw) hpast
      · obtain ⟨c, u, rfl, hc, hread⟩ := scalar_append hw hpast
        have hopening := hc.not_opening
        simp only [opensNesting, Bool.or_eq_false_iff, decide_eq_false_iff_not] at hopening
        rw [List.cons_append, value, bind_of_ok (peekPastBlanks_append hbs hc.not_blank),
          if_neg hopening.1, if_neg hopening.2]
        exact hread
      · cases hw with
        | @array w vs hw =>
          have hnext : next ('[' :: (w ++ [']'] ++ rest)) = .ok ('[', w ++ [']'] ++ rest) :=
            next_eq_ok_iff.mpr rfl
          have hvs : listOf ']' (value depth) (w ++ [']'] ++ rest) = .ok (vs, rest) :=
            hrow.mpr ⟨w, hw, by simp⟩
          rw [List.cons_append, value, bind_of_ok (peekPastBlanks_append hbs (by rfl)), if_pos rfl,
            bind_of_ok hnext, bind_of_ok hvs]
          rfl
        | @object w ms hw =>
          have hnext : next ('\x7b' :: (w ++ ['\x7d'] ++ rest)) = .ok ('\x7b', w ++ ['\x7d'] ++ rest) :=
            next_eq_ok_iff.mpr rfl
          have hms : listOf '\x7d' (Json.member (value depth)) (w ++ ['\x7d'] ++ rest)
              = .ok (ms, rest) := hmembers.mpr ⟨w, hw, by simp⟩
          rw [List.cons_append, value, bind_of_ok (peekPastBlanks_append hbs (by rfl)),
            if_neg (by decide), if_pos rfl, bind_of_ok hnext, bind_of_ok hms]
          rfl

theorem Blanks.past_extendsNumber (h : Blanks cs) : Past extendsNumber cs := by
  cases cs with
  | nil => exact nofun
  | cons c cs => exact past_cons.mpr (not_extends_of_isBlank (h c List.mem_cons_self))

/-- **A text is read if it is a document** whose numbers are in range, and only then. -/
theorem run_value_eq_ok_iff {text : String} :
    (value maxNesting).run text = .ok v ↔ Document Numeral.InRange text v := by
  rw [run_eq_ok_iff]
  constructor
  · rintro ⟨rest, h, hrest⟩
    obtain ⟨bs, w, hbs, hw, htext⟩ := (reads_value maxNesting).sound h
    exact .text htext hbs hw hrest
  · rintro ⟨htext, hbs, hw, hrest⟩
    rename_i bs w rest
    refine ⟨rest, ?_, hrest⟩
    rw [htext]
    exact (reads_value maxNesting).complete hbs hw hrest.past_extendsNumber

end SyntaxTree.Json
