/-
SyntaxTree/Proofs/Json/Truncation.lean

Texts that end too early.  A reader needs the whole of a text (`Needs`) if it takes that text off
the front of anything, and says that the text ended, and nothing else, when it is given less.
The two halves are kept together because a reader put behind another needs both of them: the
first must have taken its text before the second can be left waiting.

`Needs.bind` puts readers one behind the other.  A loop is a course of turns, each of which needs
its part of the text (`Course`); it needs the whole (`Course.needs_loop`), however many turns
it has been granted.  Strings need all of their text up to the closing quote, wherever it is
cut, in the middle of an escape too (`needs_textBody`); so do rows of items up to the closing
bracket (`needs_items`, `needs_listOf`).
-/
import SyntaxTree.Proofs.Json.Text
import SyntaxTree.Proofs.Json.Value

namespace SyntaxTree.Json

namespace Reader

variable {α β σ : Type} {r : Reader α} {f : α → Reader β} {a : α} {b : β} {c : Char}
  {p u w rest : List Char}

/-- The reader takes `w` off the front of any text and makes `a` of it, and if the text ends before
`w` does, it reports that. -/
structure Needs (r : Reader α) (w : List Char) (a : α) : Prop where
  takes : ∀ rest, r (w ++ rest) = .ok (a, rest)
  waits : ∀ {p c rest}, w = p ++ c :: rest → r p = .error .endOfText

/-- Where two texts that stand together are cut, one of them is. -/
theorem append_eq_cut (h : w ++ u = p ++ c :: rest) :
    (∃ v, w = p ++ c :: v) ∨ ∃ p', p = w ++ p' ∧ u = p' ++ c :: rest := by
  rcases List.append_eq_append_iff.mp h with ⟨p', rfl, hu⟩ | ⟨v, rfl, hv⟩
  · exact .inr ⟨p', rfl, hu⟩
  · cases v with
    | nil => exact .inr ⟨[], by simp, by simpa using hv.symm⟩
    | cons d v =>
      obtain ⟨rfl, rfl⟩ := List.cons.inj hv
      exact .inl ⟨v, rfl⟩

theorem needs_pure (a : α) : Needs (pure a) [] a :=
  ⟨fun _ => rfl, fun h => by simp at h⟩

/-- **Readers one behind the other** need their texts one behind the other. -/
theorem Needs.bind (h : Needs r w a) (h' : Needs (f a) u b) : Needs (r >>= f) (w ++ u) b := by
  constructor
  · intro rest
    rw [List.append_assoc, bind_of_ok (h.takes _)]
    exact h'.takes rest
  · intro p c rest hcut
    rcases append_eq_cut hcut with ⟨v, hw⟩ | ⟨p', rfl, hu⟩
    · exact bind_of_error (h.waits hw)
    · rw [bind_of_ok (h.takes _)]
      exact h'.waits hu

/-- What is made of the text without reading on. -/
theorem Needs.bind_pure (h : Needs r w a) (hf : f a = pure b) : Needs (r >>= f) w b := by
  have hpure : Needs (f a) [] b := hf ▸ needs_pure b
  simpa using h.bind hpure

theorem Needs.map (h : Needs r w a) (f : α → β) : Needs (r >>= fun a => pure (f a)) w (f a) :=
  h.bind_pure rfl

/-- A reader of one character. -/
theorem needs_singleton (htakes : ∀ rest, r (c :: rest) = .ok (a, rest))
    (hwaits : r [] = .error .endOfText) : Needs r [c] a := by
  refine ⟨htakes, fun {p} _ _ h => ?_⟩
  cases p with
  | nil => exact hwaits
  | cons _ p => simp at h

theorem needs_next (c : Char) : Needs next [c] c :=
  needs_singleton (fun _ => rfl) rfl

theorem needs_expect (c : Char) : Needs (expect c) [c] () :=
  needs_singleton (fun _ => if_pos rfl) rfl

theorem needs_word (w : List Char) : Needs (word w) w () := by
  induction w with
  | nil => exact needs_pure ()
  | cons c w ih => exact (needs_expect c).bind ih

/-- Looking past blanks for a first character takes nothing away. -/
theorem Needs.peekPastBlanks {f : Char → Reader β} (h : Needs (f c) (c :: u) b)
    (hc : isBlank c = false) : Needs (Reader.peekPastBlanks >>= f) (c :: u) b := by
  have hpeek : ∀ v, Reader.peekPastBlanks (c :: v) = .ok (c, c :: v) := fun v =>
    peekPastBlanks_append blanks_nil hc
  constructor
  · intro rest
    rw [List.cons_append, bind_of_ok (hpeek _)]
    exact h.takes rest
  · intro p d rest hcut
    cases p with
    | nil => rfl
    | cons e p =>
      obtain ⟨rfl, -⟩ := List.cons.inj hcut
      rw [bind_of_ok (hpeek p)]
      exact h.waits hcut

/-- There may be blanks before a text, but need not be. -/
theorem Needs.skipBlanks {r : Reader β} (h : Needs r (c :: u) b) (hc : isBlank c = false) :
    Needs (Reader.skipBlanks >>= fun _ => r) (c :: u) b := by
  have hskip : ∀ v, Reader.skipBlanks (c :: v) = .ok ((), c :: v) := fun v =>
    skipBlanks_eq_ok_iff.mpr ⟨[], blanks_nil, rfl, past_cons.mpr hc⟩
  constructor
  · intro rest
    rw [List.cons_append, bind_of_ok (hskip _)]
    exact h.takes rest
  · intro p d rest hcut
    cases p with
    | nil => exact h.waits hcut
    | cons e p =>
      obtain ⟨rfl, -⟩ := List.cons.inj hcut
      rw [bind_of_ok (hskip p)]
      exact h.waits hcut

/-! ### Loops -/

/-- Turns one after another, each of which needs its part of the text, up to the last. -/
inductive Course (turn : σ → Reader (Turn σ β)) : σ → List Char → β → Prop
  | last {s : σ} {w : List Char} {b : β} (h : Needs (turn s) w (.finished b)) (hw : w ≠ []) :
      Course turn s w b
  | turn {s s' : σ} {w u : List Char} {b : β} (h : Needs (turn s) w (.again s')) (hw : w ≠ [])
      (hu : Course turn s' u b) : Course turn s (w ++ u) b

namespace Course

variable {turn : σ → Reader (Turn σ β)} {s : σ}

theorem turns_takes (h : Course turn s w b) {n : Nat} (hn : w.length ≤ n) (rest : List Char) :
    turns turn n s (w ++ rest) = .ok (b, rest) := by
  induction h generalizing n with
  | last h hw =>
    have := List.length_pos_iff.mpr hw
    obtain ⟨n, rfl⟩ := Nat.exists_eq_succ_of_ne_zero (by omega : n ≠ 0)
    rw [turns, bind_of_ok (h.takes rest)]
    rfl
  | turn h hw _ ih =>
    have := List.length_pos_iff.mpr hw
    rw [List.length_append] at hn
    obtain ⟨n, rfl⟩ := Nat.exists_eq_succ_of_ne_zero (by omega : n ≠ 0)
    rw [List.append_assoc, turns, bind_of_ok (h.takes _)]
    exact ih (by omega)

/-- The turns that have been granted do not matter: a loop that has used them up reports the end of
the text as well. -/
theorem turns_waits (h : Course turn s w b) (n : Nat) (hcut : w = p ++ c :: rest) :
    turns turn n s p = .error .endOfText := by
  induction h generalizing n p with
  | last h =>
    cases n with
    | zero => rfl
    | succ n => exact bind_of_error (h.waits hcut)
  | turn h _ _ ih =>
    cases n with
    | zero => rfl
    | succ n =>
      rcases append_eq_cut hcut with ⟨v, hw⟩ | ⟨p', rfl, hu⟩
      · exact bind_of_error (h.waits hw)
      · rw [turns, bind_of_ok (h.takes _)]
        exact ih n hu

/-- **A loop needs the text of all its turns.** -/
theorem needs_loop (h : Course turn s w b) : Needs (loop turn s) w b where
  takes rest := h.turns_takes (by simp) rest
  waits hcut := h.turns_waits _ hcut

end Course

end Reader

open Reader

/-! ### Strings -/

variable {cs u w : List Char} {c : Char} {n : Nat} {s : String}

/-- A hexadecimal digit takes one byte. -/
theorem utf8Size_of_hexDigit? (h : hexDigit? c = some n) : c.utf8Size = 1 := by
  have hascii : c.val ≤ 127 := by
    unfold hexDigit? at h
    split_ifs at h with hdigit hlower hupper
    · exact UInt32.le_trans hdigit.2 (by decide)
    · exact UInt32.le_trans hlower.2 (by decide)
    · exact UInt32.le_trans hupper.2 (by decide)
  exact Char.utf8Size_eq_one_iff.mpr hascii

/-- As long as all characters take one byte, there are as many bytes as characters. -/
theorem byteCount_eq_length (h : ∀ c ∈ cs, c.utf8Size = 1) : byteCount cs = cs.length := by
  induction cs with
  | nil => rfl
  | cons c cs ih =>
    rw [List.forall_mem_cons] at h
    rw [List.length_cons, ← ih h.2]
    show c.utf8Size + byteCount cs = _
    rw [h.1, Nat.add_comm]

/-- Of four hexadecimal digits none may be missing. -/
theorem needs_hexUnit {a b c d : Char} (h : hexUnit? a b c d = some n) :
    Needs hexUnit [a, b, c, d] n := by
  refine ⟨fun rest => hexUnit_eq_ok_iff.mpr ⟨a, b, c, d, h, rfl⟩, fun {p e rest} hcut => ?_⟩
  have hbytes : ∀ x ∈ [a, b, c, d], x.utf8Size = 1 := by
    simp only [hexUnit?, Option.bind_eq_bind, Option.bind_eq_some_iff] at h
    obtain ⟨_, ha, _, hb, _, hc, _, hd, -⟩ := h
    simp [utf8Size_of_hexDigit? ha, utf8Size_of_hexDigit? hb, utf8Size_of_hexDigit? hc,
      utf8Size_of_hexDigit? hd]
  have hlength : p.length < 4 := by
    have := congrArg List.length hcut
    simp only [List.length_append, List.length_cons, List.length_nil] at this
    omega
  have hfew : byteCount (p.take 4) < 4 := by
    rw [List.take_of_length_le (Nat.le_of_lt hlength), byteCount_eq_length]
    · exact hlength
    · exact fun x hx => hbytes x (hcut ▸ List.mem_append_left _ hx)
  unfold hexUnit
  rw [if_pos hfew]

theorem UnitsText.needs (h : UnitsText w c) : Needs escapedUnits w c := by
  cases h with
  | single hunit hlow hhigh =>
    refine (needs_hexUnit hunit).bind_pure ?_
    rw [hlow, hhigh]
    rfl
  | @pair a b c d a' b' c' d' high low hunit hhigh hunit' hlow =>
    refine (needs_hexUnit hunit).bind (u := ['\\', 'u', a', b', c', d']) ?_
    rw [isLowSurrogate_eq_false hhigh, hhigh]
    refine (needs_word ['\\', 'u']).bind (u := [a', b', c', d']) ?_
    refine (needs_hexUnit hunit').bind_pure ?_
    rw [hlow]
    rfl

theorem EscapeText.needs (h : EscapeText w c) : Needs escaped w c := by
  cases h with
  | @short letter _ hshort =>
    have hletter : letter ≠ 'u' := by
      rintro rfl
      simp [shortEscapes] at hshort
    refine (needs_next letter).bind_pure ?_
    rw [if_neg hletter, lookup_shortEscapes.mpr hshort]
  | units hunits => exact (needs_next 'u').bind hunits.needs

/-- A turn through a string needs all of the character it stands at. -/
theorem CharText.needs (h : CharText w c) (reversed : List Char) :
    Needs (textTurn reversed) w (.again (c :: reversed)) := by
  cases h with
  | raw hquote hslash hcontrol =>
    refine (needs_next c).bind_pure ?_
    rw [if_neg hquote, if_neg hslash, if_neg (Nat.not_lt_of_le hcontrol)]
  | escape hescape =>
    exact (needs_next '\\').bind (hescape.needs.map fun c => Turn.again (c :: reversed))

theorem needs_closingQuote (reversed : List Char) :
    Needs (textTurn reversed) ['"'] (.finished (.ofList reversed.reverse)) :=
  (needs_next '"').bind_pure rfl

theorem CharsText.course (h : CharsText w u) (reversed : List Char) :
    Course textTurn reversed (w ++ ['"']) (.ofList (reversed.reverse ++ u)) := by
  induction h generalizing reversed with
  | nil =>
    rw [List.append_nil]
    exact .last (needs_closingQuote reversed) (List.cons_ne_nil _ _)
  | @cons w v c u hc _ ih =>
    have hrest := ih (c :: reversed)
    rw [List.reverse_cons, List.append_assoc] at hrest
    rw [List.append_assoc]
    exact .turn (hc.needs reversed) hc.ne_nil hrest

/-- **A string** needs all that stands behind its opening quote. -/
theorem needs_textBody (s : String) :
    Needs textBody (s.toList.flatMap writtenChar ++ ['"']) s := by
  have hcourse := (charsText_flatMap s.toList).course []
  rw [List.reverse_nil, List.nil_append, String.ofList_toList] at hcourse
  exact hcourse.needs_loop

/-! ### Values and members -/

variable {depth : Nat} {name : String}

theorem needs_scalar (s : String) : Needs (scalar '"') (writtenText s) (.string s) :=
  (needs_next '"').bind ((needs_textBody s).map Value.string)

theorem needs_value (depth : Nat) (s : String) :
    Needs (value depth) (writtenText s) (.string s) := by
  have hblank : isBlank '"' = false := by decide
  cases depth with
  | zero => exact Needs.peekPastBlanks (needs_scalar s) hblank
  | succ depth => exact Needs.peekPastBlanks (needs_scalar s) hblank

theorem needs_memberName (name : String) : Needs memberName (writtenText name) name :=
  Needs.skipBlanks ((needs_expect '"').bind (needs_textBody name)) (by decide)

theorem needs_colon : Needs colon [':'] () :=
  Needs.skipBlanks (needs_expect ':') (by decide)

/-! ### Rows -/

section Rows

variable {σ α : Type} {item : σ → Reader σ} {s s' : σ} {close : Char} {w : List Char}
  {ws : List (List Char)}

/-- Texts of items, each of which is needed in the state that the one before it left. -/
inductive NeedsEach (item : σ → Reader σ) : σ → List (List Char) → σ → Prop
  | nil {s : σ} : NeedsEach item s [] s
  | cons {s s' s'' : σ} {w : List Char} {ws : List (List Char)} (hw : Opens w)
      (h : Needs (item s) w s') (hs : NeedsEach item s' ws s'') : NeedsEach item s (w :: ws) s''

section Turns

variable (hclose : closesNesting close = true)

include hclose

theorem needs_closing (isFirst : Bool) (s : σ) :
    Needs (itemTurn close item (isFirst, s)) [close] (.finished s) := by
  refine Needs.peekPastBlanks ?_ (isBlank_of_closes hclose)
  rw [if_pos rfl]
  exact (needs_next close).bind_pure rfl

theorem needs_firstItem (hw : Opens w) (h : Needs (item s) w s') :
    Needs (itemTurn close item (true, s)) w (.again (false, s')) := by
  obtain ⟨c, u, rfl, hc, hopens⟩ := hw
  refine Needs.peekPastBlanks ?_ hc
  rw [if_neg (ne_of_closes hclose hopens), if_pos rfl]
  exact h.map fun s' => Turn.again (false, s')

theorem needs_laterItem (hw : Opens w) (h : Needs (item s) w s') :
    Needs (itemTurn close item (false, s)) (',' :: w) (.again (false, s')) := by
  obtain ⟨c, u, rfl, hc, hopens⟩ := hw
  refine Needs.peekPastBlanks ?_ (by decide)
  rw [if_neg (ne_comma_of_closes hclose), if_neg Bool.false_ne_true]
  refine (needs_expect ',').bind (Needs.peekPastBlanks ?_ hc)
  rw [if_neg (ne_of_closes hclose hopens)]
  exact h.map fun s' => Turn.again (false, s')

theorem NeedsEach.course_later (h : NeedsEach item s ws s') :
    Course (itemTurn close item) (false, s) (ws.flatMap (',' :: ·) ++ [close]) s' := by
  induction h with
  | nil => exact .last (needs_closing hclose false _) (List.cons_ne_nil _ _)
  | cons hw h _ ih =>
    rw [List.flatMap_cons, List.append_assoc]
    exact .turn (needs_laterItem hclose hw h) (List.cons_ne_nil _ _) ih

/-- **A row of items** needs all that stands behind its opening bracket. -/
theorem NeedsEach.needs_items (h : NeedsEach item s ws s') :
    Needs (items close item s) (List.intercalate [','] ws ++ [close]) s' := by
  refine Course.needs_loop ?_
  cases h with
  | nil => exact .last (needs_closing hclose true s) (List.cons_ne_nil _ _)
  | cons hw h hs =>
    rw [intercalate_comma_cons, List.append_assoc]
    refine .turn (needs_firstItem hclose hw h) ?_ (hs.course_later hclose)
    obtain ⟨c, u, rfl, -⟩ := hw
    exact List.cons_ne_nil c u

end Turns

theorem needsEach_collect {item : Reader α} {xs : List α} (done : List α)
    (h : List.Forall₂ (fun w x => Opens w ∧ Needs item w x) ws xs) :
    NeedsEach (collect item) done ws (xs.reverse ++ done) := by
  induction h generalizing done with
  | nil => exact .nil
  | @cons w x ws xs hx _ ih =>
    have hrest := ih (x :: done)
    rw [List.reverse_cons, List.append_assoc]
    exact .cons hx.1 (hx.2.map (· :: done)) hrest

theorem needs_listOf {item : Reader α} {xs : List α} (hclose : closesNesting close = true)
    (h : List.Forall₂ (fun w x => Opens w ∧ Needs item w x) ws xs) :
    Needs (listOf close item) (List.intercalate [','] ws ++ [close]) xs := by
  have hitems := ((needsEach_collect [] h).needs_items hclose).map List.reverse
  rwa [List.append_nil, List.reverse_reverse] at hitems

end Rows

end SyntaxTree.Json
