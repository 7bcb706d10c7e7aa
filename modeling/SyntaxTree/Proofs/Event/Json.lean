/-
SyntaxTree/Proofs/Event/Json.lean

The format of event streams.  The reader of streams looks at an event while it reads it; it makes
of every part what a check of the whole value would make of it (`checks_reader`,
`checks_streamReader`).  So a text is read as a list of events if and only if it is the document
of an array of values that mean them, and what is written for a list of events is read as that
list again.
-/
import SyntaxTree.Proofs.Event.Means
import SyntaxTree.Proofs.Json.Checked
import SyntaxTree.Proofs.Json.Magnitude

namespace SyntaxTree

open Json Json.Reader

variable {v : Value} {vs : List Value} {limit : Numeral → Prop}

namespace Event

/-! ### Reading and checking -/

theorem finish_eq {α : Type} (make : EventKind → List α → Option Event) (p : Partial α) :
    p.finish make = wellShaped (p.finished? make) := by
  unfold Partial.finish
  show _ = wellShaped (p.kind.bind fun kind => make kind p.others.reverse)
  cases p.kind.bind fun kind => make kind p.others.reverse <;> rfl

theorem kindReader_eq : EventKind.reader = peekPastBlanks >>= fun c =>
    if opensNesting c then refuse .wrongShape
    else scalar c >>= fun v => wellShaped (EventKind.ofValue? v) := by
  refine congrArg (peekPastBlanks >>= ·) (funext fun c => ?_)
  refine congrArg (ite _ _) (congrArg (scalar c >>= ·) (funext fun v => ?_))
  cases EventKind.ofValue? v <;> rfl

theorem checks_kind (depth : Nat) :
    Checks (Json.value depth) EventKind.ofValue? EventKind.reader := by
  rw [kindReader_eq]
  cases depth with
  | zero =>
    refine .after peekPastBlanks fun c => ?_
    split
    · exact .refused fun h => absurd h refuse_ne_ok
    · exact .afterwards (scalar c) EventKind.ofValue?
  | succ depth =>
    refine .after peekPastBlanks fun c => ?_
    by_cases harray : c = '['
    · subst harray
      exact .refusedBefore next fun _ => .wrap (.refused fun _ => rfl)
    · by_cases hobject : c = '\x7b'
      · subst hobject
        exact .refusedBefore next fun _ => .wrap (.refused fun _ => rfl)
      · rw [if_neg harray, if_neg hobject, opensNesting, decide_eq_false harray,
          decide_eq_false hobject]
        exact .afterwards (scalar c) EventKind.ofValue?

theorem checks_readMember (p : Partial (String × Value)) :
    Checks (Json.member (Json.value innerNesting)) p.withMember (readMember p) := by
  refine .after memberName fun name => ?_
  by_cases hname : name = "event"
  · rw [if_pos hname]
    cases hkind : p.kind.isSome with
    | true =>
      -- a second kind is refused, whatever its value
      refine .refusedBefore colon fun _ => .wrap (.refused fun _ => ?_)
      rw [Partial.withMember, if_pos hname, if_pos hkind]
    | false =>
      refine .after colon fun _ => .wrap ?_
      have hread := (checks_kind innerNesting).andThen fun kind => some { p with kind := some kind }
      refine hread.congr fun v => ?_
      rw [Partial.withMember, if_pos hname, hkind]
      cases EventKind.ofValue? v <;> rfl
  · rw [if_neg hname]
    refine .after colon fun _ => .wrap ?_
    have hread := Checks.afterwards (Json.value innerNesting) fun v =>
      some { p with others := (name, v) :: p.others }
    refine hread.congr fun v => ?_
    rw [Partial.withMember, if_neg hname]

theorem checks_readPart (p : Partial Value) :
    Checks (Json.value innerNesting) p.withPart (readPart p) := by
  rw [readPart]
  cases hkind : p.kind.isSome with
  | true =>
    have hread := Checks.afterwards (Json.value innerNesting) fun v =>
      some { p with others := v :: p.others }
    refine hread.congr fun v => ?_
    rw [Partial.withPart, if_pos hkind]
  | false =>
    have hread := (checks_kind innerNesting).andThen fun kind => some { p with kind := some kind }
    refine hread.congr fun v => ?_
    rw [Partial.withPart, hkind]
    cases EventKind.ofValue? v <;> rfl

/-- **An event is read** as its value is checked. -/
theorem checks_reader : Checks (Json.value (innerNesting + 1)) ofValue? reader := by
  refine .after peekPastBlanks fun c => ?_
  by_cases harray : c = '['
  · subst harray
    refine .after next fun _ => .wrap ?_
    have hread := (Checks.items checks_readPart (by decide : closesNesting ']' = true)
      .start).andThen (Partial.finished? ofParts?)
    simp only [finish_eq]
    exact hread.congr fun vs => finished?_parts.symm
  · by_cases hobject : c = '\x7b'
    · subst hobject
      refine .after next fun _ => .wrap ?_
      have hread := (Checks.items checks_readMember (by decide : closesNesting '\x7d' = true)
        .start).andThen (Partial.finished? ofMembers?)
      simp only [finish_eq]
      exact hread.congr fun ms => finished?_members.symm
    · rw [if_neg harray, if_neg hobject, if_neg hobject, if_neg harray]
      exact .refusedAfter (scalar c) fun h => ofValue?_of_not_isNested (not_isNested_of_scalar h)

theorem checks_streamReader : Checks (Json.value maxNesting) streamOfValue? streamReader := by
  refine .after peekPastBlanks fun c => ?_
  by_cases harray : c = '['
  · subst harray
    exact .after next fun _ => .wrap (checks_reader.list (by decide))
  · rw [if_neg harray, if_neg harray]
    by_cases hobject : c = '\x7b'
    · subst hobject
      exact .refusedBefore next fun _ => .wrap (.refused fun _ => rfl)
    · rw [if_neg hobject, if_neg hobject]
      exact .refusedAfter (scalar c) fun h =>
        streamOfValue?_of_not_isNested (not_isNested_of_scalar h)

/-! ### Whole texts -/

/-- A text is read as events if it is the document of a value that is taken for them. -/
theorem parse_eq_ok_iff_streamOfValue? {text : String} {es : List Event} : parse text = .ok es ↔
    ∃ v, Document Numeral.InRange text v ∧ streamOfValue? v = some es := by
  rw [parse, run_eq_ok_iff]
  constructor
  · rintro ⟨rest, hread, hrest⟩
    obtain ⟨v, hvalue, hv⟩ := checks_streamReader.of_ok hread
    exact ⟨v, run_value_eq_ok_iff.mp (run_eq_ok_iff.mpr ⟨rest, hvalue, hrest⟩), hv⟩
  · rintro ⟨v, hdoc, hv⟩
    obtain ⟨rest, hvalue, hrest⟩ := run_eq_ok_iff.mp (run_value_eq_ok_iff.mpr hdoc)
    exact ⟨rest, checks_streamReader.ok_iff.mpr ⟨v, hvalue, hv⟩, hrest⟩

/-- A text is read as events if it is the document of an array of values that mean them. -/
theorem parse_eq_ok_iff {text : String} {es : List Event} : parse text = .ok es ↔
    ∃ vs, Document Numeral.InRange text (.array vs) ∧ List.Forall₂ Means vs es := by
  rw [parse_eq_ok_iff_streamOfValue?]
  constructor
  · rintro ⟨v, hdoc, hv⟩
    obtain ⟨vs, rfl, hvs⟩ := streamOfValue?_eq_some_iff.mp hv
    exact ⟨vs, hdoc, hvs⟩
  · rintro ⟨vs, hdoc, hvs⟩
    exact ⟨_, hdoc, streamOfValue?_eq_some_iff.mpr ⟨vs, rfl, hvs⟩⟩

/-- A document that is taken for no events is refused for its shape. -/
theorem parse_of_document {text : String} (hdoc : Document Numeral.InRange text v)
    (hv : streamOfValue? v = none) : parse text = .error .wrongShape := by
  obtain ⟨rest, hvalue, -⟩ := run_eq_ok_iff.mp (run_value_eq_ok_iff.mpr hdoc)
  have hread := checks_streamReader.ok hvalue
  rw [hv] at hread
  rw [parse, run, bind_of_error hread]

/-- **A text is read as events** if and only if it is the document of an array of values that mean
them, one after another; and a document of any other shape is refused for its shape.  The numbers in
it have to be in range, which they are unless they come near to the bound of the doubles. -/
theorem parse_iff_means (text : String) :
    (∀ es, parse text = .ok es ↔
      ∃ vs, Document Numeral.InRange text (.array vs) ∧ List.Forall₂ Means vs es) ∧
    (∀ v, Document Numeral.InRange text v →
      (¬ ∃ vs es, v = .array vs ∧ List.Forall₂ Means vs es) →
        ∃ fault, parse text = .error fault ∧ fault.text = "data") ∧
    ∀ w n, NumeralText w n →
      ((1 + 1 / 2 ^ 50) * n.magnitude < 2 ^ 1024 - 2 ^ 970 → n.InRange) ∧
      ((1 + 1 / 2 ^ 50) * (2 ^ 1024 - 2 ^ 970) ≤ n.magnitude → ¬ n.InRange) := by
  refine ⟨fun es => parse_eq_ok_iff, fun v hdoc hshape => ?_, fun w n hn =>
    ⟨Numeral.inRange_of_lt hn, Numeral.not_inRange_of_le hn⟩⟩
  refine ⟨.wrongShape, parse_of_document hdoc ?_, rfl⟩
  cases hv : streamOfValue? v with
  | none => rfl
  | some es =>
    obtain ⟨vs, rfl, hvs⟩ := streamOfValue?_eq_some_iff.mp hv
    exact absurd ⟨vs, es, rfl, hvs⟩ hshape

/-- **The range is not quite that of the doubles.** The leading digits and the power of ten are
rounded one after the other.  So a number that is not beyond the largest double can be refused, and
its text is then refused for its syntax, whatever its shape; and a number beyond `2 ^ 1024` can be
taken. -/
theorem parse_near_bound :
    (∃ v, Document (fun n => n.magnitude ≤ 2 ^ 1024 - 2 ^ 971) "[1.797693134862315700e308]" v ∧
      (¬ ∃ vs es, v = .array vs ∧ List.Forall₂ Means vs es) ∧
      ∃ fault, parse "[1.797693134862315700e308]" = .error fault ∧ fault.text = "syntax") ∧
    (parse "[\x7b\"event\":\"exit\",\"size\":1.79769313486231599e308\x7d]" = .ok [.exit] ∧
      ∃ n, NumeralText "1.79769313486231599e308".toList n ∧ 2 ^ 1024 < n.magnitude) := by
  have hone : DigitsText ['1'] [1] := ⟨by decide, List.all_eq_true.mp rfl, rfl⟩
  have hexponent : DigitsText "308".toList [3, 0, 8] := ⟨by decide, List.all_eq_true.mp rfl, rfl⟩
  refine ⟨?_, by decide +kernel, ?_⟩
  · have hfraction : DigitsText "797693134862315700".toList _ :=
      ⟨by decide, List.all_eq_true.mp rfl, rfl⟩
    have hnumber := numeralText_scientific hone hfraction hexponent
    have hvalue {limit : Numeral → Prop} (h : limit _) : ValueText limit maxNesting _ _ :=
      .inr (.array (rowText_intercalate (.cons (valueText_of_scalarText (.number hnumber h)) .nil)))
    refine ⟨_, document_of_valueText (by decide) (hvalue ?_), ?_, .badSyntax,
      by decide +kernel, rfl⟩
    · have hle : 1797693134862315700 * 10 ^ 290 + 2 ^ 971 ≤ 2 ^ 1024 := by decide +kernel
      rw [Numeral.magnitude_eq (s := 1797693134862315700) (k := 290) rfl rfl, le_sub_iff_add_le]
      exact_mod_cast hle
    · rintro ⟨vs, es, h, hmeans⟩
      obtain rfl := Value.array.inj h
      cases hmeans with
      | cons h _ => cases h
  · have hfraction : DigitsText "79769313486231599".toList _ :=
      ⟨by decide, List.all_eq_true.mp rfl, rfl⟩
    have hnumber := numeralText_scientific hone hfraction hexponent
    have hlt : 2 ^ 1024 < 179769313486231599 * 10 ^ 291 := by decide +kernel
    refine ⟨_, hnumber, ?_⟩
    rw [Numeral.magnitude_eq (s := 179769313486231599) (k := 291) rfl rfl]
    exact_mod_cast hlt

/-! ### What is written -/

/-- The value an event is written as: the kind, and for an enter the rule and the label. -/
def asValue : Event → Value
  | .enter rule label =>
    .object [("event", .string "enter"), ("rule", .string rule), ("label", .string label)]
  | .exit => .object [("event", .string "exit")]

theorem means_asValue (e : Event) : Means e.asValue e := by
  rw [← ofValue?_eq_some_iff]
  cases e <;> rfl

/-- A member whose value is a string, without blanks. -/
def memberChars (name s : String) : List Char := writtenText name ++ ':' :: writtenText s

theorem memberText_memberChars (depth : Nat) (name s : String) :
    MemberText (ValueText limit depth) (memberChars name s) (name, .string s) :=
  memberText_compact (stringText_writtenText name)
    (valueText_of_scalarText (.string (stringText_writtenText s)))

theorem written_exit : written .exit
    = '\x7b' :: (List.intercalate [','] [memberChars "event" "exit"] ++ ['\x7d']) := by
  decide

theorem written_enter (rule label : String) : written (.enter rule label)
    = '\x7b' :: (List.intercalate [','] [memberChars "event" "enter", memberChars "rule" rule,
        memberChars "label" label] ++ ['\x7d']) := by
  have hevent : memberChars "event" "enter" = "\"event\":\"enter\"".toList := by decide
  have hrule : writtenText "rule" = "\"rule\"".toList := by decide
  have hlabel : writtenText "label" = "\"label\"".toList := by decide
  rw [hevent, memberChars, memberChars, hrule, hlabel]
  show "\x7b\"event\":\"enter\",\"rule\":".toList ++ writtenText rule
    ++ ",\"label\":".toList ++ writtenText label ++ ['\x7d'] = _
  simp

theorem valueText_written (depth : Nat) (e : Event) :
    ValueText limit (depth + 1) e.written e.asValue := by
  cases e with
  | exit =>
    rw [written_exit]
    exact .inr (.object (rowText_intercalate (.cons (memberText_memberChars _ _ _) .nil)))
  | enter rule label =>
    rw [written_enter]
    exact .inr (.object (rowText_intercalate (.cons (memberText_memberChars _ _ _)
      (.cons (memberText_memberChars _ _ _) (.cons (memberText_memberChars _ _ _) .nil)))))

/-- A written stream is the document of an array, whatever the limit: it holds no numbers. -/
theorem document_render (es : List Event) :
    Document limit (render es) (.array (es.map asValue)) := by
  have helements : List.Forall₂ (ValueText limit (innerNesting + 1)) (es.map written)
      (es.map asValue) := by
    rw [List.forall₂_map_left_iff, List.forall₂_map_right_iff, List.forall₂_same]
    exact fun e _ => valueText_written _ e
  have hvalue : ValueText limit maxNesting (writtenStream es) (.array (es.map asValue)) :=
    .inr (.array (rowText_intercalate helements))
  exact document_of_valueText (by simp [render]) hvalue

/-- **What is written is read again**: the text of a stream is a document, of one object for each
event, and the events are read from it as they were. -/
theorem parse_render (es : List Event) :
    (∀ limit, Document limit (render es) (.array (es.map asValue))) ∧
      parse (render es) = .ok es := by
  refine ⟨fun _ => document_render es, parse_eq_ok_iff.mpr ⟨_, document_render es, ?_⟩⟩
  rw [List.forall₂_map_left_iff, List.forall₂_same]
  exact fun e _ => means_asValue e

end Event

end SyntaxTree
