/-
SyntaxTree/Proofs/Event/Means.lean

What a value means as an event, said without a reader.  `Means v e` says that the value `v` is a
way to write the event `e`: an object with the right members, in any order and with any others
beside them, or an array of the parts.  `ofValue?` finds the event that a value means
(`ofValue?_eq_some_iff`), and so it does if the members or the parts are looked at one after
another (`finished?_members`, `finished?_parts`).
-/
import Mathlib.Data.List.Forall2
import SyntaxTree.Event.Json
import SyntaxTree.Proofs.Json.Value

namespace SyntaxTree

open Json

/-! ### What a value means -/

/-- The members have exactly one of the name, and it has the value. -/
def HasOne (ms : List (String × Value)) (name : String) (v : Value) : Prop :=
  ∃ before after, ms = before ++ (name, v) :: after ∧ ∀ m ∈ before ++ after, m.1 ≠ name

/-- The members have none of the name. -/
def HasNone (ms : List (String × Value)) (name : String) : Prop := ∀ m ∈ ms, m.1 ≠ name

/-- The value is a way to write the event. -/
inductive Event.Means : Value → Event → Prop
  | enterMembers {ms : List (String × Value)} {rule label : String}
      (hevent : HasOne ms "event" (.string "enter")) (hrule : HasOne ms "rule" (.string rule))
      (hlabel : HasOne ms "label" (.string label)) : Means (.object ms) (.enter rule label)
  | enterUnlabelled {ms : List (String × Value)} {rule : String}
      (hevent : HasOne ms "event" (.string "enter")) (hrule : HasOne ms "rule" (.string rule))
      (hlabel : HasNone ms "label") : Means (.object ms) (.enter rule "")
  | enterParts {rule label : String} :
      Means (.array [.string "enter", .string rule, .string label]) (.enter rule label)
  | enterPair {rule : String} : Means (.array [.string "enter", .string rule]) (.enter rule "")
  | exitMembers {ms : List (String × Value)} (hevent : HasOne ms "event" (.string "exit")) :
      Means (.object ms) .exit
  | exitParts : Means (.array [.string "exit"]) .exit

variable {ms : List (String × Value)} {name rule label : String} {v : Value} {vs : List Value}
  {kind : EventKind} {e : Event} {depth : Nat}

/-- The string that names a kind. -/
def EventKind.text : EventKind → String
  | .enters => "enter"
  | .exits => "exit"

theorem EventKind.ofValue?_eq_some_iff :
    EventKind.ofValue? v = some kind ↔ v = .string kind.text := by
  constructor
  · intro h
    unfold EventKind.ofValue? at h
    split at h <;> cases h <;> rfl
  · rintro rfl
    cases kind <;> rfl

namespace Event

theorem valuesOf_cons (m : String × Value) : valuesOf name (m :: ms)
    = if m.1 = name then m.2 :: valuesOf name ms else valuesOf name ms := by
  by_cases h : m.1 = name <;> simp [valuesOf, h]

theorem valuesOf_append (ms ms' : List (String × Value)) :
    valuesOf name (ms ++ ms') = valuesOf name ms ++ valuesOf name ms' := by
  rw [valuesOf, List.filter_append, List.map_append]
  rfl

theorem valuesOf_eq_nil_iff : valuesOf name ms = [] ↔ HasNone ms name := by
  simp [valuesOf, HasNone]

theorem valuesOf_eq_singleton_iff : valuesOf name ms = [v] ↔ HasOne ms name v := by
  constructor
  · intro h
    induction ms with
    | nil => cases h
    | cons m ms ih =>
      rw [valuesOf_cons] at h
      split at h
      case isTrue hname =>
        obtain ⟨rfl, hnone⟩ := List.cons.inj h
        exact ⟨[], ms, by rw [← hname]; rfl, valuesOf_eq_nil_iff.mp hnone⟩
      case isFalse hname =>
        obtain ⟨before, after, rfl, hothers⟩ := ih h
        exact ⟨m :: before, after, rfl, List.forall_mem_cons.mpr ⟨hname, hothers⟩⟩
  · rintro ⟨before, after, rfl, hothers⟩
    have hbefore : valuesOf name before = [] :=
      valuesOf_eq_nil_iff.mpr fun m hm => hothers m (List.mem_append_left _ hm)
    have hafter : valuesOf name after = [] :=
      valuesOf_eq_nil_iff.mpr fun m hm => hothers m (List.mem_append_right _ hm)
    rw [valuesOf_append, valuesOf_cons, if_pos rfl, hbefore, hafter]
    rfl

theorem means_of_ofMembers? (hevent : HasOne ms "event" (.string kind.text))
    (h : ofMembers? kind ms = some e) : Means (.object ms) e := by
  cases kind with
  | exits =>
    obtain rfl := Option.some.inj h
    exact .exitMembers hevent
  | enters =>
    rw [ofMembers?] at h
    split at h
    case h_1 rule hrule hlabel =>
      obtain rfl := Option.some.inj h
      exact .enterUnlabelled hevent (valuesOf_eq_singleton_iff.mp hrule)
        (valuesOf_eq_nil_iff.mp hlabel)
    case h_2 rule label hrule hlabel =>
      obtain rfl := Option.some.inj h
      exact .enterMembers hevent (valuesOf_eq_singleton_iff.mp hrule)
        (valuesOf_eq_singleton_iff.mp hlabel)
    case h_3 => cases h

theorem means_of_ofParts? (h : ofParts? kind vs = some e) :
    Means (.array (.string kind.text :: vs)) e := by
  unfold ofParts? at h
  split at h <;> cases h
  · exact .exitParts
  · exact .enterPair
  · exact .enterParts

/-- **What a value is taken for** is what it means. -/
theorem ofValue?_eq_some_iff : ofValue? v = some e ↔ Means v e := by
  constructor
  · intro h
    unfold ofValue? at h
    split at h
    case h_1 first parts =>
      obtain ⟨kind, hkind, h⟩ := Option.bind_eq_some_iff.mp h
      rw [EventKind.ofValue?_eq_some_iff.mp hkind]
      exact means_of_ofParts? h
    case h_2 ms =>
      split at h
      case h_1 named hnamed =>
        obtain ⟨kind, hkind, h⟩ := Option.bind_eq_some_iff.mp h
        rw [EventKind.ofValue?_eq_some_iff.mp hkind] at hnamed
        exact means_of_ofMembers? (valuesOf_eq_singleton_iff.mp hnamed) h
      case h_2 => cases h
    case h_3 => cases h
  · intro h
    cases h with
    | enterMembers hevent hrule hlabel =>
      rw [← valuesOf_eq_singleton_iff] at hevent hrule hlabel
      rw [ofValue?, hevent]
      show ofMembers? .enters _ = _
      rw [ofMembers?, hrule, hlabel]
    | enterUnlabelled hevent hrule hlabel =>
      rw [← valuesOf_eq_singleton_iff] at hevent hrule
      rw [← valuesOf_eq_nil_iff] at hlabel
      rw [ofValue?, hevent]
      show ofMembers? .enters _ = _
      rw [ofMembers?, hrule, hlabel]
    | exitMembers hevent =>
      rw [← valuesOf_eq_singleton_iff] at hevent
      rw [ofValue?, hevent]
      rfl
    | enterParts => rfl
    | enterPair => rfl
    | exitParts => rfl

/-- What a value is taken for as a stream: the events that the elements of an array mean. -/
def streamOfValue? : Value → Option (List Event)
  | .array vs => vs.mapM ofValue?
  | _ => none

theorem ofValue?_of_not_isNested (h : v.isNested = false) : ofValue? v = none := by
  cases v with
  | array | object => cases h
  | null | bool | number | string => rfl

theorem streamOfValue?_of_not_isNested (h : v.isNested = false) : streamOfValue? v = none := by
  cases v with
  | array | object => cases h
  | null | bool | number | string => rfl

theorem mapM_ofValue?_eq_some_iff {es : List Event} :
    vs.mapM ofValue? = some es ↔ List.Forall₂ Means vs es := by
  induction vs generalizing es with
  | nil => cases es <;> simp
  | cons v vs ih =>
    cases es with
    | nil => simp [Option.bind_eq_some_iff]
    | cons e es => simp [Option.bind_eq_some_iff, ← ofValue?_eq_some_iff, ← ih]

/-- A value is taken for the events that the elements of an array mean. -/
theorem streamOfValue?_eq_some_iff {es : List Event} :
    streamOfValue? v = some es ↔ ∃ vs, v = .array vs ∧ List.Forall₂ Means vs es := by
  cases v with
  | array vs => simp [streamOfValue?, mapM_ofValue?_eq_some_iff]
  | null | bool | number | string | object => simp [streamOfValue?]

/-! ### One thing after another -/

/-- What has been read of an event, with one more member. -/
def Partial.withMember (p : Partial (String × Value)) (m : String × Value) :
    Option (Partial (String × Value)) :=
  if m.1 = "event" then
    if p.kind.isSome then none
    else (EventKind.ofValue? m.2).map fun kind => { p with kind := some kind }
  else some { p with others := m :: p.others }

/-- What has been read of an event, with one more part. -/
def Partial.withPart (p : Partial Value) (v : Value) : Option (Partial Value) :=
  if p.kind.isSome then some { p with others := v :: p.others }
  else (EventKind.ofValue? v).map fun kind => { p with kind := some kind }

/-- The event of all that was read. -/
def Partial.finished? {α : Type} (make : EventKind → List α → Option Event) (p : Partial α) :
    Option Event := p.kind.bind fun kind => make kind p.others.reverse

theorem foldlM_withPart (others : List Value) : vs.foldlM Partial.withPart ⟨some kind, others⟩
    = some ⟨some kind, vs.reverse ++ others⟩ := by
  induction vs generalizing others with
  | nil => rfl
  | cons v vs ih =>
    rw [List.foldlM_cons]
    show vs.foldlM Partial.withPart ⟨some kind, v :: others⟩ = _
    rw [ih, List.reverse_cons, List.append_assoc]
    rfl

/-- Parts read one after another make the event that the array means. -/
theorem finished?_parts : (vs.foldlM Partial.withPart .start >>= Partial.finished? ofParts?)
    = ofValue? (.array vs) := by
  cases vs with
  | nil => rfl
  | cons v vs =>
    rw [List.foldlM_cons, ofValue?]
    show ((EventKind.ofValue? v).map _ >>= fun p => vs.foldlM Partial.withPart p) >>= _ = _
    cases EventKind.ofValue? v with
    | none => rfl
    | some kind =>
      show (vs.foldlM Partial.withPart ⟨some kind, []⟩ >>= Partial.finished? ofParts?) = ofParts? kind vs
      rw [foldlM_withPart, List.append_nil]
      show ofParts? kind vs.reverse.reverse = _
      rw [List.reverse_reverse]

/-- The kind after some more members: there may be one that names it, and no second one. -/
def kindAfter : Option EventKind → List Value → Option (Option EventKind)
  | kind, [] => some kind
  | none, [v] => (EventKind.ofValue? v).map some
  | _, _ => none

theorem foldlM_withMember (kind : Option EventKind) (others : List (String × Value)) :
    ms.foldlM Partial.withMember ⟨kind, others⟩ = (kindAfter kind (valuesOf "event" ms)).map fun kind =>
      ⟨kind, (ms.filter fun m => m.1 ≠ "event").reverse ++ others⟩ := by
  induction ms generalizing kind others with
  | nil => cases kind <;> rfl
  | cons m ms ih =>
    rw [List.foldlM_cons, valuesOf_cons, Partial.withMember]
    by_cases hname : m.1 = "event"
    · rw [if_pos hname, if_pos hname, List.filter_cons_of_neg (by simp [hname])]
      cases kind with
      | some kind => simp [kindAfter]
      | none =>
        show ((EventKind.ofValue? m.2).map _ >>= fun p => ms.foldlM Partial.withMember p) = _
        cases hm : EventKind.ofValue? m.2 with
        | none => cases valuesOf "event" ms <;> simp [kindAfter, hm]
        | some kind =>
          show ms.foldlM Partial.withMember ⟨some kind, others⟩ = _
          rw [ih]
          cases valuesOf "event" ms <;> simp [kindAfter, hm]
    · rw [if_neg hname, if_neg hname, List.filter_cons_of_pos (by simp [hname]), List.reverse_cons,
        List.append_assoc]
      exact ih kind (m :: others)

theorem valuesOf_filter (h : name ≠ "event") :
    valuesOf name (ms.filter fun m => m.1 ≠ "event") = valuesOf name ms := by
  rw [valuesOf, List.filter_filter]
  refine congrArg (List.map Prod.snd) (List.filter_congr fun m _ => ?_)
  by_cases hm : m.1 = name
  · simp [hm, h]
  · simp [hm]

theorem ofMembers?_filter :
    ofMembers? kind (ms.filter fun m => m.1 ≠ "event") = ofMembers? kind ms := by
  cases kind with
  | exits => rfl
  | enters => rw [ofMembers?, ofMembers?, valuesOf_filter (by decide), valuesOf_filter (by decide)]

/-- Members read one after another make the event that the object means. -/
theorem finished?_members : (ms.foldlM Partial.withMember .start >>= Partial.finished? ofMembers?)
    = ofValue? (.object ms) := by
  have hfinished : ∀ kind : EventKind,
      Partial.finished? ofMembers? ⟨kind, (ms.filter fun m => m.1 ≠ "event").reverse ++ []⟩
        = ofMembers? kind ms := by
    intro kind
    rw [List.append_nil]
    show ofMembers? kind (ms.filter fun m => m.1 ≠ "event").reverse.reverse = _
    rw [List.reverse_reverse, ofMembers?_filter]
  rw [Partial.start, foldlM_withMember, ofValue?]
  match valuesOf "event" ms with
  | [] => rfl
  | [v] =>
    cases hv : EventKind.ofValue? v with
    | none => simp [kindAfter, hv]
    | some kind => simpa [kindAfter, hv] using hfinished kind
  | _ :: _ :: _ => rfl

end Event

end SyntaxTree
