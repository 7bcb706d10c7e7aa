/-
SyntaxTree/Proofs/Event/Truncation.lean

Streams of events that end too early.  The reader of streams needs all of a written stream
(`needs_streamReader`): no part of it is enough, and as long as the rest may still come, nothing
else is found wrong.  The reader refuses wrong shapes early in places and late in others, so it
is followed member by member; an event that lacks members is never looked at as a whole,
since its closing bracket is missing too.
-/
import SyntaxTree.CommandLine
import SyntaxTree.Proofs.Event.Json
import SyntaxTree.Proofs.Json.Truncation

namespace SyntaxTree

open Json Json.Reader

namespace Event

variable {p : Partial (String × Value)} {name : String}

/-! ### Members -/

theorem opens_memberChars (name s : String) : Opens (memberChars name s) :=
  ⟨'"', _, rfl, by decide, by decide⟩

theorem needs_kindReader (kind : EventKind) :
    Needs EventKind.reader (writtenText kind.text) kind := by
  rw [kindReader_eq]
  refine Needs.peekPastBlanks ?_ (by decide)
  rw [if_neg (by decide)]
  refine (needs_scalar kind.text).bind_pure ?_
  rw [EventKind.ofValue?_eq_some_iff.mpr rfl]
  rfl

/-- The kind is read when no other has been read before. -/
theorem needs_readMember_kind (hp : p.kind = none) (kind : EventKind) :
    Needs (readMember p) (memberChars "event" kind.text) { p with kind := some kind } := by
  refine (needs_memberName "event").bind ?_
  rw [if_pos rfl, hp]
  exact needs_colon.bind ((needs_kindReader kind).map fun kind => { p with kind := some kind })

theorem needs_readMember_other (hname : name ≠ "event") (s : String) :
    Needs (readMember p) (memberChars name s)
      { p with others := (name, .string s) :: p.others } := by
  refine (needs_memberName name).bind ?_
  rw [if_neg hname]
  exact needs_colon.bind ((needs_value innerNesting s).map fun v =>
    { p with others := (name, v) :: p.others })

/-! ### Events and streams -/

theorem opens_written (e : Event) : Opens e.written := by
  cases e <;> exact ⟨'\x7b', _, rfl, by decide, by decide⟩

/-- An event is made of its members when the closing bracket has been read. -/
theorem needs_reader_of_members {ws : List (List Char)} {e : Event}
    (hmembers : NeedsEach readMember .start ws p) (he : p.finish ofMembers? = pure e) :
    Needs reader ('\x7b' :: (List.intercalate [','] ws ++ ['\x7d'])) e := by
  refine Needs.peekPastBlanks ?_ (by decide)
  rw [if_pos rfl]
  exact (needs_next '\x7b').bind ((hmembers.needs_items (by decide)).bind_pure he)

theorem needs_reader (e : Event) : Needs reader e.written e := by
  cases e with
  | exit =>
    rw [written_exit]
    exact needs_reader_of_members
      (.cons (opens_memberChars _ _) (needs_readMember_kind rfl .exits) .nil) rfl
  | enter rule label =>
    rw [written_enter]
    exact needs_reader_of_members
      (.cons (opens_memberChars _ _) (needs_readMember_kind rfl .enters)
        (.cons (opens_memberChars _ _) (needs_readMember_other (by decide) rule)
          (.cons (opens_memberChars _ _) (needs_readMember_other (by decide) label) .nil))) rfl

theorem needs_streamReader (es : List Event) : Needs streamReader (writtenStream es) es := by
  have hevents : List.Forall₂ (fun w e => Opens w ∧ Needs reader w e) (es.map written) es := by
    rw [List.forall₂_map_left_iff, List.forall₂_same]
    exact fun e _ => ⟨opens_written e, needs_reader e⟩
  refine Needs.peekPastBlanks ?_ (by decide)
  rw [if_pos rfl]
  exact (needs_next '[').bind (needs_listOf (by decide) hevents)

/-! ### Whole texts -/

/-- **A text that was cut off is never accepted**: whatever events a stream was written for and
wherever the text of it is cut, what is left is refused because it ends too early, and nothing is
shown of it. -/
theorem parse_truncated {es : List Event} {text : String}
    (hfront : text.toList <+: (render es).toList) (hproper : text ≠ render es) :
    ∃ fault, parse text = .error fault ∧ fault.text = "eof" ∧
      ∀ view, CommandLine.inspect view text = .error (.notJson fault) := by
  obtain ⟨cut, hcut⟩ := hfront
  have hwaits : streamReader text.toList = .error .endOfText := by
    cases cut with
    | nil => exact absurd (String.toList_injective (by simpa using hcut)) hproper
    | cons c rest =>
      have hwritten : writtenStream es = text.toList ++ c :: rest := by
        rw [hcut, render, String.toList_ofList]
      exact (needs_streamReader es).waits hwritten
  have hparse : parse text = .error .endOfText := by
    rw [parse, run, bind_of_error hwaits]
  refine ⟨.endOfText, hparse, rfl, fun view => ?_⟩
  rw [CommandLine.inspect, CommandLine.load, hparse]
  rfl

/-- A stream cut off inside an escape. -/
theorem truncated_escape :
    let es : List Event := [.enter "a" "\x01\"", .exit]
    let text := "[\x7b\"event\":\"enter\",\"rule\":\"a\",\"label\":\"\\u00"
    (text.toList <+: (render es).toList ∧ text ≠ render es) ∧
      ∃ fault, parse text = .error fault ∧ fault.text = "eof" ∧
        ∀ view, CommandLine.inspect view text = .error (.notJson fault) := by
  intro es text
  have hfront : text.toList <+: (render es).toList := by decide
  have hproper : text ≠ render es := by decide
  exact ⟨⟨hfront, hproper⟩, parse_truncated hfront hproper⟩

end Event

end SyntaxTree
