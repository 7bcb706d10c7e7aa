/-
SyntaxTree/Proofs/Refusal.lean

What is refused leaves no trace.  A removal is refused if the candidate is unknown, and a
replacement if the candidate is unknown or else there is nothing to put in the place; the
error says which of these it was (`Tree.Refuses`).  In a forest such a cut changes nothing,
reports nothing and uses up no identity (`Forest.step_eq_unchanged`).

For a run this means that it goes on as if the refused cuts had never been asked for.  The
history of a run tells its jobs with the reply to each; where refused cuts are left out of
it, what remains is again the history of a run, with every reply as before
(`history_of_sublist`).

A stream of events is refused at an exit that finds no node open, or at its end, and has
used up the identities of the nodes entered by then (`Event.Refused`).
-/
import SyntaxTree.Proofs.Custody
import SyntaxTree.Proofs.Provenance
import SyntaxTree.Proofs.Stream

namespace SyntaxTree

/-! ### Cuts in a tree -/

namespace Tree

/-- The candidate is empty, or no live node has the origin of its root. -/
def Unknown (t candidate : Tree) : Prop :=
  candidate.isEmpty = true ∨ ¬ ∃ n, t.Corresponds candidate n

/-- When `t` refuses to have the subtree of the candidate removed, or replaced by a copy of `graft`
numbered from `next` on, and with which errors. -/
structure Refuses (t candidate graft : Tree) (next : NodeId) : Prop where
  origin_eq_none_iff : candidate.candidateOrigin = none ↔ candidate.isEmpty = true
  origin_eq : ∀ n, candidate.rootNode? = some n → candidate.candidateOrigin = some n.origin
  remove_iff : ∀ e, t.remove candidate = .error e ↔
    t.Unknown candidate ∧ e = .notFound candidate.candidateOrigin
  /-- Whether there is anything to put in the place matters only for a candidate that is known. -/
  replace_iff : ∀ e, t.replace candidate graft next = .error e ↔
    (t.Unknown candidate ∧ e = .notFound candidate.candidateOrigin) ∨
    (¬ t.Unknown candidate ∧ graft.isEmpty = true ∧ e = .emptyTree)

variable {t candidate graft : Tree} {next : NodeId} {e : TreeError}

/-- What has no live counterpart is unknown; an empty candidate has none either. -/
theorem Coherent.unknown_iff (h : t.Coherent) :
    t.Unknown candidate ↔ t.counterpart? candidate = none := by
  rw [Option.eq_none_iff_forall_ne_some, Unknown]
  constructor
  · rintro hunknown n hn
    have hcorresponds := h.counterpart?_iff_corresponds.mp hn
    rcases hunknown with hempty | hnone
    · obtain ⟨-, m, hm, -⟩ := hcorresponds
      rw [rootNode?_of_isEmpty hempty] at hm
      cases hm
    · exact hnone ⟨n, hcorresponds⟩
  · intro hnone
    exact .inr fun ⟨n, hn⟩ => hnone n (h.counterpart?_iff_corresponds.mpr hn)

/-- **A candidate cannot be located** exactly if it is unknown. -/
theorem Coherent.locate_eq_error_iff (h : t.Coherent) :
    t.locate candidate = .error e ↔
      t.Unknown candidate ∧ e = .notFound candidate.candidateOrigin := by
  rw [h.unknown_iff, h.locate_eq]
  cases t.counterpart? candidate with
  | some n => simp
  | none => simp [eq_comm]

/-- Only a tree without nodes has no root. -/
theorem Sound.rootNode?_eq_none_iff (h : t.Sound next) :
    t.rootNode? = none ↔ t.isEmpty = true := by
  refine ⟨fun hnone => ?_, rootNode?_of_isEmpty⟩
  by_contra hne
  obtain ⟨b, hb⟩ := h.exists_branch_of_not_isEmpty (Bool.eq_false_iff.mpr hne)
  cases hb.rootNode?_eq.symm.trans hnone

/-- A removal fails where the candidate cannot be located. -/
theorem remove_eq_error_iff : t.remove candidate = .error e ↔ t.locate candidate = .error e := by
  rw [remove]
  cases t.locate candidate with
  | error e' =>
    constructor
    · intro h; cases h; rfl
    · intro h; cases h; rfl
  | ok i =>
    constructor
    · intro h; cases h
    · intro h; cases h

/-- A replacement fails where the candidate cannot be located, and otherwise where there is no root
to put in the place. -/
theorem replace_eq_error_iff : t.replace candidate graft next = .error e ↔
    t.locate candidate = .error e ∨
      ((∃ i, t.locate candidate = .ok i) ∧ graft.rootNode? = none ∧ e = .emptyTree) := by
  rw [replace, rootNode]
  cases t.locate candidate with
  | error e' =>
    constructor
    · intro h; cases h; exact .inl rfl
    · rintro (h | ⟨⟨i, hi⟩, -⟩)
      · cases h; rfl
      · cases hi
  | ok i =>
    cases graft.rootNode? with
    | none =>
      constructor
      · intro h
        exact .inr ⟨⟨i, rfl⟩, rfl, (Except.error.inj h).symm⟩
      · rintro (h | ⟨-, -, rfl⟩)
        · cases h
        · rfl
    | some n =>
      constructor
      · intro h; cases h
      · rintro (h | ⟨-, h, -⟩) <;> cases h

/-- **What a sound tree refuses.** -/
theorem Sound.refuses {used used' used'' : NodeId} (ht : t.Sound used) (hc : candidate.Sound used')
    (hg : graft.Sound used'') (next : NodeId) : t.Refuses candidate graft next := by
  obtain ⟨bs, hs⟩ := ht.spells
  have hknown : (∃ i, t.locate candidate = .ok i) ↔ ¬ t.Unknown candidate := by
    rw [hs.unknown_iff, hs.locate_eq]
    cases t.counterpart? candidate with
    | some n => simp
    | none => simp
  refine ⟨?_, ?_, ?_, ?_⟩
  · rw [candidateOrigin, Option.map_eq_none_iff, hc.rootNode?_eq_none_iff]
  · intro n hn
    rw [candidateOrigin, hn]
    rfl
  · intro e
    rw [remove_eq_error_iff, hs.locate_eq_error_iff]
  · intro e
    rw [replace_eq_error_iff, hs.locate_eq_error_iff, hknown, hg.rootNode?_eq_none_iff]

end Tree

/-! ### Cuts in a forest -/

namespace Forest

variable {f : Forest} {x candidate graft dest : String} {t c g : Tree} {e : TreeError}

/-- What is refused in a tree is refused in a forest: the answer shows the tree as it is. -/
theorem step_remove_error {dest : Option String} (ht : f.tree? x = some t)
    (hc : f.tree? candidate = some c) (he : t.remove c = .error e) :
    f.step (.remove x candidate dest) = f.unchanged (.removed (.error (.cause e)) t) := by
  simp only [step, ht, hc, remove, he]

theorem step_replace_error (ht : f.tree? x = some t) (hc : f.tree? candidate = some c)
    (hg : f.tree? graft = some g) (he : t.replace c g f.next = .error e) :
    f.step (.replace x candidate graft) = f.unchanged (.replaced (.error (.cause e)) t) := by
  simp only [step, ht, hc, hg, replace, he]

/-- **A cut that is refused** changes nothing and reports nothing. -/
theorem step_eq_unchanged {c : Command} (hc : c.cuts = true)
    (hrefused : (f.step c).answer.cuts = false) : f.step c = f.unchanged (f.step c).answer := by
  cases c with
  | remove x candidate dest =>
    cases ht : f.tree? x with
    | none => simp only [step, ht]; rfl
    | some t =>
      cases hg : f.tree? candidate with
      | none => simp only [step, ht, hg]; rfl
      | some c =>
        cases hr : t.remove c with
        | error e => rw [step_remove_error ht hg hr]; rfl
        | ok r =>
          simp only [step, ht, hg, remove, hr] at hrefused
          cases hrefused
  | replace x candidate graft =>
    cases ht : f.tree? x with
    | none => simp only [step, ht]; rfl
    | some t =>
      cases hg : f.tree? candidate with
      | none => simp only [step, ht, hg]; rfl
      | some c =>
        cases hg' : f.tree? graft with
        | none => simp only [step, ht, hg, hg']; rfl
        | some g =>
          cases hr : t.replace c g f.next with
          | error e => rw [step_replace_error ht hg hg' hr]; rfl
          | ok r =>
            simp only [step, ht, hg, hg', replace, hr] at hrefused
            cases hrefused
  | _ => cases hc

end Forest

/-! ### Streams -/

/-- The stream `es` is refused with the error `e` when the events `read` have been taken in: at an
exit that finds no node open, or not before its end. -/
inductive Event.Refused (es : List Event) : List Event → TreeError → Prop
  | exit {read rest : List Event} (hes : es = read ++ .exit :: rest)
      (hopen : ∀ p, p <+: read → 0 ≤ height p) (hclosed : height read = 0) :
      Refused es read (.malformedStream read.length .unmatchedExit)
  | second {position : Nat} (hopen : ∀ p, p <+: es → 0 ≤ height p) :
      Refused es es (.malformedStream position .secondRoot)
  | unclosed {count : Nat} (hopen : ∀ p, p <+: es → 0 ≤ height p) (hcount : height es = count)
      (hpos : 0 < count) : Refused es es (.malformedStream es.length (.unclosed count))

namespace Assembly

open Event

variable {a b : Assembly} {es : List Event}

/-- What `es` has done to the assembly `a`: it has entered nodes, and left open as many as its
height says. -/
structure Read (a : Assembly) (es : List Event) (b : Assembly) : Prop where
  nonneg : ∀ p, p <+: es → 0 ≤ (a.depth : Int) + height p
  depth_eq : (b.depth : Int) = a.depth + height es
  position_eq : b.position = a.position + es.length
  next_eq : b.next = a.next.shift (entries es).length

theorem read_nil (a : Assembly) : a.Read [] a := by
  refine ⟨?_, (Int.add_zero _).symm, rfl, rfl⟩
  intro p hp
  rw [List.prefix_nil.mp hp, height_nil]
  omega

/-- What is read after an event that is taken in. -/
theorem Read.cons {e : Event} {c : Assembly} (hdepth : (b.depth : Int) = a.depth + e.rise)
    (hposition : b.position = a.position + 1) (hnext : b.next = a.next.shift (entries [e]).length)
    (h : b.Read es c) : a.Read (e :: es) c := by
  refine ⟨?_, ?_, ?_, ?_⟩
  · intro p hp
    cases p with
    | nil => rw [height_nil]; omega
    | cons e' p =>
      obtain ⟨rfl, hp'⟩ := List.cons_prefix_cons.mp hp
      have hrest := h.nonneg p hp'
      rw [height_cons]
      omega
  · rw [h.depth_eq, hdepth, height_cons, Int.add_assoc]
  · rw [h.position_eq, hposition, List.length_cons]
    omega
  · have hentries : entries (e :: es) = entries [e] ++ entries es := entries_append [e] es
    rw [h.next_eq, hnext, hentries, List.length_append]
    exact congrArg NodeId.mk (Nat.add_assoc _ _ _)

/-- How a stream is taken in: as a whole, or up to an exit that finds no node open. -/
inductive Takes (a : Assembly) (es : List Event) : Prop
  | all {b : Assembly} (hall : a.applyAll es = (.ok (), b)) (hread : a.Read es b)
  | upTo {read rest : List Event} {b : Assembly} (hes : es = read ++ .exit :: rest)
      (hread : a.Read read b) (hclosed : b.depth = 0)
      (hfails : a.applyAll es = (.error (.malformedStream b.position .unmatchedExit), b.exit.2))

/-- An event that is taken in is followed by what the rest of the stream does. -/
theorem Takes.cons {e : Event} (hb : a.apply e = (.ok (), b))
    (hdepth : (b.depth : Int) = a.depth + e.rise) (hposition : b.position = a.position + 1)
    (h : b.Takes es) : a.Takes (e :: es) := by
  have hnext : b.next = a.next.shift (entries [e]).length := by rw [← a.next_apply e, hb]
  have hrest : a.applyAll (e :: es) = b.applyAll es := by rw [applyAll, hb]
  cases h with
  | all hall hread => exact .all (hrest.trans hall) (.cons hdepth hposition hnext hread)
  | upTo hes hread hclosed hfails =>
    refine .upTo (congrArg (e :: ·) hes) (.cons hdepth hposition hnext hread) hclosed ?_
    exact hrest.trans hfails

/-- **How any stream is taken in**, by any assembly. -/
theorem takes (a : Assembly) (es : List Event) : a.Takes es := by
  induction es generalizing a with
  | nil => exact .all rfl a.read_nil
  | cons e es ih =>
    cases e with
    | enter rule label => exact .cons rfl rfl rfl (ih _)
    | exit =>
      cases ho : a.opened with
      | nil =>
        have hfirst : Event.exit :: es = [] ++ .exit :: es := rfl
        refine .upTo hfirst a.read_nil (congrArg List.length ho) ?_
        simp only [applyAll, apply, Assembly.exit, ho]
      | cons i opened =>
        have hexit : a.apply .exit =
            (.ok (), { a with position := a.position + 1, opened := opened }) := by
          rw [apply, Assembly.exit, ho]
        refine .cons hexit ?_ rfl (ih _)
        show (opened.length : Int) = a.opened.length + Event.exit.rise
        rw [ho, List.length_cons, rise_exit]
        omega

end Assembly

namespace Tree

open Event

variable {es : List Event} {next : NodeId} {e : TreeError}

/-- **A stream that is refused** has used up one identity for each node entered by then. -/
theorem exists_refused_of_ofEvents_error (h : (ofEvents es next).1 = .error e) :
    ∃ read, Event.Refused es read e ∧ (ofEvents es next).2 = next.shift (entries read).length := by
  have hstart : ((Assembly.start next).depth : Int) = 0 := rfl
  cases (Assembly.start next).takes es with
  | @all b hall hread =>
    obtain ⟨hopen, hdepth, hposition, hnext⟩ := hread
    rw [ofEvents, hall] at h ⊢
    refine ⟨es, ?_, hnext⟩
    simp only [hstart, Int.zero_add] at hopen hdepth
    have hfinish : b.finish = .error e := h
    rw [Assembly.finish] at hfinish
    split at hfinish
    · -- a second node was entered at top level
      cases hfinish
      exact .second hopen
    · split at hfinish
      · cases hfinish
      · next hopened =>
        -- nodes were left open
        cases hfinish
        have hlength : b.position = es.length := hposition.trans (Nat.zero_add _)
        rw [hlength]
        refine .unclosed hopen hdepth.symm ?_
        exact List.length_pos_iff.mpr fun hnil => hopened (List.isEmpty_iff.mpr hnil)
  | @upTo read rest b hes hread hclosed hfails =>
    obtain ⟨hopen, hdepth, hposition, hnext⟩ := hread
    rw [ofEvents, hfails] at h ⊢
    cases h
    have hlength : b.position = read.length := hposition.trans (Nat.zero_add _)
    refine ⟨read, ?_, b.next_exit.trans hnext⟩
    simp only [hstart, Int.zero_add] at hopen hdepth
    rw [hlength]
    exact .exit hes hopen (by omega)

end Tree

namespace Forest

variable {f : Forest} {dest : String} {es : List Event} {name : Option String} {reason : Refusal}

/-- A forest that refuses a stream only goes on counting. -/
theorem step_build_refused (h : (f.step (.build dest es name)).answer = .refused reason) :
    ∃ read e, Event.Refused es read e ∧ f.step (.build dest es name) =
      ⟨.refused (.cause e), f.advance (f.next.shift (Event.entries read).length), []⟩ := by
  rw [step, build] at h ⊢
  rcases hb : Tree.ofEvents es f.next with ⟨e | t, next⟩
  · obtain ⟨read, hrefused, hnext⟩ := Tree.exists_refused_of_ofEvents_error (congrArg Prod.fst hb)
    rw [hb] at hnext
    exact ⟨read, e, hrefused, congrArg (fun i => Effect.mk _ (f.advance i) []) hnext⟩
  · rw [hb] at h
    cases h

end Forest

/-! ### Histories -/

/-- What is replied to a job. -/
inductive Reply where
  /-- The answer of a command, or of an assembly that was finished, and what it has reported. -/
  | answered (answer : Answer) (log : List LogEntry)
  /-- What became of an event, the node it has entered, and how many nodes are open then. -/
  | taken (outcome : Except TreeError Unit) (entered : Option NodeId) (depth : Nat)
  /-- An assembly was started. -/
  | started
  /-- There is no such assembly. -/
  | nothing

namespace Workshop

/-- The reply to an event. -/
def replyToEvent (w : Workshop) (a : Assembly) (e : Event) : Reply :=
  let result := { a with next := w.forest.next }.apply e
  let entered := match e with
    | .enter _ _ => some w.forest.next
    | .exit => none
  .taken result.1 entered result.2.depth

/-- The reply to the finishing of an assembly. -/
def replyToFinish (w : Workshop) (a : Assembly) (dest : String) (title : Option String) : Reply :=
  match a.finish with
  | .ok t =>
    let e := w.forest.deliver dest t title [t.builtEntry]
    .answered e.answer e.log
  | .error e => .answered (.refused (.cause e)) []

/-- The reply to a job. -/
def reply (w : Workshop) : Job → Reply
  | .command c => .answered (w.forest.step c).answer (w.forest.step c).log
  | .start _ => .started
  | .event name e => (w.assemblies.get? name).elim .nothing fun a => w.replyToEvent a e
  | .finish name dest title =>
    (w.assemblies.get? name).elim .nothing fun a => w.replyToFinish a dest title

/-- Jobs done one after another, each with the reply to it. -/
def history (w : Workshop) : List Job → List (Job × Reply)
  | [] => []
  | j :: jobs => (j, w.reply j) :: (w.step j).history jobs

/-- The job is not a cut, or it is one that has succeeded. -/
def goesThrough : Job × Reply → Bool
  | (.command c, .answered answer _) => !c.cuts || answer.cuts
  | _ => true

/-- Two workshops that have the same trees and assemblies at hand, and the same next identity,
whatever they have shown. -/
structure Alike (w v : Workshop) : Prop where
  forest_eq : w.forest = v.forest
  assemblies_eq : w.assemblies = v.assemblies

variable {w v : Workshop} {j : Job} {jobs : List Job}

/-- What has been shown before has no bearing on a reply, -/
theorem Alike.reply_eq (h : w.Alike v) (j : Job) : w.reply j = v.reply j := by
  obtain ⟨f, as, shown⟩ := w
  obtain ⟨rfl, rfl⟩ := h
  rfl

/-- nor on what is at hand after a job. -/
theorem Alike.step (h : w.Alike v) (j : Job) : (w.step j).Alike (v.step j) := by
  obtain ⟨f, as, shown⟩ := w
  obtain ⟨rfl, rfl⟩ := h
  cases j with
  | command c => exact ⟨rfl, rfl⟩
  | start name => exact ⟨rfl, rfl⟩
  | event name e =>
    simp only [Workshop.step]
    cases v.assemblies.get? name with
    | none => exact ⟨rfl, rfl⟩
    | some a => exact ⟨rfl, rfl⟩
  | finish name dest title =>
    simp only [Workshop.step]
    cases v.assemblies.get? name with
    | none => exact ⟨rfl, rfl⟩
    | some a =>
      show (Workshop.finish _ name a dest title).Alike (v.finish name a dest title)
      simp only [Workshop.finish]
      cases a.finish with
      | ok t => exact ⟨rfl, rfl⟩
      | error e => exact ⟨rfl, rfl⟩

/-- **A refused cut** leaves at hand what was there. -/
theorem alike_step_of_not_goesThrough (h : goesThrough (j, w.reply j) = false) :
    (w.step j).Alike w := by
  cases j with
  | command c =>
    obtain ⟨hc, hrefused⟩ : c.cuts = true ∧ (w.forest.step c).answer.cuts = false := by
      simpa [goesThrough, reply] using h
    refine ⟨?_, rfl⟩
    show (w.forest.step c).forest = w.forest
    rw [Forest.step_eq_unchanged hc hrefused]
    rfl
  | _ => cases h

theorem Alike.symm (h : w.Alike v) : v.Alike w := ⟨h.forest_eq.symm, h.assemblies_eq.symm⟩

theorem Alike.trans {u : Workshop} (h : w.Alike v) (h' : v.Alike u) : w.Alike u :=
  ⟨h.forest_eq.trans h'.forest_eq, h.assemblies_eq.trans h'.assemblies_eq⟩

/-- What remains of a history when refused cuts are left out is the history of the jobs that
remain. -/
theorem history_of_filter_eq (h : v.Alike w) {kept : List (Job × Reply)}
    (hkept : kept.Sublist (w.history jobs))
    (hgoes : kept.filter goesThrough = (w.history jobs).filter goesThrough) :
    v.history (kept.map Prod.fst) = kept ∧
      (v.proceed (kept.map Prod.fst)).Alike (w.proceed jobs) := by
  induction jobs generalizing w v kept with
  | nil =>
    obtain rfl := List.sublist_nil.mp hkept
    exact ⟨rfl, h⟩
  | cons j jobs ih =>
    rw [history] at hkept hgoes
    cases hkept with
    | cons _ hkept =>
      -- the job is left out; had it gone through, it would be missed
      have hrefused : ¬ goesThrough (j, w.reply j) = true := by
        intro hthrough
        rw [List.filter_cons_of_pos hthrough] at hgoes
        have hle := (hkept.filter goesThrough).length_le
        rw [hgoes, List.length_cons] at hle
        omega
      rw [List.filter_cons_of_neg hrefused] at hgoes
      have hsame := alike_step_of_not_goesThrough (Bool.eq_false_iff.mpr hrefused)
      exact ih (h.trans hsame.symm) hkept hgoes
    | @cons_cons kept _ _ hkept =>
      have hrest : kept.filter goesThrough = ((w.step j).history jobs).filter goesThrough := by
        by_cases hthrough : goesThrough (j, w.reply j) = true
        · rw [List.filter_cons_of_pos hthrough, List.filter_cons_of_pos hthrough] at hgoes
          exact (List.cons.inj hgoes).2
        · rwa [List.filter_cons_of_neg hthrough, List.filter_cons_of_neg hthrough] at hgoes
      obtain ⟨hhistory, hlater⟩ := ih (h.step j) hkept hrest
      refine ⟨?_, hlater⟩
      rw [List.map_cons, history, h.reply_eq, hhistory]

/-- **Refused cuts may as well not have been asked for.** If all or some of them are left out of a
history, what remains is the history of the jobs that remain, and leads to the same trees and
assemblies. -/
theorem history_of_sublist {kept : List (Job × Reply)} (hkept : kept.Sublist (w.history jobs))
    (hall : ((w.history jobs).filter goesThrough).Sublist kept) :
    w.history (kept.map Prod.fst) = kept ∧
      (w.proceed (kept.map Prod.fst)).Alike (w.proceed jobs) := by
  refine history_of_filter_eq ⟨rfl, rfl⟩ hkept ((hkept.filter _).antisymm ?_)
  simpa only [List.filter_filter, Bool.and_self] using hall.filter goesThrough

/-- What is to be said of the refusals in a workshop. -/
structure Discreet (w : Workshop) : Prop where
  /-- When a tree refuses a removal or a replacement, and with which error. -/
  refuses : ∀ t ∈ w.trees, ∀ c ∈ w.trees, ∀ g ∈ w.trees, ∀ next, t.Refuses c g next
  /-- The tree is shown as it was, nothing has changed, and nothing is reported. -/
  remove : ∀ x candidate dest t c e, w.forest.tree? x = some t →
    w.forest.tree? candidate = some c → t.remove c = .error e →
    w.forest.step (.remove x candidate dest) = ⟨.removed (.error (.cause e)) t, w.forest, []⟩
  replace : ∀ x candidate graft t c g e, w.forest.tree? x = some t →
    w.forest.tree? candidate = some c → w.forest.tree? graft = some g →
    t.replace c g w.forest.next = .error e →
    w.forest.step (.replace x candidate graft)
      = ⟨.replaced (.error (.cause e)) t, w.forest, []⟩
  /-- A stream that is refused has used up the identities of the nodes it has entered by then. -/
  build : ∀ dest es name reason,
    (w.forest.step (.build dest es name)).answer = .refused reason →
    ∃ read e, Event.Refused es read e ∧ w.forest.step (.build dest es name) =
      ⟨.refused (.cause e), w.forest.advance (w.forest.next.shift (Event.entries read).length), []⟩

theorem Sound.discreet (hw : w.Sound) : w.Discreet where
  refuses _ ht _ hc _ hg := (hw.tree ht).refuses (hw.tree hc) (hw.tree hg)
  remove _ _ _ _ _ _ ht hc he := Forest.step_remove_error ht hc he
  replace _ _ _ _ _ _ _ ht hc hg he := Forest.step_replace_error ht hc hg he
  build _ _ _ _ h := Forest.step_build_refused h

/-- **What is refused leaves no trace.** At the end of every run it is known what will be refused and
that nothing will come of it; and every run goes on as if all or some of the cuts that were
refused in it had never been asked for. -/
theorem run_discreet (jobs : List Job) : (run jobs).Discreet ∧
    ∀ kept : List (Job × Reply), kept.Sublist (bare.history jobs) →
      ((bare.history jobs).filter goesThrough).Sublist kept →
      bare.history (kept.map Prod.fst) = kept ∧
        (run (kept.map Prod.fst)).Alike (run jobs) :=
  ⟨(sound_run jobs).discreet, fun _ hkept hall => history_of_sublist hkept hall⟩

/-- The last of the errands is a refused cut: its candidate, which is not empty, is unknown by then.
Without it the errands come to the same. -/
theorem discreet_errands : ∃ kept sum part,
    kept.Sublist (bare.history errands) ∧ kept.length + 1 = errands.length ∧
    bare.history (kept.map Prod.fst) = kept ∧ (run (kept.map Prod.fst)).Alike (run errands) ∧
    (run errands).forest.tree? "sum" = some sum ∧ (run errands).forest.tree? "part1" = some part ∧
    part.isEmpty = false ∧ sum.Unknown part ∧
    sum.remove part = .error (.notFound part.candidateOrigin) := by
  have hlength : ((bare.history errands).filter goesThrough).length + 1 = errands.length := by
    decide
  have hrefused : ((run errands).forest.tree? "sum").bind (fun sum =>
      ((run errands).forest.tree? "part1").map fun part =>
        decide (part.isEmpty = false) && !(sum.remove part).isOk) = some true := by decide
  obtain ⟨sum, hsum, hrefused⟩ := Option.bind_eq_some_iff.mp hrefused
  obtain ⟨part, hpart, hrefused⟩ := Option.map_eq_some_iff.mp hrefused
  obtain ⟨hdiscreet, hhistory⟩ := run_discreet errands
  obtain ⟨hsame, halike⟩ := hhistory _ List.filter_sublist (List.Sublist.refl _)
  rw [Bool.and_eq_true, decide_eq_true_iff] at hrefused
  have hr := hdiscreet.refuses sum (mem_trees_of_tree? hsum) part (mem_trees_of_tree? hpart) sum
    (mem_trees_of_tree? hsum) ⟨0⟩
  obtain ⟨e, he⟩ : ∃ e, sum.remove part = .error e := by
    cases h : sum.remove part with
    | error e => exact ⟨e, rfl⟩
    | ok r => rw [h] at hrefused; cases hrefused.2
  obtain ⟨hunknown, rfl⟩ := (hr.remove_iff e).mp he
  exact ⟨_, sum, part, List.filter_sublist, hlength, hsame, halike, hsum, hpart, hrefused.1,
    hunknown, he⟩

end Workshop

end SyntaxTree
