/-
SyntaxTree/Proofs/Dot/Escape.lean

Escaped text.  Between double quotes it is one quoted string, whatever the text is, and it can
be decoded without looking for the end of the string: `unescape` knows the three escapes that
are written and refuses everything else that has a backslash or a bare quote in it.

That no quote ends the string is a matter of parity.  An escape that ends with a backslash
consists of two of them, so the backslashes at the end of whole escapes are even in number
(`even_slashes`); a quote is written with one more in front of it (`odd_slashes`).

Escaping a text part by part comes to the same as escaping it at once, except where a cut
goes through a pair that makes one line break.
-/
import Mathlib.Algebra.Ring.Parity
import Mathlib.Data.List.Induction
import SyntaxTree.Proofs.Dot.Label

namespace SyntaxTree.Dot

/-! ### Decoding -/

/-- Decodes the characters of an escaped text from left to right. There is no text for them if they
end within an escape, if an escape is none of the three, or if a quote is not escaped. -/
def unescapeChars : List Char → Option (List Char)
  | [] => some []
  | '\\' :: '\\' :: rest => (unescapeChars rest).map ('\\' :: ·)
  | '\\' :: '"' :: rest => (unescapeChars rest).map ('"' :: ·)
  | '\\' :: 'n' :: rest => (unescapeChars rest).map ('\n' :: ·)
  | c :: rest => if c = '\\' ∨ c = '"' then none else (unescapeChars rest).map (c :: ·)

/-- The text that has been escaped, up to its line breaks. -/
def unescape (text : String) : Option String := (unescapeChars text.toList).map String.ofList

theorem unescapeChars_cons {c : Char} (hslash : c ≠ '\\') (hquote : c ≠ '"') (rest : List Char) :
    unescapeChars (c :: rest) = (unescapeChars rest).map (c :: ·) := by
  rw [unescapeChars.eq_5 _ _ (fun _ h _ => hslash h) (fun _ h _ => hslash h) (fun _ h _ => hslash h),
    if_neg (not_or.mpr ⟨hslash, hquote⟩)]

/-- A character is decoded from its escape. -/
theorem unescapeChars_escapeChar (c : Char) (rest : List Char) :
    unescapeChars (escapeChar c ++ rest) = (unescapeChars rest).map (c :: ·) := by
  rw [escapeChar]
  split
  case isTrue h => subst h; rfl
  case isFalse hslash =>
    split
    case isTrue h => subst h; rfl
    case isFalse hquote =>
      split
      case isTrue h => subst h; rfl
      case isFalse => exact unescapeChars_cons hslash hquote rest

/-- **An escaped text is decoded** up to its line breaks. -/
theorem unescapeChars_escapeChars (cs : List Char) :
    unescapeChars (escapeChars cs) = some (normaliseChars cs) := by
  rw [escapeChars_eq]
  induction normaliseChars cs with
  | nil => rfl
  | cons c ds ih => rw [List.flatMap_cons, unescapeChars_escapeChar, ih, Option.map_some]

theorem unescape_escape (s : String) : unescape (escape s) = some (normalise s) := by
  rw [unescape, escape, String.toList_ofList, unescapeChars_escapeChars]
  rfl

/-! ### Backslashes in a row -/

/-- The number of backslashes at the end. -/
def slashes (cs : List Char) : Nat := (cs.reverse.takeWhile (· = '\\')).length

variable {c : Char} {cs ds l r : List Char}

theorem slashes_concat (cs : List Char) (c : Char) :
    slashes (cs ++ [c]) = if c = '\\' then slashes cs + 1 else 0 := by
  rw [slashes, List.reverse_concat]
  split
  case isTrue h => rw [List.takeWhile_cons_of_pos (by simpa using h), List.length_cons, slashes]
  case isFalse h => rw [List.takeWhile_cons_of_neg (by simpa using h), List.length_nil]

/-- An escape ends with two backslashes or with none. -/
theorem slashes_append_escapeChar (cs : List Char) (c : Char) :
    slashes (cs ++ escapeChar c) = if c = '\\' then slashes cs + 2 else 0 := by
  have hpair : ∀ d, slashes (cs ++ ['\\', d]) = if d = '\\' then slashes cs + 2 else 0 := fun d => by
    rw [List.append_cons, slashes_concat, slashes_concat, if_pos rfl]
  rw [escapeChar]
  split
  case isTrue h => rw [hpair, if_pos rfl]
  case isFalse hslash =>
    split
    case isTrue h => rw [hpair, if_neg (by decide)]
    case isFalse hquote =>
      split
      case isTrue h => rw [hpair, if_neg (by decide)]
      case isFalse => rw [slashes_concat, if_neg hslash]

/-- **Whole escapes end with backslashes in pairs.** -/
theorem even_slashes (ds : List Char) : Even (slashes (ds.flatMap escapeChar)) := by
  induction ds using List.reverseRecOn with
  | nil => exact Even.zero
  | append_singleton ds c ih =>
    rw [List.flatMap_append, List.flatMap_singleton, slashes_append_escapeChar]
    split
    case isTrue => exact ih.add even_two
    case isFalse => exact Even.zero

/-- The only quote in an escape stands behind a single backslash. -/
theorem eq_of_escapeChar_eq (h : escapeChar c = l ++ '"' :: r) : l = ['\\'] := by
  have hpair : ∀ d, ['\\', d] = l ++ '"' :: r → l = ['\\'] := by
    intro d hd
    match l with
    | [] => exact absurd (List.cons.inj hd).1 (by decide)
    | [e] => rw [(List.cons.inj hd).1]
    | e :: f :: l => simp at hd
  rw [escapeChar] at h
  split at h
  case isTrue => exact hpair _ h
  case isFalse =>
    split at h
    case isTrue => exact hpair _ h
    case isFalse hquote =>
      split at h
      case isTrue => exact hpair _ h
      case isFalse =>
        -- a character that is not escaped is no quote
        exact absurd (List.mem_singleton.mp (h ▸ List.mem_append_right l List.mem_cons_self)).symm
          hquote

/-- **A quote is written behind an odd number of backslashes.** -/
theorem odd_slashes (h : ds.flatMap escapeChar = l ++ '"' :: r) : Odd (slashes l) := by
  induction ds using List.reverseRecOn generalizing r with
  | nil => exact absurd h.symm (List.append_ne_nil_of_right_ne_nil l (List.cons_ne_nil _ _))
  | append_singleton ds c ih =>
    rw [List.flatMap_append, List.flatMap_singleton] at h
    rcases List.append_eq_append_iff.mp h with ⟨m, rfl, hc⟩ | ⟨m, hds, hr⟩
    · -- it is the quote of the last escape
      rw [eq_of_escapeChar_eq hc, slashes_concat, if_pos rfl]
      exact (even_slashes ds).add_one
    · cases m with
      | nil => exact absurd (eq_of_escapeChar_eq (l := []) hr.symm) (by simp)
      | cons d m =>
        obtain ⟨rfl, -⟩ := List.cons.inj hr
        exact ih hds

/-! ### Texts in two parts -/

variable {s u x y : String}

theorem escape_return (x : String) : escape (x ++ "\r") = escape x ++ "\\n" :=
  escape_append fun _ => by decide

theorem escape_lineFeed (y : String) : escape ("\n" ++ y) = "\\n" ++ escape y := by
  rw [escape, escape, String.toList_append]
  exact @String.ofList_append ['\\', 'n'] _

/-- A pair that is cut in two is escaped once as a whole. -/
theorem escape_pair (x y : String) :
    escape ((x ++ "\r") ++ ("\n" ++ y)) = escape x ++ "\\n" ++ escape y := by
  have hpair : escape ("\r\n" ++ y) = "\\n" ++ escape y := by
    rw [escape, escape, String.toList_append]
    exact @String.ofList_append ['\\', 'n'] _
  have hjoin : (x ++ "\r") ++ ("\n" ++ y) = x ++ ("\r\n" ++ y) := by
    rw [String.append_assoc, ← @String.append_assoc "\r"]
    rfl
  rw [hjoin, escape_append, hpair, String.append_assoc]
  intro _
  rw [String.toList_append]
  exact fun h => absurd (Option.some.inj h) (by decide)

/-- **Escaping is done part by part**, unless a pair that makes one break is cut in two. -/
theorem escape_append_iff : escape (s ++ u) = escape s ++ escape u ↔
    ¬ ∃ x y, s = x ++ "\r" ∧ u = "\n" ++ y := by
  constructor
  · rintro h ⟨x, y, rfl, rfl⟩
    -- one escape of two characters is missing on the left
    rw [escape_pair, escape_return, escape_lineFeed] at h
    have hlength := congrArg String.length h
    simp only [String.length_append] at hlength
    have htwo : "\\n".length = 2 := rfl
    omega
  · intro h
    refine escape_append fun hs hu => h ?_
    obtain ⟨l, hl⟩ := List.getLast?_eq_some_iff.mp hs
    obtain ⟨m, hm⟩ := List.head?_eq_some_iff.mp hu
    refine ⟨.ofList l, .ofList m, String.toList_inj.mp ?_, String.toList_inj.mp ?_⟩
    · rw [hl, String.toList_append, String.toList_ofList]; rfl
    · rw [hm, String.toList_append, String.toList_ofList (l := m)]; rfl

/-! ### Escaped texts -/

/-- What is to be said of a text that has been escaped. -/
structure Legible (s : String) : Prop where
  /-- It is part of a single line. -/
  notMem : '\n' ∉ (escape s).toList ∧ '\r' ∉ (escape s).toList
  /-- Every quote has an odd number of backslashes in front of it, -/
  odd : ∀ l r, (escape s).toList = l ++ '"' :: r → Odd (slashes l)
  /-- and the quote that ends the string an even number, so that it is not escaped. -/
  even : Even (slashes (escape s).toList)
  /-- Between double quotes it is one quoted string, whatever comes next. -/
  scanQuoted_eq : ∀ rest,
    scanQuoted ((escape s).toList ++ '"' :: rest) = some ((normalise s).toList, rest)
  /-- It is decoded up to its line breaks. -/
  unescape_eq : unescape (escape s) = some (normalise s)

theorem legible (s : String) : Legible s := by
  have hchars : (escape s).toList = (normaliseChars s.toList).flatMap escapeChar := by
    rw [escape, String.toList_ofList, escapeChars_eq]
  refine ⟨?_, fun l r h => odd_slashes (hchars.symm.trans h), ?_, scanQuoted_escape s,
    unescape_escape s⟩
  · rw [escape, String.toList_ofList]
    exact notMem_escapeChars s.toList
  · rw [hchars]
    exact even_slashes _

/-- **Escaping loses nothing but the way in which line breaks are written.** An escaped text is a
quoted string on a single line and can be decoded, and two texts look the same exactly if they
agree up to their line breaks. Two parts of a text are escaped one by one, except where a cut goes
through a pair of a carriage return and a line feed: then there is one break less in the whole. -/
theorem escape_legible : (∀ s, Legible s) ∧
    (∀ s u, escape s = escape u ↔ normalise s = normalise u) ∧
    (∀ s u, escape (s ++ u) = escape s ++ escape u ↔ ¬ ∃ x y, s = x ++ "\r" ∧ u = "\n" ++ y) ∧
    ∀ x y, escape (x ++ "\r") ++ escape ("\n" ++ y) = escape x ++ "\\n" ++ "\\n" ++ escape y ∧
      escape ((x ++ "\r") ++ ("\n" ++ y)) = escape x ++ "\\n" ++ escape y := by
  refine ⟨legible, fun _ _ => escape_eq_iff, fun _ _ => escape_append_iff, fun x y => ⟨?_, ?_⟩⟩
  · rw [escape_return, escape_lineFeed, String.append_assoc, String.append_assoc,
      String.append_assoc]
  · exact escape_pair x y

example : escape "\\n\"\\\"\r\n" = "\\\\n\\\"\\\\\\\"\\n" ∧ unescape "a\\" = none := by decide

end SyntaxTree.Dot
