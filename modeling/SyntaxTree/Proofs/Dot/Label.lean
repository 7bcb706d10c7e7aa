/-
SyntaxTree/Proofs/Dot/Label.lean

Reading labels back.  What stands between double quotes determines the text up to its line
breaks: every break of a text has become the same escape, and so a carriage return, alone
or before a line feed, is read as a line feed (`normalise`).  There is nothing else that a
reader could not tell (`scanQuoted_append`), and no character of a text can end the quoted
string or the line it stands on.
-/
import SyntaxTree.Dot.Label

namespace SyntaxTree.Dot

/-! ### Line breaks -/

/-- The characters of a text with every line break written as a line feed. -/
def normaliseChars : List Char → List Char
  | [] => []
  | '\r' :: '\n' :: rest => '\n' :: normaliseChars rest
  | c :: rest => (if c = '\r' then '\n' else c) :: normaliseChars rest

/-- A text with every line break written as a line feed: every pair of a carriage return and a
line feed, and every carriage return that stands alone. -/
def normalise (text : String) : String := .ofList (normaliseChars text.toList)

/-- A text is normalised part by part, unless a pair that makes one break is cut in two. -/
theorem normaliseChars_append {cs ds : List Char}
    (h : cs.getLast? = some '\r' → ds.head? ≠ some '\n') :
    normaliseChars (cs ++ ds) = normaliseChars cs ++ normaliseChars ds := by
  have htail : ∀ {c rest}, (List.getLast? (c :: rest) = some '\r' → ds.head? ≠ some '\n') →
      rest.getLast? = some '\r' → ds.head? ≠ some '\n' := fun h hrest => h (by
    rw [List.getLast?_cons, hrest, Option.getD_some])
  induction cs using normaliseChars.induct with
  | case1 => rfl
  | case2 rest ih =>
    rw [List.cons_append, List.cons_append, normaliseChars, normaliseChars, ih (htail (htail h))]
    rfl
  | case3 c rest hpair ih =>
    have hpair' : ∀ rest', c = '\r' → rest ++ ds = '\n' :: rest' → False := by
      rintro rest' rfl hrest
      cases rest with
      | nil => exact h rfl (by rw [show ds = '\n' :: rest' from hrest]; rfl)
      | cons d rest =>
        obtain ⟨rfl, -⟩ := List.cons.inj hrest
        exact hpair rest rfl rfl
    rw [List.cons_append, normaliseChars.eq_3 _ _ hpair', normaliseChars.eq_3 _ _ hpair,
      ih (htail h)]
    rfl

/-- No carriage return is left. -/
theorem notMem_normaliseChars (cs : List Char) : '\r' ∉ normaliseChars cs := by
  induction cs using normaliseChars.induct with
  | case1 => exact List.not_mem_nil
  | case2 rest ih =>
    rw [normaliseChars]
    exact fun h => (List.mem_cons.mp h).elim (by decide) ih
  | case3 c rest hpair ih =>
    rw [normaliseChars.eq_3 _ _ hpair]
    intro h
    rcases List.mem_cons.mp h with h | h
    · split at h
      case isTrue => exact absurd h (by decide)
      case isFalse hc => exact hc h.symm
    · exact ih h

/-! ### Escapes -/

/-- How a character that is not a carriage return stands between double quotes. -/
def escapeChar (c : Char) : List Char :=
  if c = '\\' then ['\\', '\\'] else if c = '"' then ['\\', '"']
  else if c = '\n' then ['\\', 'n'] else [c]

/-- **Escaping** is writing all line breaks in one way, and then escaping each character. -/
theorem escapeChars_eq (cs : List Char) :
    escapeChars cs = (normaliseChars cs).flatMap escapeChar := by
  induction cs using normaliseChars.induct with
  | case1 => rfl
  | case2 rest ih =>
    rw [escapeChars, normaliseChars, List.flatMap_cons, ← ih]
    rfl
  | case3 c rest hpair ih =>
    rw [escapeChars.eq_3 _ _ hpair, normaliseChars.eq_3 _ _ hpair, List.flatMap_cons, ← ih]
    by_cases hr : c = '\r'
    · subst hr
      rfl
    · simp only [hr, or_false, if_false, escapeChar]
      split
      · rfl
      · split
        · rfl
        · split
          · rfl
          · rfl

/-- Texts are escaped one by one, where no break runs over from one to the other. -/
theorem escape_append {s u : String}
    (h : s.toList.getLast? = some '\r' → u.toList.head? ≠ some '\n') :
    escape (s ++ u) = escape s ++ escape u := by
  rw [escape, String.toList_append, escapeChars_eq, normaliseChars_append h, List.flatMap_append,
    ← escapeChars_eq, ← escapeChars_eq, String.ofList_append]
  rfl

/-- The label of a node is escaped as one text. -/
theorem escape_label (rule label : String) :
    escape (rule ++ ": " ++ label) = escape rule ++ ": " ++ escape label := by
  have hcolon : (": " ++ label).toList.head? ≠ some '\n' := by
    rw [String.toList_append]
    exact fun h => absurd (Option.some.inj h) (by decide)
  have hrest : escape (": " ++ label) = ": " ++ escape label := by
    rw [escape, String.toList_append, escape]
    show String.ofList ([':', ' '] ++ escapeChars label.toList) = _
    rw [String.ofList_append]
  rw [String.append_assoc, escape_append fun _ => hcolon, hrest, String.append_assoc]

/-- An escaped text has no line break in it. -/
theorem notMem_escapeChars (cs : List Char) : '\n' ∉ escapeChars cs ∧ '\r' ∉ escapeChars cs := by
  have hchar : ∀ c, '\n' ∉ escapeChar c ∧ ('\r' ∈ escapeChar c → c = '\r') := by
    intro c
    rw [escapeChar]
    split
    · exact ⟨by decide, fun h => absurd h (by decide)⟩
    · split
      · exact ⟨by decide, fun h => absurd h (by decide)⟩
      · split
        · exact ⟨by decide, fun h => absurd h (by decide)⟩
        · next hn => exact ⟨fun h => hn (List.mem_singleton.mp h).symm,
            fun h => (List.mem_singleton.mp h).symm⟩
  rw [escapeChars_eq]
  constructor
  · intro h
    obtain ⟨c, -, hc⟩ := List.mem_flatMap.mp h
    exact (hchar c).1 hc
  · intro h
    obtain ⟨c, hmem, hc⟩ := List.mem_flatMap.mp h
    exact notMem_normaliseChars cs ((hchar c).2 hc ▸ hmem)

/-! ### Quoted strings -/

/-- What is written by a backslash and a character. -/
def unescapeChar (c : Char) : Char := if c = 'n' then '\n' else c

/-- The text of a quoted string, up to the quote that ends it, and what follows. -/
def scanQuoted : List Char → Option (List Char × List Char)
  | [] => none
  | '"' :: rest => some ([], rest)
  | '\\' :: c :: rest => (scanQuoted rest).map fun p => (unescapeChar c :: p.1, p.2)
  | c :: rest => (scanQuoted rest).map fun p => (c :: p.1, p.2)

theorem scanQuoted_cons {c : Char} (hquote : c ≠ '"') (hslash : c ≠ '\\') (rest : List Char) :
    scanQuoted (c :: rest) = (scanQuoted rest).map fun p => (c :: p.1, p.2) :=
  scanQuoted.eq_4 _ _ (fun h => hquote h) fun _ _ h _ => hslash h

/-- A character is read back from its escape. -/
theorem scanQuoted_escapeChar (c : Char) (rest : List Char) :
    scanQuoted (escapeChar c ++ rest) = (scanQuoted rest).map fun p => (c :: p.1, p.2) := by
  rw [escapeChar]
  split
  case isTrue h => subst h; rfl
  case isFalse hslash =>
    split
    case isTrue h => subst h; rfl
    case isFalse hquote =>
      split
      case isTrue h => subst h; rfl
      case isFalse => exact scanQuoted_cons hquote hslash rest

/-- **An escaped text is read back** up to its line breaks, whatever follows it. -/
theorem scanQuoted_append (cs rest : List Char) :
    scanQuoted (escapeChars cs ++ rest) =
      (scanQuoted rest).map fun p => (normaliseChars cs ++ p.1, p.2) := by
  rw [escapeChars_eq]
  induction normaliseChars cs with
  | nil => exact (congrFun Option.map_id (scanQuoted rest)).symm
  | cons c ds ih =>
    rw [List.flatMap_cons, List.append_assoc, scanQuoted_escapeChar, ih, Option.map_map]
    rfl

/-- A text between double quotes is read back up to its line breaks. -/
theorem scanQuoted_escape (s : String) (rest : List Char) :
    scanQuoted ((escape s).toList ++ '"' :: rest) = some ((normalise s).toList, rest) := by
  rw [escape, String.toList_ofList, scanQuoted_append, normalise, String.toList_ofList]
  show some (normaliseChars s.toList ++ [], rest) = _
  rw [List.append_nil]

/-- **Two texts look the same in a label** exactly if they agree up to their line breaks. -/
theorem escape_eq_iff {s u : String} : escape s = escape u ↔ normalise s = normalise u := by
  constructor
  · intro h
    have hs := scanQuoted_escape s []
    rw [h, scanQuoted_escape] at hs
    exact (String.toList_inj.mp (congrArg Prod.fst (Option.some.inj hs))).symm
  · intro h
    have hchars : normaliseChars s.toList = normaliseChars u.toList := by
      rw [normalise, normalise, String.ofList_inj] at h
      exact h
    rw [escape, escape, escapeChars_eq, escapeChars_eq, hchars]

example : escape "a\r\nb\rc\n" = escape "a\nb\nc\n" ∧ escape "a\rb" ≠ escape "ab" := by decide

end SyntaxTree.Dot
