/-
SyntaxTree/Proofs/Json/Grammar.lean

What JSON text is, said without a reader.  A relation for each kind of part says which
characters write it: `StringText w s` that `w`, with its quotes, is a way to write the string
`s`; `NumeralText w n` that `w` are the characters of the number `n`; `RowText R true w xs` that
`w` may stand between two brackets and writes the items `xs`, each by the relation `R`.

`ValueText limit d w v` puts them together: `w` writes the value `v` with at most `d` brackets open
inside one another, and with no number beyond a limit.  It is a recursion on `d` alone, since what
stands between brackets is a row of values that have one bracket less.

A `Document` is the text of a value with blanks around it.  What the readers make of a text
is stated against this grammar in the files beside this one.
-/
import SyntaxTree.Json.Value

namespace SyntaxTree.Json

/-- Nothing but blanks. -/
def Blanks (cs : List Char) : Prop := ∀ c ∈ cs, isBlank c = true

/-! ### Numbers -/

/-- One or more digits. -/
structure DigitsText (w : List Char) (ds : List Nat) : Prop where
  ne_nil : w ≠ []
  all_isDigit : ∀ c ∈ w, isDigit c = true
  values : w.map digitValue = ds

/-- An optional minus sign. -/
inductive SignText : List Char → Bool → Prop
  | plus : SignText [] false
  | minus : SignText ['-'] true

/-- The digits before the point, of which the first is no superfluous zero. -/
structure WholeText (w : List Char) (ds : List Nat) : Prop where
  digits : DigitsText w ds
  leading : ds.head? = some 0 → ds = [0]

/-- A point with digits after it, or nothing. -/
inductive FractionText : List Char → List Nat → Prop
  | absent : FractionText [] []
  | digits {w : List Char} {ds : List Nat} (h : DigitsText w ds) : FractionText ('.' :: w) ds

/-- A power of ten, or nothing. -/
inductive ExponentText : List Char → Int → Prop
  | absent : ExponentText [] 0
  | bare {e : Char} {w : List Char} {ds : List Nat} (he : e = 'e' ∨ e = 'E')
      (h : DigitsText w ds) : ExponentText (e :: w) (ofDigits ds)
  | plus {e : Char} {w : List Char} {ds : List Nat} (he : e = 'e' ∨ e = 'E')
      (h : DigitsText w ds) : ExponentText (e :: '+' :: w) (ofDigits ds)
  | minus {e : Char} {w : List Char} {ds : List Nat} (he : e = 'e' ∨ e = 'E')
      (h : DigitsText w ds) : ExponentText (e :: '-' :: w) (-(ofDigits ds : Int))

/-- A number: a sign, digits, a fraction and a power of ten. -/
inductive NumeralText : List Char → Numeral → Prop
  | parts {sign whole fraction exponent : List Char} {n : Numeral}
      (hsign : SignText sign n.negative) (hwhole : WholeText whole n.whole)
      (hfraction : FractionText fraction n.fraction)
      (hexponent : ExponentText exponent n.exponent) :
      NumeralText (sign ++ whole ++ fraction ++ exponent) n

/-! ### Strings -/

/-- What stands behind a backslash and a `u`: four hexadecimal digits, which are no half of a pair
by themselves, or both halves of a pair. -/
inductive UnitsText : List Char → Char → Prop
  | single {a b c d : Char} {n : Nat} (h : hexUnit? a b c d = some n)
      (hlow : isLowSurrogate n = false) (hhigh : isHighSurrogate n = false) :
      UnitsText [a, b, c, d] (.ofNat n)
  | pair {a b c d a' b' c' d' : Char} {high low : Nat} (h : hexUnit? a b c d = some high)
      (hhigh : isHighSurrogate high = true) (h' : hexUnit? a' b' c' d' = some low)
      (hlow : isLowSurrogate low = true) :
      UnitsText [a, b, c, d, '\\', 'u', a', b', c', d'] (pairedChar high low)

/-- What stands behind a backslash. -/
inductive EscapeText : List Char → Char → Prop
  | short {letter c : Char} (h : (letter, c) ∈ shortEscapes) : EscapeText [letter] c
  | units {w : List Char} {c : Char} (h : UnitsText w c) : EscapeText ('u' :: w) c

/-- One character inside a string: by itself, if it is no quote, no backslash and not below U+0020,
or by an escape. -/
inductive CharText : List Char → Char → Prop
  | raw {c : Char} (hquote : c ≠ '"') (hslash : c ≠ '\\') (hcontrol : 0x20 ≤ c.toNat) :
      CharText [c] c
  | escape {w : List Char} {c : Char} (h : EscapeText w c) : CharText ('\\' :: w) c

/-- The characters inside a string, one after another. -/
inductive CharsText : List Char → List Char → Prop
  | nil : CharsText [] []
  | cons {w u : List Char} {c : Char} {cs : List Char} (h : CharText w c) (hs : CharsText u cs) :
      CharsText (w ++ u) (c :: cs)

/-- A string between its quotes. -/
inductive StringText : List Char → String → Prop
  | quoted {w : List Char} {s : String} (h : CharsText w s.toList) :
      StringText ('"' :: (w ++ ['"'])) s

/-! ### Values -/

/-- A value without brackets. -/
inductive ScalarText (limit : Numeral → Prop) : List Char → Value → Prop
  | null : ScalarText limit "null".toList .null
  | true : ScalarText limit "true".toList (.bool .true)
  | false : ScalarText limit "false".toList (.bool .false)
  | string {w : List Char} {s : String} (h : StringText w s) : ScalarText limit w (.string s)
  /-- A number counts only if it is within the limit. -/
  | number {w : List Char} {n : Numeral} (h : NumeralText w n) (hn : limit n) :
      ScalarText limit w (.number n)

/-- What stands before an item of a row: blanks, and a comma among them unless it is the first. -/
inductive LeadText : Bool → List Char → Prop
  | first {bs : List Char} (h : Blanks bs) : LeadText .true bs
  | later {bs bs' : List Char} (h : Blanks bs) (h' : Blanks bs') :
      LeadText .false (bs ++ ',' :: bs')

/-- What may stand between two brackets, from the first item or from a later one on: items with
commas between them, and blanks. -/
inductive RowText {α : Type} (R : List Char → α → Prop) : Bool → List Char → List α → Prop
  | done {isFirst : Bool} {bs : List Char} (h : Blanks bs) : RowText R isFirst bs []
  | item {isFirst : Bool} {lead w u : List Char} {x : α} {xs : List α}
      (hlead : LeadText isFirst lead) (hx : R w x) (hxs : RowText R .false u xs) :
      RowText R isFirst (lead ++ (w ++ u)) (x :: xs)

/-- A member: a name, a colon and a value written by `R`. -/
inductive MemberText (R : List Char → Value → Prop) : List Char → String × Value → Prop
  | named {u bs bs' w : List Char} {name : String} {v : Value} (hname : StringText u name)
      (h : Blanks bs) (h' : Blanks bs') (hv : R w v) :
      MemberText R (u ++ (bs ++ ':' :: (bs' ++ w))) (name, v)

/-- A value with brackets around it, inside which values are written by `R`. -/
inductive NestText (R : List Char → Value → Prop) : List Char → Value → Prop
  | array {w : List Char} {vs : List Value} (h : RowText R .true w vs) :
      NestText R ('[' :: (w ++ [']'])) (.array vs)
  | object {w : List Char} {ms : List (String × Value)} (h : RowText (MemberText R) .true w ms) :
      NestText R ('\x7b' :: (w ++ ['\x7d'])) (.object ms)

/-- A value with at most so many brackets open inside one another. -/
def ValueText (limit : Numeral → Prop) : Nat → List Char → Value → Prop
  | 0, w, v => ScalarText limit w v
  | depth + 1, w, v => ScalarText limit w v ∨ NestText (ValueText limit depth) w v

/-- **Strict JSON**: the text of one value, with no more brackets inside one another than may be
open, no number beyond the limit, and nothing around it but blanks. -/
inductive Document (limit : Numeral → Prop) : String → Value → Prop
  | text {bs w bs' : List Char} {s : String} {v : Value} (hs : s.toList = bs ++ (w ++ bs'))
      (h : Blanks bs) (hv : ValueText limit maxNesting w v) (h' : Blanks bs') : Document limit s v

end SyntaxTree.Json
