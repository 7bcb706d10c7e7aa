/-
SyntaxTree/Proofs/Dot/Sink.lean

Writing that stops.  A graph goes into a sink line by line, and ends with the first character
that the sink refuses; how the text is cut into pieces on the way makes no difference
(`Sink.writeAll_congr`).  A page with room for a number of lines is a sink that refuses the
first character of the line after these: it takes whole lines only, and as no text within a
graph breaks a line, these are the first lines of the graph (`write_page`).
-/
import SyntaxTree.Dot.Sink
import SyntaxTree.Proofs.Dot.Graph

namespace SyntaxTree.Dot

/-! ### Any sink -/

namespace Sink

variable {σ : Type} {sink : Sink σ} {s : σ} {t : Tree} {style : Style}

/-- What follows is written only if all that came before was taken. -/
theorem writeChars_append (sink : Sink σ) (s : σ) (cs ds : List Char) :
    sink.writeChars s (cs ++ ds) = match sink.writeChars s cs with
      | (s', true) => sink.writeChars s' ds
      | (s', false) => (s', false) := by
  induction cs generalizing s with
  | nil => rfl
  | cons c cs ih =>
    rw [List.cons_append, writeChars, writeChars]
    cases sink.put s c with
    | none => rfl
    | some s' => exact ih s'

/-- **Texts are written** as their characters are, up to the first that is refused. -/
theorem writeAll_eq (sink : Sink σ) (s : σ) (texts : List String) :
    sink.writeAll s texts = sink.writeChars s (String.join texts).toList := by
  induction texts generalizing s with
  | nil => rfl
  | cons text texts ih =>
    rw [String.join_cons, String.toList_append, writeChars_append, writeAll]
    rcases sink.writeChars s text.toList with ⟨s', _ | _⟩
    · rfl
    · exact ih s'

/-- It does not matter how a text is cut into pieces. -/
theorem writeAll_congr {texts pieces : List String} (h : String.join pieces = String.join texts) :
    sink.writeAll s pieces = sink.writeAll s texts := by
  rw [writeAll_eq, writeAll_eq, h]

/-! ### Loops -/

/-- What becomes of an action that has written something: it goes on, or it fails, and the sink is
left as it is. -/
def outcome (r : σ × Bool) : Option Unit × σ := (if r.2 then some () else none, r.1)

/-- Writes the line of a statement, and fails if a character of it is refused. -/
def print (sink : Sink σ) (a : Statement) : OptionT (StateM σ) Unit :=
  OptionT.mk fun s => outcome (sink.writeChars s (a.text ++ "\n").toList)

/-- Writes a graph statement by statement: its head, a loop over the nodes, a loop over the children
of each node, and the closing brace. -/
def draw (sink : Sink σ) (t : Tree) (style : Style) : OptionT (StateM σ) Unit := do
  sink.print (.opening style.graphName)
  sink.print (.nodeFont style.fontName style.nodeFontSize)
  sink.print (.edgeFont style.fontName style.edgeFontSize)
  forM t.nodeList fun n => sink.print (.node n.id n.rule n.label)
  forM t.nodeList fun n => forM n.children fun c => sink.print (.edge n.id c)
  sink.print .closing

theorem forM_flatMap {m : Type → Type} [Monad m] [LawfulMonad m] {α β : Type} (as : List α)
    (f : α → List β) (g : β → m PUnit) :
    forM (as.flatMap f) g = forM as fun a => forM (f a) g := by
  induction as with
  | nil => rfl
  | cons a as ih => rw [List.flatMap_cons, List.forM_append, List.forM_cons, ih]

/-- The loops go over the statements of the graph. -/
theorem draw_eq (sink : Sink σ) (t : Tree) (style : Style) :
    sink.draw t style = forM (statements t style) sink.print := by
  simp only [draw, statements, List.forM_append, List.forM_cons, List.forM_nil, List.forM_map,
    forM_flatMap, bind_assoc, bind_pure_unit]

/-- **Drawing is writing**: the loops stop where a character is refused, and leave the sink in the
same state. -/
theorem run_draw (sink : Sink σ) (s : σ) (t : Tree) (style : Style) :
    (sink.draw t style).run.run s = outcome (write sink s t style) := by
  rw [draw_eq, write, lines]
  induction statements t style generalizing s with
  | nil => rfl
  | cons a as ih =>
    have hprint : (sink.print a).run.run s
        = outcome (sink.writeChars s (a.text ++ "\n").toList) := rfl
    rw [List.forM_cons, OptionT.run_bind, Option.elimM, StateT.run_bind, hprint, List.map_cons,
      writeAll]
    rcases sink.writeChars s (a.text ++ "\n").toList with ⟨s', _ | _⟩
    · rfl
    · exact ih s'

end Sink

/-! ### Pages -/

/-- The text is one line and ends with its line feed. -/
def IsLine (text : String) : Prop := ∃ l : List Char, '\n' ∉ l ∧ text.toList = l ++ ['\n']

/-- The lines of a text, each with the line feed that ends it. -/
def linesOf (text : String) : List String :=
  (text.toList.splitOn '\n').dropLast.map fun l => .ofList (l ++ ['\n'])

namespace Page

variable {texts : List String}

/-- A page with room for a line takes all of it. -/
theorem writeChars_line {l : List Char} (hl : '\n' ∉ l) (written : List Char) (room : Nat) :
    sink.writeChars ⟨written, room + 1⟩ (l ++ ['\n'])
      = (⟨(l ++ ['\n']).reverse ++ written, room⟩, true) := by
  induction l generalizing written with
  | nil => rfl
  | cons c l ih =>
    have hc : c ≠ '\n' := fun e => hl (e ▸ List.mem_cons_self)
    have hput : sink.put ⟨written, room + 1⟩ c = some ⟨c :: written, room + 1⟩ := by
      show some (Page.mk _ (if c = '\n' then room else room + 1)) = _
      rw [if_neg hc]
    rw [List.cons_append, Sink.writeChars, hput]
    show sink.writeChars ⟨c :: written, room + 1⟩ (l ++ ['\n']) = _
    rw [ih (fun h => hl (List.mem_cons_of_mem c h)), List.reverse_cons, List.append_assoc]
    rfl

/-- **A page takes as many lines as it has room for**, and no part of the next. -/
theorem writeAll_lines (h : ∀ x ∈ texts, IsLine x) (p : Page) :
    sink.writeAll p texts =
      (⟨(String.join (texts.take p.room)).toList.reverse ++ p.written, p.room - texts.length⟩,
        decide (texts.length ≤ p.room)) := by
  induction texts generalizing p with
  | nil => simp [Sink.writeAll]
  | cons x texts ih =>
    obtain ⟨written, room⟩ := p
    obtain ⟨l, hl, hx⟩ := h x List.mem_cons_self
    cases room with
    | zero =>
      -- the first character of the line is refused
      have hne : l ++ ['\n'] ≠ [] := List.append_ne_nil_of_right_ne_nil l (List.cons_ne_nil _ _)
      obtain ⟨c, cs, hcs⟩ := List.exists_cons_of_ne_nil hne
      rw [Sink.writeAll, hx, hcs]
      simp [Sink.writeChars, sink]
    | succ room =>
      rw [Sink.writeAll, hx, writeChars_line hl]
      show sink.writeAll _ texts = _
      rw [ih fun y hy => h y (List.mem_cons_of_mem x hy)]
      simp [hx]

end Page

/-! ### Graphs on pages -/

variable {t : Tree} {style : Style}

theorem isLine_of_mem_lines {x : String} (hx : x ∈ lines t style) : IsLine x := by
  obtain ⟨a, -, rfl⟩ := List.mem_map.mp hx
  exact ⟨a.text.toList, a.notMem_text, String.toList_append⟩

/-- **The lines of a graph's text** are those of its statements: no text within them breaks a line. -/
theorem linesOf_render (t : Tree) (style : Style) : linesOf (render t style) = lines t style := by
  have hlines : ∀ l ∈ (statements t style).map (fun a => a.text.toList), '\n' ∉ l := by
    intro l hl
    obtain ⟨a, -, rfl⟩ := List.mem_map.mp hl
    exact a.notMem_text
  rw [linesOf, toList_render, splitOn_lines hlines, List.dropLast_concat, List.map_map, lines]
  refine List.map_congr_left fun a _ => String.toList_inj.mp ?_
  rw [String.toList_append]
  exact String.toList_ofList

/-- **A graph on a page** that has room for `n` lines.  The page shows the first `n` lines of the
graph's text, or all of it if there are no more; writing succeeds if all of it is there.  This is
so however the text is cut into pieces, and if it is written in loops over nodes and children. -/
theorem write_page (t : Tree) (style : Style) (n : Nat) :
    (write Page.sink (.blank n) t style).1.text =
      String.join ((linesOf (render t style)).take (min n (linesOf (render t style)).length)) ∧
    ((write Page.sink (.blank n) t style).2 = true ↔ (linesOf (render t style)).length ≤ n) ∧
    String.join (linesOf (render t style)) = render t style ∧
    (∀ pieces, String.join pieces = render t style →
      Page.sink.writeAll (.blank n) pieces = write Page.sink (.blank n) t style) ∧
    (Page.sink.draw t style).run.run (.blank n)
      = Sink.outcome (write Page.sink (.blank n) t style) := by
  have hlines : ∀ x ∈ lines t style, IsLine x := fun x => isLine_of_mem_lines
  have hwrite := Page.writeAll_lines hlines (.blank n)
  rw [linesOf_render]
  refine ⟨?_, ?_, rfl, fun pieces => Sink.writeAll_congr, Sink.run_draw _ _ t style⟩
  · rw [write, hwrite, Page.text, ← List.take_eq_take_min]
    show String.ofList ((String.join ((lines t style).take n)).toList.reverse ++ []).reverse = _
    rw [List.append_nil, List.reverse_reverse, String.ofList_toList]
  · rw [write, hwrite]
    exact decide_eq_true_iff

example : (write Page.sink (.blank 1) (.leaf ⟨1⟩ "a" "\n") (.named "\r\n")).1.text
      = "digraph \"\\n\" \x7b\n" ∧
    (write Page.sink (.blank 4) (.leaf ⟨1⟩ "a" "\n") (.named "\r\n")).2 = false := by decide +kernel

end SyntaxTree.Dot
