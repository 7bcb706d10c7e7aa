/-
SyntaxTree/Proofs/Dot/Graph.lean

Reading graphs back.  The text of a graph is read line by line, and each line by what it
begins with; nothing is needed for this but the text (`decode`).  What comes out is what a
graph is about: the settings of its head, the labels of the nodes and the edges, all in
order, and all texts up to their line breaks (`decode_render`).

What the edges of a tree's graph are is a matter of the tree: on a well-formed one, every
node but the root has a single edge to it, from its parent (`edges_perm`).
-/
import SyntaxTree.Dot.Graph
import SyntaxTree.Proofs.Dot.Label
import SyntaxTree.Proofs.Workshop

namespace SyntaxTree.Dot

/-! ### Scanners -/

/-- Reads a part of a line from its characters, and leaves what follows it. -/
abbrev Scanner (α : Type) := StateT (List Char) Option α

namespace Scanner

/-- Certain words. -/
def literal (w : String) : Scanner Unit := fun cs => (cs.dropPrefix? w.toList).map fun rest => ((), rest)

/-- A number, as long as the digits go on. -/
def number : Scanner Nat := fun cs =>
  if cs.takeWhile Char.isDigit = [] then none
  else some (Nat.ofDigitChars 10 (cs.takeWhile Char.isDigit) 0, cs.dropWhile Char.isDigit)

/-- A text up to the double quote that ends it. -/
def quoted : Scanner String := fun cs => (scanQuoted cs).map fun p => (.ofList p.1, p.2)

variable {α β : Type} {p q : Scanner α} {f : α → Scanner β} {a : α} {cs rest : List Char}

theorem bind_of_some (h : p cs = some (a, rest)) : (p >>= f) cs = f a rest := by
  show (p cs >>= fun r => f r.1 r.2) = _
  rw [h]
  rfl

theorem orElse_of_some {r : α × List Char} (h : p cs = some r) : (p <|> q) cs = some r := by
  show (p cs <|> q cs) = _
  rw [h]
  rfl

theorem orElse_of_none (h : p cs = none) : (p <|> q) cs = q cs := by
  show (p cs <|> q cs) = _
  rw [h]
  rfl

theorem literal_append (w : String) (rest : List Char) :
    literal w (w.toList ++ rest) = some ((), rest) := by
  have h : (w.toList ++ rest).dropPrefix? w.toList = some rest :=
    List.dropPrefix?_eq_some_iff.mpr ⟨_, rfl, beq_self_eq_true _⟩
  rw [literal, h]
  rfl

theorem toList_toString (n : Nat) : (toString n).toList = Nat.toDigits 10 n := by
  rw [Nat.toString_eq_repr, Nat.repr_eq_ofList_toDigits, String.toList_ofList]

theorem isDigit_of_mem_toString {n : Nat} {c : Char} (h : c ∈ (toString n).toList) :
    c.isDigit = true := by
  rw [toList_toString] at h
  exact Nat.isDigit_of_mem_toDigits (by decide) (by decide) h

/-- A number is read back where no digit follows it. -/
theorem number_append (n : Nat) (hrest : rest.head?.any Char.isDigit = false) :
    number ((toString n).toList ++ rest) = some (n, rest) := by
  have hdigits : ∀ d ∈ Nat.toDigits 10 n, d.isDigit = true := fun d hd =>
    isDigit_of_mem_toString (toList_toString n ▸ hd)
  have hstop : rest.takeWhile Char.isDigit = [] ∧ rest.dropWhile Char.isDigit = rest := by
    cases rest with
    | nil => exact ⟨rfl, rfl⟩
    | cons c rest =>
      have hc : ¬ c.isDigit = true := Bool.eq_false_iff.mp hrest
      exact ⟨List.takeWhile_cons_of_neg hc, List.dropWhile_cons_of_neg hc⟩
  have htake : ((toString n).toList ++ rest).takeWhile Char.isDigit = Nat.toDigits 10 n := by
    rw [toList_toString, List.takeWhile_append_of_pos hdigits, hstop.1, List.append_nil]
  have hdrop : ((toString n).toList ++ rest).dropWhile Char.isDigit = rest := by
    rw [toList_toString, List.dropWhile_append_of_pos hdigits, hstop.2]
  rw [number, htake, hdrop, if_neg Nat.toDigits_ne_nil,
    Nat.ofDigitChars_toDigits (by decide) (by decide)]

theorem quoted_escape (s : String) (rest : List Char) :
    quoted ((escape s).toList ++ '"' :: rest) = some (normalise s, rest) := by
  rw [quoted, scanQuoted_escape, Option.map_some, String.ofList_toList]

end Scanner

open Scanner

/-! ### Lines -/

/-- What a line of a graph tells; a text is told up to its line breaks. -/
inductive Entry where
  | graph (name : String)
  | nodeFont (name : String) (size : Nat)
  | edgeFont (name : String) (size : Nat)
  | node (id : NodeId) (text : String)
  | edge (source target : NodeId)
  | closing
deriving DecidableEq, Repr

/-- What a statement tells. -/
def Statement.entry : Statement → Entry
  | .opening name => .graph (normalise name)
  | .nodeFont name size => .nodeFont (normalise name) size
  | .edgeFont name size => .edgeFont (normalise name) size
  | .node id rule label => .node id (normalise (rule ++ ": " ++ label))
  | .edge source target => .edge source target
  | .closing => .closing

namespace Entry

/-- The font that nodes or edges are set in. -/
def scanFont (make : String → Nat → Entry) : Scanner Entry := do
  literal " [fontname=\""
  let name ← quoted
  literal ",fontsize="
  let size ← number
  literal "];"
  return make name size

/-- What follows the number of a node. -/
def scanVertex (id : NodeId) : Scanner Entry :=
  (do literal " [label=\""
      let text ← quoted
      literal "];"
      return .node id text)
  <|> (do
      literal " -> "
      let target ← number
      literal ";"
      return .edge id ⟨target⟩)

/-- A line within the braces, from behind its indentation. -/
def scanInner : Scanner Entry :=
  (do let id ← number
      scanVertex ⟨id⟩)
  <|> (do literal "node"; scanFont .nodeFont)
  <|> (do literal "edge"; scanFont .edgeFont)

/-- A line of a graph. -/
def scan : Scanner Entry :=
  (do literal "  "; scanInner)
  <|> (do
      literal "digraph \""
      let name ← quoted
      literal " \x7b"
      return .graph name)
  <|> (do literal "\x7d"; return .closing)

/-- The entry that a whole line tells. -/
def ofLine (line : List Char) : Option Entry :=
  match scan line with
  | some (e, []) => some e
  | _ => none

/-! ### Every statement is read back -/

variable {name : String} {size : Nat} {line : List Char}

theorem scanFont_text (make : String → Nat → Entry) (name : String) (size : Nat) :
    scanFont make (" [fontname=\"".toList ++ ((escape name).toList ++ '"' ::
      (",fontsize=".toList ++ ((toString size).toList ++ "];".toList)))) =
      some (make (normalise name) size, []) := by
  rw [scanFont, bind_of_some (literal_append _ _), bind_of_some (quoted_escape _ _),
    bind_of_some (literal_append _ _)]
  rw [bind_of_some (number_append size rfl)]
  rfl

/-- The characters of a font, with the quote that ends its name set off. -/
theorem toList_fontText (name : String) (size : Nat) : (fontText name size).toList =
    "[fontname=\"".toList ++ ((escape name).toList ++ '"' ::
      (",fontsize=".toList ++ ((toString size).toList ++ "];".toList))) := by
  simp only [fontText, String.toList_append, List.append_assoc]
  rfl

/-- A line within the braces is read from behind its indentation. -/
theorem scan_inner {e : Entry} (h : scanInner line = some (e, [])) :
    scan ("  ".toList ++ line) = some (e, []) := by
  refine orElse_of_some ?_
  rw [bind_of_some (literal_append _ _)]
  exact h

theorem scan_nodeFont (name : String) (size : Nat) :
    scan (Statement.nodeFont name size).text.toList = some (.nodeFont (normalise name) size, []) := by
  have htext : (Statement.nodeFont name size).text.toList =
      "  ".toList ++ ("node".toList ++ (' ' :: (fontText name size).toList)) := by
    rw [Statement.text, String.toList_append]
    rfl
  rw [htext, toList_fontText]
  refine scan_inner ?_
  rw [scanInner, orElse_of_none rfl, orElse_of_some]
  rw [bind_of_some (literal_append _ _)]
  exact scanFont_text .nodeFont name size

theorem scan_edgeFont (name : String) (size : Nat) :
    scan (Statement.edgeFont name size).text.toList = some (.edgeFont (normalise name) size, []) := by
  have htext : (Statement.edgeFont name size).text.toList =
      "  ".toList ++ ("edge".toList ++ (' ' :: (fontText name size).toList)) := by
    rw [Statement.text, String.toList_append]
    rfl
  rw [htext, toList_fontText]
  refine scan_inner ?_
  rw [scanInner, orElse_of_none rfl, orElse_of_none rfl]
  rw [bind_of_some (literal_append _ _)]
  exact scanFont_text .edgeFont name size

theorem scan_opening (name : String) :
    scan (Statement.opening name).text.toList = some (.graph (normalise name), []) := by
  have htext : (Statement.opening name).text.toList =
      "digraph \"".toList ++ ((escape name).toList ++ '"' :: " \x7b".toList) := by
    simp only [Statement.text, String.toList_append, List.append_assoc]
    rfl
  rw [htext, scan, orElse_of_none rfl, orElse_of_some]
  rw [bind_of_some (literal_append _ _), bind_of_some (quoted_escape _ _)]
  rfl

theorem scan_node (id : NodeId) (rule label : String) :
    scan (Statement.node id rule label).text.toList =
      some (.node id (normalise (rule ++ ": " ++ label)), []) := by
  have htext : (Statement.node id rule label).text.toList =
      "  ".toList ++ ((toString id.val).toList ++ (" [label=\"".toList ++
        ((escape (rule ++ ": " ++ label)).toList ++ '"' :: "];".toList))) := by
    rw [escape_label]
    simp only [Statement.text, String.toList_append, List.append_assoc]
    rfl
  rw [htext]
  refine scan_inner ?_
  rw [scanInner, orElse_of_some]
  rw [bind_of_some (number_append id.val rfl), scanVertex, orElse_of_some]
  rw [bind_of_some (literal_append _ _), bind_of_some (quoted_escape _ _)]
  rfl

theorem scan_edge (source target : NodeId) :
    scan (Statement.edge source target).text.toList = some (.edge source target, []) := by
  have htext : (Statement.edge source target).text.toList =
      "  ".toList ++ ((toString source.val).toList ++ (" -> ".toList ++
        ((toString target.val).toList ++ ";".toList))) := by
    simp only [Statement.text, String.toList_append, List.append_assoc]
    rfl
  rw [htext]
  refine scan_inner ?_
  rw [scanInner, orElse_of_some]
  rw [bind_of_some (number_append source.val rfl), scanVertex, orElse_of_none rfl]
  rw [bind_of_some (literal_append _ _), bind_of_some (number_append target.val rfl)]
  rfl

/-- **Every statement is read back** from its line. -/
theorem ofLine_text (s : Statement) : ofLine s.text.toList = some s.entry := by
  have hscan : scan s.text.toList = some (s.entry, []) := by
    cases s with
    | opening name => exact scan_opening name
    | nodeFont name size => exact scan_nodeFont name size
    | edgeFont name size => exact scan_edgeFont name size
    | node id rule label => exact scan_node id rule label
    | edge source target => exact scan_edge source target
    | closing => rfl
  rw [ofLine, hscan]

end Entry

/-- No statement has a line feed in it, whatever its texts are. -/
theorem Statement.notMem_text (s : Statement) : '\n' ∉ s.text.toList := by
  have hescape : ∀ name, '\n' ∉ (escape name).toList := fun name => by
    rw [escape, String.toList_ofList]
    exact (notMem_escapeChars name.toList).1
  have hnumber : ∀ n : Nat, '\n' ∉ (toString n).toList := fun n h =>
    absurd (isDigit_of_mem_toString h) (by decide)
  cases s with
  | closing => decide
  | _ =>
    simp only [Statement.text, fontText, NodeId.text, String.toList_append, List.mem_append, not_or,
      hescape, hnumber]
    decide

/-! ### Whole graphs -/

/-- What a graph is about. -/
structure Content where
  graphName : String
  fontName : String
  nodeFontSize : Nat
  edgeFontSize : Nat
  /-- The nodes with their labels. -/
  nodes : List (NodeId × String)
  /-- The edges, from parent to child. -/
  edges : List (NodeId × NodeId)
deriving DecidableEq, Repr

/-- The node that a line declares. -/
def Entry.node? : Entry → Option (NodeId × String)
  | .node id text => some (id, text)
  | _ => none

/-- The edge that a line draws. -/
def Entry.edge? : Entry → Option (NodeId × NodeId)
  | .edge source target => some (source, target)
  | _ => none

/-- What the lines of a graph tell, if they begin with its head. -/
def contentOf : List Entry → Option Content
  | .graph name :: .nodeFont font nodeSize :: .edgeFont _ edgeSize :: rest =>
    some ⟨name, font, nodeSize, edgeSize, rest.filterMap Entry.node?, rest.filterMap Entry.edge?⟩
  | _ => none

/-- What a text tells when it is read as a graph; each of its lines ends with a line feed. -/
def decode (text : String) : Option Content :=
  ((text.toList.splitOn '\n').dropLast.mapM Entry.ofLine).bind contentOf

/-- The edges of a tree: from every node to its children, from left to right. -/
def edgesOf (t : Tree) : List (NodeId × NodeId) :=
  t.nodeList.flatMap fun n => n.children.map fun c => (n.id, c)

/-- What the graph of a tree is about, up to the line breaks of texts. -/
def content (t : Tree) (style : Style) : Content where
  graphName := normalise style.graphName
  fontName := normalise style.fontName
  nodeFontSize := style.nodeFontSize
  edgeFontSize := style.edgeFontSize
  nodes := t.nodeList.map fun n => (n.id, normalise (n.rule ++ ": " ++ n.label))
  edges := edgesOf t

variable {t : Tree} {style : Style}

theorem mapM_ofLine (ss : List Statement) :
    (ss.map fun s => s.text.toList).mapM Entry.ofLine = some (ss.map Statement.entry) := by
  induction ss with
  | nil => rfl
  | cons s ss ih =>
    rw [List.map_cons, List.mapM_cons, Entry.ofLine_text, ih]
    rfl

/-- The entries of the nodes tell of nodes and of no edges, -/
theorem filterMap_nodeEntries (ns : List Node) (label : Node → String) :
    (ns.map fun n => Entry.node n.id (label n)).filterMap Entry.node?
        = ns.map (fun n => (n.id, label n)) ∧
      (ns.map fun n => Entry.node n.id (label n)).filterMap Entry.edge? = [] := by
  rw [List.filterMap_map, List.filterMap_map, List.filterMap_eq_nil_iff]
  exact ⟨List.filterMap_eq_map_iff_forall_eq_some.mpr fun _ _ => rfl, fun _ _ => rfl⟩

/-- and those of the edges the other way round. -/
theorem filterMap_edgeEntries (es : List (NodeId × NodeId)) :
    (es.map fun e => Entry.edge e.1 e.2).filterMap Entry.node? = [] ∧
      (es.map fun e => Entry.edge e.1 e.2).filterMap Entry.edge? = es := by
  rw [List.filterMap_map, List.filterMap_map, List.filterMap_eq_nil_iff]
  exact ⟨fun _ _ => rfl, filterMap_eq_self fun _ _ => rfl⟩

/-- The statements tell what the graph is about. -/
theorem contentOf_statements (t : Tree) (style : Style) :
    contentOf ((statements t style).map Statement.entry) = some (content t style) := by
  let label : Node → String := fun n => normalise (n.rule ++ ": " ++ n.label)
  have hstatements : (statements t style).map Statement.entry =
      .graph (normalise style.graphName) ::
      .nodeFont (normalise style.fontName) style.nodeFontSize ::
      .edgeFont (normalise style.fontName) style.edgeFontSize ::
      (t.nodeList.map (fun n => .node n.id (label n)) ++
        ((edgesOf t).map (fun e => .edge e.1 e.2) ++ [.closing])) := by
    simp only [statements, edgesOf, List.map_append, List.map_map, List.map_flatMap,
      List.append_assoc]
    rfl
  obtain ⟨hnodes, hnone⟩ := filterMap_nodeEntries t.nodeList label
  obtain ⟨hnone', hedges⟩ := filterMap_edgeEntries (edgesOf t)
  rw [hstatements, contentOf]
  simp only [List.filterMap_append, hnodes, hnone, hnone', hedges]
  show some (Content.mk _ _ _ _ (_ ++ []) (edgesOf t ++ [])) = _
  rw [List.append_nil, List.append_nil]
  rfl

/-- Lines that end with a line feed are found where they end. -/
theorem splitOn_lines {ls : List (List Char)} (h : ∀ l ∈ ls, '\n' ∉ l) :
    (ls.flatMap fun l => l ++ ['\n']).splitOn '\n' = ls ++ [[]] := by
  have hjoin : ∀ ls : List (List Char),
      ls.flatMap (fun l => l ++ ['\n']) = ['\n'].intercalate (ls ++ [[]]) := by
    intro ls
    induction ls with
    | nil => rfl
    | cons l ls ih =>
      rw [List.flatMap_cons, ih, List.cons_append, List.intercalate_cons_of_ne_nil (by simp)]
  rw [hjoin]
  refine List.splitOn_intercalate '\n' ?_ (by simp)
  intro l hl
  rcases List.mem_append.mp hl with hl | hl
  · exact h l hl
  · rw [List.mem_singleton.mp hl]
    exact List.not_mem_nil

/-- The characters of a graph, line by line. -/
theorem toList_render (t : Tree) (style : Style) : (render t style).toList =
    ((statements t style).map fun s => s.text.toList).flatMap fun l => l ++ ['\n'] := by
  rw [render, String.toList_join, lines, List.flatMap_map, List.flatMap_map]
  refine List.flatMap_congr fun s _ => ?_
  rw [String.toList_append]
  rfl

/-- **A graph is read back from its text**, up to the line breaks of its texts. -/
theorem decode_render (t : Tree) (style : Style) :
    decode (render t style) = some (content t style) := by
  have hlines : ∀ l ∈ (statements t style).map (fun s => s.text.toList), '\n' ∉ l := by
    intro l hl
    obtain ⟨s, -, rfl⟩ := List.mem_map.mp hl
    exact s.notMem_text
  rw [decode, toList_render, splitOn_lines hlines, List.dropLast_concat, mapM_ofLine]
  exact contentOf_statements t style

/-! ### Edges -/

open Branch

/-- The links of a tree: to every node that has a parent, from that parent. -/
def linksOf (t : Tree) : List (NodeId × NodeId) :=
  t.nodeList.filterMap fun n => n.parent.map fun p => (p, n.id)

variable {bs : List Branch} {e : NodeId × NodeId}

theorem mem_edgesOf : e ∈ edgesOf t ↔ ∃ n ∈ t.nodeList, n.id = e.1 ∧ e.2 ∈ n.children := by
  rw [edgesOf, List.mem_flatMap]
  refine exists_congr fun n => and_congr_right fun _ => ?_
  constructor
  · intro he
    obtain ⟨c, hc, rfl⟩ := List.mem_map.mp he
    exact ⟨rfl, hc⟩
  · rintro ⟨hid, hc⟩
    exact List.mem_map.mpr ⟨e.2, hc, by rw [hid]⟩

theorem mem_linksOf : e ∈ linksOf t ↔ ∃ n ∈ t.nodeList, n.parent = some e.1 ∧ n.id = e.2 := by
  rw [linksOf, List.mem_filterMap]
  refine exists_congr fun n => and_congr_right fun _ => ?_
  rw [Option.map_eq_some_iff]
  constructor
  · rintro ⟨p, hp, rfl⟩
    exact ⟨hp, rfl⟩
  · rintro ⟨hp, hid⟩
    exact ⟨e.1, hp, by rw [hid]⟩

theorem nodup_edgesOf (h : t.Spells bs) : (edgesOf t).Nodup := by
  have hids : (t.nodeList.map Node.id).Nodup := h.nodup_ids
  rw [edgesOf, List.nodup_flatMap]
  constructor
  · intro n hn
    refine List.Nodup.map (fun c d hcd => congrArg Prod.snd hcd) ?_
    refine List.nodup_iff_count_le_one.mpr fun c => ?_
    by_cases hc : c ∈ n.children
    · exact Nat.le_of_eq (h.wellFormed.count_eq_one (h.toCoherent.node?_id hn) hc)
    · rw [List.count_eq_zero_of_not_mem hc]
      exact Nat.zero_le 1
  · refine (List.pairwise_map.mp hids).imp fun {n m} hne => ?_
    intro e hn hm
    obtain ⟨c, -, rfl⟩ := List.mem_map.mp hn
    obtain ⟨d, -, hd⟩ := List.mem_map.mp hm
    exact hne (congrArg Prod.fst hd).symm

theorem nodup_linksOf (h : t.Spells bs) : (linksOf t).Nodup := by
  have hids : (t.nodeList.map Node.id).Nodup := h.nodup_ids
  refine List.pairwise_filterMap.mpr ((List.pairwise_map.mp hids).imp fun {n m} hne => ?_)
  rintro e hn e' hm rfl
  obtain ⟨p, -, rfl⟩ := Option.map_eq_some_iff.mp hn
  obtain ⟨q, -, hq⟩ := Option.map_eq_some_iff.mp hm
  exact hne (congrArg Prod.snd hq).symm

/-- **The edges of a tree** lead to every node that has a parent, once, and from that parent. -/
theorem edges_perm (h : t.Spells bs) : (edgesOf t).Perm (linksOf t) := by
  refine (List.perm_ext_iff_of_nodup (nodup_edgesOf h) (nodup_linksOf h)).mpr fun e => ?_
  rw [mem_edgesOf, mem_linksOf]
  constructor
  · rintro ⟨n, hn, hid, hc⟩
    obtain ⟨m, hm, hparent⟩ := h.wellFormed.child_live n.id n e.2 (h.toCoherent.node?_id hn) hc
    obtain ⟨hmem, hmid⟩ := h.node?_eq_some_iff.mp hm
    exact ⟨m, hmem, hid ▸ hparent, hmid⟩
  · rintro ⟨m, hm, hparent, hid⟩
    obtain ⟨n, hn, hcount⟩ := h.wellFormed.parent_live m.id m e.1 (h.toCoherent.node?_id hm) hparent
    obtain ⟨hmem, hnid⟩ := h.node?_eq_some_iff.mp hn
    refine ⟨n, hmem, hnid, ?_⟩
    rw [← hid]
    exact List.count_pos_iff.mp (hcount ▸ Nat.one_pos)

/-- All nodes but the root have a parent. -/
theorem length_edgesOf (h : t.Spells bs) : (edgesOf t).length = t.size - 1 := by
  have hlinks : (linksOf t).length = t.nodeList.countP fun n => n.parent.isSome := by
    rw [linksOf, List.length_filterMap_eq_countP]
    refine List.countP_congr fun n _ => ?_
    rw [Option.isSome_map]
  rw [(edges_perm h).length_eq, hlinks, h.perm.countP_eq, Tree.size_eq_length, h.perm.length_eq]
  obtain rfl | ⟨b, rfl⟩ := h.eq_nil_or_singleton
  · rfl
  · have hbottom : ¬ (b.bottom none).parent.isSome = true := Bool.false_ne_true
    rw [grove_singleton, nodes_eq, List.length_cons, Nat.add_sub_cancel,
      List.countP_cons_of_neg (p := fun n : Node => n.parent.isSome) hbottom]
    refine List.countP_eq_length.mpr fun n hn => ?_
    obtain ⟨q, -, hq⟩ := parent_of_mem_grove hn
    rw [hq]
    rfl

/-- What is to be said of the text of a tree's graph. -/
structure Readable (t : Tree) (style : Style) : Prop where
  /-- There is a line for each statement and no other, whatever the texts are. -/
  lines_eq : ∃ ls : List String, ls.length = 4 + t.size + (t.size - 1) ∧
    (∀ l ∈ ls, '\n' ∉ l.toList) ∧ render t style = String.join (ls.map (· ++ "\n"))
  /-- The text tells what the graph is about, in the order of arrival. -/
  decode_eq : decode (render t style) = some
    { graphName := normalise style.graphName
      fontName := normalise style.fontName
      nodeFontSize := style.nodeFontSize
      edgeFontSize := style.edgeFontSize
      nodes := t.nodeList.map fun n => (n.id, normalise (n.rule ++ ": " ++ n.label))
      edges := t.nodeList.flatMap fun n => n.children.map fun c => (n.id, c) }
  /-- There is one edge to every node but the root, from its parent, and no other. -/
  edges_perm : (t.nodeList.flatMap fun n => n.children.map fun c => (n.id, c)).Perm
    (t.nodeList.filterMap fun n => n.parent.map fun p => (p, n.id))
  parent_eq_none_iff : ∀ n ∈ t.nodeList, n.parent = none ↔ t.root = some n.id
  /-- The nodes at both ends of an edge are declared. -/
  declared : ∀ e ∈ t.nodeList.flatMap (fun n => n.children.map fun c => (n.id, c)),
    e.1 ∈ t.nodeIds ∧ e.2 ∈ t.nodeIds

/-- **The graph of a tree** can be read. -/
theorem readable_of_spells (h : t.Spells bs) (style : Style) : Readable t style := by
  refine ⟨⟨(statements t style).map Statement.text, ?_, ?_, ?_⟩, decode_render t style,
    edges_perm h, ?_, ?_⟩
  · -- one line for each statement
    have hedges : ((t.nodeList.flatMap fun n => n.children.map (Statement.edge n.id))).length
        = t.size - 1 := by
      rw [← length_edgesOf h, edgesOf, List.length_flatMap, List.length_flatMap]
      simp only [List.length_map]
    simp only [statements, List.length_map, List.length_append, hedges, t.size_eq_length,
      List.length_cons, List.length_nil]
    omega
  · -- no line feed
    intro l hl
    obtain ⟨s, -, rfl⟩ := List.mem_map.mp hl
    exact s.notMem_text
  · rw [render, lines, List.map_map]
    rfl
  · -- parent_eq_none_iff
    intro n hn
    have hnode := h.toCoherent.node?_id hn
    refine ⟨h.wellFormed.root_unique n.id n hnode, fun hroot => ?_⟩
    obtain ⟨m, hm, hparent⟩ := h.wellFormed.root_live n.id hroot
    obtain rfl := Option.some.inj (hnode.symm.trans hm)
    exact hparent
  · -- declared
    intro e he
    obtain ⟨n, hn, hid, -⟩ := mem_edgesOf.mp he
    obtain ⟨m, hm, -, hmid⟩ := mem_linksOf.mp ((edges_perm h).mem_iff.mp he)
    rw [h.nodeIds_eq, ← hid, ← hmid]
    exact ⟨List.mem_map_of_mem hn, List.mem_map_of_mem hm⟩

end SyntaxTree.Dot

namespace SyntaxTree.Workshop

open Dot

/-- **The graph of every tree of every run** can be read, in any style, and graphs with the same text
are about the same. -/
theorem run_readable (jobs : List Job) {t : Tree} (ht : t ∈ (run jobs).trees) (style : Style) :
    Readable t style ∧
      ∀ u style', render t style = render u style' → content t style = content u style' := by
  obtain ⟨bs, hs⟩ := ((sound_run jobs).tree ht).spells
  refine ⟨readable_of_spells hs style, fun u style' h => ?_⟩
  have hdecode := decode_render t style
  rw [h, decode_render] at hdecode
  exact (Option.some.inj hdecode).symm

/-- A style whose names would end a string and begin a line, if they were not escaped. -/
def awkward : Style := ⟨"\"];\r\n\x7d", "\\", 11, 10⟩

/-- The graph of the sum that the errands leave can be read in an awkward style. -/
theorem readable_errands : ∃ t, (run errands).forest.tree? "sum" = some t ∧ t.size = 4 ∧
    Readable t awkward ∧
    (decode (render t awkward)).map Content.graphName = some "\"];\n\x7d" := by
  have hsize : ((run errands).forest.tree? "sum").map Tree.size = some 4 := by decide
  obtain ⟨t, ht, h4⟩ := Option.map_eq_some_iff.mp hsize
  obtain ⟨hreadable, -⟩ := run_readable errands (mem_trees_of_tree? ht) awkward
  refine ⟨t, ht, h4, hreadable, ?_⟩
  rw [hreadable.decode_eq]
  show some (normalise awkward.graphName) = _
  decide

end SyntaxTree.Workshop
