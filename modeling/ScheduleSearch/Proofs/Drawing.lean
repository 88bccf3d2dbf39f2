/-
  Reading a drawing back.

  The drawing of a graph quotes labels and actions, which may hold any characters.  A reader
  takes each quoted string up to its first quote that is not escaped, and undoes the escapes;
  it needs no more than the lines of the drawing to find the nodes and the edges again.

  * `unquote`, `quoted?`: the text of a quoted string, and what follows it;
  * `readLine?`, `read?`: the items of a line and of a whole drawing;
  * `quoted?_quoted`: a quoted text is read back, but for its carriage returns, and
    `quoted?_enclosed`: so is a plain text that is not escaped;
  * `Graph.Hashed`: the states of a graph are named by hashes, as all calls leave them
    (`hashed_afterAll`), so their names are plain, as all colors are;
  * **`dot_reads_back`**: a drawing has one line for each node and each edge and three more,
    and all that it shows of them is read back, in order.
-/
import ScheduleSearch.Proofs.GraphCalls
import ScheduleSearch.Proofs.Pieces
import ScheduleSearch.Search.Graph.Dot

namespace ScheduleSearch

namespace Dot

/-! ## Reading quoted strings -/

/-- What an escape stands for. -/
def unescape : Char → Option Char
  | '\\' => some '\\'
  | '"' => some '"'
  | 'n' => some '\n'
  | _ => none

/-- The text up to the first quote that is not escaped, and what follows the quote. -/
def unquote : List Char → Option (List Char × List Char)
  | [] => none
  | '"' :: rest => some ([], rest)
  | '\\' :: c :: rest => do
    let (text, rest) ← unquote rest
    return ((← unescape c) :: text, rest)
  | c :: rest => do
    let (text, rest) ← unquote rest
    return (c :: text, rest)

/-- The text of the quoted string at the front, and what follows it. -/
def quoted? : List Char → Option (String × List Char)
  | '"' :: rest => (unquote rest).map fun (text, rest) => (String.ofList text, rest)
  | _ => none

/-- What follows an expected text. -/
def expect (text : String) (cs : List Char) : Option (List Char) :=
  if text.toList.isPrefixOf cs then some (cs.drop text.toList.length) else none

/-! ## Reading lines -/

/-- What a line of a drawing shows. -/
inductive Item where
  | node (name label color : String) (onBestPath : Bool)
  | edge (source target action : String) (onBestPath : Bool)
deriving DecidableEq, Repr

/-- The end of a line, with or without the mark of the best path. -/
def readMark? (cs : List Char) : Option Bool :=
  if cs = "];".toList then some false
  else if cs = ", color=red, penwidth=3];".toList then some true
  else none

def readNode? (name : String) (cs : List Char) : Option Item := do
  let cs ← expect " [label=" cs
  let (label, cs) ← quoted? cs
  let cs ← expect ", fillcolor=" cs
  let (color, cs) ← quoted? cs
  return .node name label color (← readMark? cs)

def readEdge? (source : String) (cs : List Char) : Option Item := do
  let (target, cs) ← quoted? cs
  let cs ← expect " [label=" cs
  let (action, cs) ← quoted? cs
  return .edge source target action (← readMark? cs)

/-- A node, or an edge if an arrow follows the first name. -/
def readLine? (cs : List Char) : Option Item := do
  let cs ← expect "  " cs
  let (name, cs) ← quoted? cs
  match expect " -> " cs with
  | some cs => readEdge? name cs
  | none => readNode? name cs

/-- The lines of a text, if each of them ends with a line break. -/
def lines? (text : String) : Option (List (List Char)) :=
  let runs := Text.pieces (· == '\n') text.toList
  if runs.getLast? = some [] then some runs.dropLast else none

def frontLine : List Char := "digraph search \x7b".toList

def styleLine : List Char :=
  "  node [shape=box, style=filled, fontname=\"monospace\"];".toList

def endLine : List Char := "\x7d".toList

/-- The items of a drawing, between two lines at its front and one at its end. -/
def read? (text : String) : Option (List Item) := do
  match ← lines? text with
  | front :: style :: rest =>
    if front = frontLine ∧ style = styleLine ∧ rest.getLast? = some endLine then
      rest.dropLast.mapM readLine?
    else none
  | _ => none

/-! ## Quoted strings are read back -/

/-- A text without its carriage returns. -/
def withoutReturns (s : String) : String :=
  String.ofList (s.toList.filter (· ≠ '\r'))

theorem unquote_escaped (s rest : List Char) :
    unquote (s.flatMap escapeChar ++ '"' :: rest) = some (s.filter (· ≠ '\r'), rest) := by
  induction s with
  | nil => rfl
  | cons c s ih =>
    rw [List.flatMap_cons, List.append_assoc]
    by_cases hslash : c = '\\'
    · subst hslash
      simp [escapeChar, unquote, unescape, ih]
    by_cases hquote : c = '"'
    · subst hquote
      simp [escapeChar, unquote, unescape, ih]
    by_cases hbreak : c = '\n'
    · subst hbreak
      simp [escapeChar, unquote, unescape, ih]
    by_cases hreturn : c = '\r'
    · subst hreturn
      simp [escapeChar, ih]
    · simp [escapeChar, unquote, hslash, hquote, hbreak, hreturn, ih]

/-- **A quoted text** is read back, but for its carriage returns. -/
theorem quoted?_quoted (s : String) (rest : List Char) :
    quoted? ((quoted s).toList ++ rest) = some (withoutReturns s, rest) := by
  have hchars : (quoted s).toList ++ rest =
      '"' :: (s.toList.flatMap escapeChar ++ '"' :: rest) := by
    simp [quoted, enclosed]
  rw [hchars, quoted?, unquote_escaped]
  rfl

theorem withoutReturns_eq {s : String} (h : '\r' ∉ s.toList) : withoutReturns s = s := by
  rw [withoutReturns, List.filter_eq_self.2, String.ofList_toList]
  intro c hc
  simpa using fun hcr : c = '\r' => h (hcr ▸ hc)

theorem newline_not_mem_quoted (s : String) : '\n' ∉ (quoted s).toList := by
  have hescape : ∀ c, '\n' ∉ escapeChar c := by
    intro c
    unfold escapeChar
    split_ifs with hslash hquote hbreak
    · simp
    · simp
    · simp
    · simp
    · simpa [eq_comm] using hbreak
  simp [quoted, enclosed, hescape]

/-- The characters that are escaped or dropped between quotes. -/
def special : List Char := ['\\', '"', '\n', '\r']

/-- There is nothing in the text to escape. -/
def Plain (s : String) : Prop :=
  ∀ c ∈ s.toList, c ∉ special

theorem Plain.enclosed_eq {s : String} (h : Plain s) : enclosed s = quoted s := by
  have hsame : ∀ c ∈ s.toList, escapeChar c = [c] := by
    intro c hc
    have hplain := h c hc
    simp only [special, List.mem_cons, List.not_mem_nil, or_false, not_or] at hplain
    obtain ⟨hslash, hquote, hbreak, hreturn⟩ := hplain
    simp [escapeChar, hslash, hquote, hbreak, hreturn]
  have hchars : s.toList.flatMap escapeChar = s.toList := by
    rw [List.flatMap_congr hsame, List.flatMap_singleton']
  rw [quoted, hchars, String.ofList_toList]

/-- **A plain text** between quotes is read back. -/
theorem quoted?_enclosed {s : String} (h : Plain s) (rest : List Char) :
    quoted? ((enclosed s).toList ++ rest) = some (s, rest) := by
  have hreturns : withoutReturns s = s :=
    withoutReturns_eq fun hmem => h _ hmem (by decide)
  rw [h.enclosed_eq, quoted?_quoted, hreturns]

theorem newline_not_mem_enclosed {s : String} (h : Plain s) : '\n' ∉ (enclosed s).toList := by
  rw [h.enclosed_eq]
  exact newline_not_mem_quoted s

/-- Hexadecimal digits are not escaped. -/
theorem not_special_of_mem_hex {bytes : List UInt8} {c : Char} (h : c ∈ hex bytes) :
    c ∉ special := by
  have hdigit := mem_hex h
  intro hspecial
  simp only [special, List.mem_cons, List.not_mem_nil, or_false] at hspecial
  rcases hspecial with rfl | rfl | rfl | rfl
  all_goals simp at hdigit

/-! ## Lines are read back -/

theorem expect_append (text : String) (rest : List Char) :
    expect text (text.toList ++ rest) = some rest := by
  simp [expect]

theorem readMark?_bestMark (onBestPath : Bool) :
    readMark? ((bestMark onBestPath).toList ++ "];".toList) = some onBestPath := by
  cases onBestPath <;> rfl

theorem newline_not_mem_bestMark (onBestPath : Bool) :
    '\n' ∉ (bestMark onBestPath).toList := by
  cases onBestPath <;> simp [bestMark]

/-- The line of a node, without its end. -/
def nodeText (n : Node) : List Char :=
  "  ".toList ++ ((enclosed n.fingerprint.short).toList ++ (" [label=".toList ++
    ((quoted n.label).toList ++ (", fillcolor=".toList ++ ((enclosed n.fillColor).toList ++
      ((bestMark n.onBestPath).toList ++ "];".toList))))))

/-- The line of an edge, without its end. -/
def edgeText (e : Edge) : List Char :=
  "  ".toList ++ ((enclosed e.source.short).toList ++ (" -> ".toList ++
    ((enclosed e.target.short).toList ++ (" [label=".toList ++ ((quoted e.action).toList ++
      ((bestMark e.onBestPath).toList ++ "];".toList))))))

theorem toList_nodeLine (n : Node) : (nodeLine n).toList = nodeText n ++ ['\n'] := by
  simp [nodeLine, nodeText]

theorem toList_edgeLine (e : Edge) : (edgeLine e).toList = edgeText e ++ ['\n'] := by
  simp [edgeLine, edgeText]

end Dot

/-! ## Hashed states -/

/-- The fingerprint is the hash of some dump. -/
def Fingerprint.Hashed (fp : Fingerprint) : Prop :=
  ∃ dump, fp = .ofDump dump

theorem Fingerprint.Hashed.plain_short {fp : Fingerprint} (h : fp.Hashed) :
    Dot.Plain fp.short := by
  obtain ⟨dump, rfl⟩ := h
  intro c hc
  rw [short, ofDump, ContentHash.of, ContentHash.hexDigest_ofDigest, String.toList_ofList,
    String.toList_ofList] at hc
  exact Dot.not_special_of_mem_hex (List.mem_of_mem_take hc)

theorem plain_fillColor (score : Float) : Dot.Plain (fillColor score) := by
  intro c hc
  simp only [fillColor, String.toList_ofList, List.mem_cons, List.mem_append] at hc
  rcases hc with rfl | (hred | hgreen) | hblue
  · decide
  · exact Dot.not_special_of_mem_hex hred
  · exact Dot.not_special_of_mem_hex hgreen
  · exact Dot.not_special_of_mem_hex hblue

namespace Dot

theorem newline_not_mem_nodeText {n : Node} (h : n.fingerprint.Hashed) : '\n' ∉ nodeText n := by
  have hcolor : Plain n.fillColor := plain_fillColor n.score
  simp [nodeText, newline_not_mem_quoted, newline_not_mem_bestMark,
    newline_not_mem_enclosed h.plain_short, newline_not_mem_enclosed hcolor]

theorem newline_not_mem_edgeText {e : Edge} (hsource : e.source.Hashed)
    (htarget : e.target.Hashed) : '\n' ∉ edgeText e := by
  simp [edgeText, newline_not_mem_quoted, newline_not_mem_bestMark,
    newline_not_mem_enclosed hsource.plain_short, newline_not_mem_enclosed htarget.plain_short]

/-- What a drawing shows of a node. -/
def Item.ofNode (n : Node) : Item :=
  .node n.fingerprint.short (withoutReturns n.label) n.fillColor n.onBestPath

/-- What a drawing shows of an edge. -/
def Item.ofEdge (e : Edge) : Item :=
  .edge e.source.short e.target.short (withoutReturns e.action) e.onBestPath

theorem readLine?_nodeText {n : Node} (h : n.fingerprint.Hashed) :
    readLine? (nodeText n) = some (.ofNode n) := by
  have harrow (rest : List Char) : expect " -> " (" [label=".toList ++ rest) = none := rfl
  have hcolor : Plain n.fillColor := plain_fillColor n.score
  simp only [nodeText, readLine?, readNode?, expect_append, quoted?_quoted, harrow,
    readMark?_bestMark, quoted?_enclosed h.plain_short, quoted?_enclosed hcolor,
    Option.bind_eq_bind, Option.bind_some, Option.pure_def, Item.ofNode]

theorem readLine?_edgeText {e : Edge} (hsource : e.source.Hashed) (htarget : e.target.Hashed) :
    readLine? (edgeText e) = some (.ofEdge e) := by
  simp only [edgeText, readLine?, readEdge?, expect_append, quoted?_quoted, readMark?_bestMark,
    quoted?_enclosed hsource.plain_short, quoted?_enclosed htarget.plain_short,
    Option.bind_eq_bind, Option.bind_some, Option.pure_def, Item.ofEdge]

/-- Lines that are read one by one. -/
theorem readLines_map {α : Type} {text : α → List Char} {item : α → Item} {xs : List α}
    (h : ∀ x ∈ xs, readLine? (text x) = some (item x)) :
    (xs.map text).mapM readLine? = some (xs.map item) := by
  induction xs with
  | nil => rfl
  | cons x xs ih =>
    rw [List.map_cons, List.mapM_cons, h x List.mem_cons_self,
      ih fun y hy => h y (List.mem_cons_of_mem x hy)]
    rfl

end Dot

/-! ## Graphs of hashed states -/

/-- The states of a graph are named by hashes of their dumps. -/
structure Graph.Hashed (g : Graph) : Prop where
  nodes {fp : Fingerprint} {n : Node} : g.node? fp = some n → n.fingerprint.Hashed
  edges {e : Edge} : e ∈ g.edges.toList → e.source.Hashed ∧ e.target.Hashed

/-- The states that a call is given are named by hashes. -/
def GraphCall.Hashed : GraphCall → Prop
  | .record fp _ _ _ => fp.Hashed
  | .recordEdge t => t.source.Hashed ∧ t.target.Hashed
  | _ => True

namespace Graph

variable {g g' : Graph} {fp : Fingerprint}

theorem Hashed.like (h : g.Hashed) (depthTimes : Std.TreeMap Nat Float) (sampler : Sampler) :
    { g with depthTimes, sampler }.Hashed :=
  ⟨h.nodes, h.edges⟩

theorem Hashed.record (h : g.Hashed) (hfp : fp.Hashed) (actions : List String)
    (score time : Float) : (g.record fp actions score time).2.Hashed where
  nodes hn := by
    rcases node?_record hn with ⟨-, rfl⟩ | hn
    exacts [hfp, h.nodes hn]
  edges he := by
    obtain ⟨nodes, best, hg⟩ := g.record_edges fp actions score time
    rw [hg] at he
    exact h.edges he

theorem Hashed.recordEdge (h : g.Hashed) {t : Transition}
    (ht : t.source.Hashed ∧ t.target.Hashed) : (g.recordEdge t).2.Hashed where
  nodes hn := by
    obtain ⟨edges, transitions, inEdges, outDegrees, hg⟩ := g.recordEdge_nodes t
    rw [hg] at hn
    exact h.nodes hn
  edges he := by
    unfold Graph.recordEdge at he
    split at he
    · exact h.edges he
    · rcases List.mem_append.1 (Array.toList_push ▸ he) with he | he
      · exact h.edges he
      · rw [List.mem_singleton.1 he]
        exact ht

theorem Hashed.remarked (h : g.Hashed) (hr : g.Remarked g') : g'.Hashed where
  nodes hn := by
    obtain ⟨m, hm, hfp⟩ := hr.exists_node hn
    exact hfp ▸ h.nodes hm
  edges he := by
    have ht := List.mem_map_of_mem (f := (·.toTransition)) he
    rw [hr.edges, List.mem_map] at ht
    obtain ⟨e', he', hte⟩ := ht
    have hends := h.edges he'
    rwa [hte] at hends

open SearchM in
theorem Hashed.expand {α ε : Type} [Agent α] [Evaluator ε α] (h : g.Hashed) (s : Setting ε)
    (p : ExpandParams) (a : α) (steps : Int) (asked : Trace α) :
    ((expand s p a steps).leaves ⟨g, asked⟩).graph.Hashed := by
  have hfp (b : α) : (fingerprint b).Hashed := ⟨Agent.dump b, rfl⟩
  have hlike {r r' : Run α} (hg : r.graph.Hashed) (hl : r.graph.Like r'.graph) :
      r'.graph.Hashed := by
    obtain ⟨sampler, hl⟩ := hl
    rw [hl]
    exact hg.like _ sampler
  refine (expand_keeps (P := fun _ _ => True) (I := fun r => r.graph.Hashed) ?_ ?_ ?_
    trivial h).leaves
  · exact fun hg hq => hlike hg hq.graph
  · intro k b r _ hg
    refine (visit_ends s p b).imp (fun _ r' hv => ?_) fun _ r' ⟨hl, _⟩ => hlike hg hl
    obtain ⟨x, time, depthTimes, sampler, -, -, -, hrecord, -⟩ := hv
    rw [hrecord]
    exact (hg.like depthTimes sampler).record (hfp b) _ x time
  · exact fun _ _ hg => ⟨trivial, hg.recordEdge ⟨hfp _, hfp _⟩⟩

theorem Hashed.after (h : g.Hashed) (hw : g.Wired) {call : GraphCall} (hc : call.Hashed) :
    (g.after call).Hashed := by
  cases call with
  | record fp actions score time =>
    have hfp : fp.Hashed := hc
    exact h.record hfp actions score time
  | recordEdge t =>
    have ht : t.source.Hashed ∧ t.target.Hashed := hc
    exact h.recordEdge ht
  | recordDepthTime depth time =>
    obtain ⟨depthTimes, hg, -⟩ := g.recordDepthTime_depthTimes depth time
    show (g.recordDepthTime depth time).Hashed
    rw [hg]
    exact h.like depthTimes g.sampler
  | expand s p a steps asked => exact h.expand s p a steps asked
  | bestPath =>
    rcases g.after_bestPath with hg | ⟨fuel, fp, hg⟩ <;> rw [hg]
    · exact h
    · exact h.remarked ⟨node?_mark fun _ hn => hw.mem_visited hn, edges_mark g _⟩

/-- Calls on hashed states leave a graph of hashed states. -/
theorem hashed_afterAll (seed : UInt64) {calls : List GraphCall}
    (hc : ∀ call ∈ calls, call.Hashed) : ((empty seed).afterAll calls).Hashed := by
  suffices h : ∀ g : Graph, g.Wired → g.Hashed → (g.afterAll calls).Hashed from
    h _ (wired_empty seed) ⟨fun hn => by simp [empty, node?] at hn, fun he => by simp [empty] at he⟩
  induction calls with
  | nil => exact fun _ _ h => h
  | cons call calls ih =>
    intro g hw h
    exact ih (fun c hm => hc c (List.mem_cons_of_mem call hm)) (g.after call) (hw.after call)
      (h.after hw (hc call List.mem_cons_self))

/-! ## Drawings are read back -/

/-- The lines between the front and the end of a drawing. -/
def drawnLines (g : Graph) : List (List Char) :=
  g.nodeList.map Dot.nodeText ++ g.edges.toList.map Dot.edgeText

/-- What the lines between the front and the end of a drawing show. -/
def items (g : Graph) : List Dot.Item :=
  g.nodeList.map .ofNode ++ g.edges.toList.map .ofEdge

theorem toList_dot (g : Graph) : g.dot.toList =
    (Dot.frontLine :: Dot.styleLine :: (g.drawnLines ++ [Dot.endLine])).flatMap (· ++ ['\n']) := by
  have happend (front nodes edges last : String) : (front ++ nodes ++ edges ++ last).toList =
      front.toList ++ (nodes.toList ++ edges.toList) ++ last.toList := by
    simp only [String.toList_append, List.append_assoc]
  have hfront :
      "digraph search \x7b\n  node [shape=box, style=filled, fontname=\"monospace\"];\n".toList =
        Dot.frontLine ++ ['\n'] ++ (Dot.styleLine ++ ['\n']) := by decide +kernel
  have hend : "\x7d\n".toList = Dot.endLine ++ ['\n'] := by decide +kernel
  have hlines : (String.join (g.nodeList.map Dot.nodeLine)).toList ++
      (String.join (g.edges.toList.map Dot.edgeLine)).toList =
        g.drawnLines.flatMap (· ++ ['\n']) := by
    simp only [String.toList_join, List.flatMap_map, Dot.toList_nodeLine, Dot.toList_edgeLine,
      drawnLines, List.flatMap_append]
  -- rewriting would compare the parts of the text with each other, character by character
  calc g.dot.toList
      = _ := happend _ _ _ _
    _ = Dot.frontLine ++ ['\n'] ++ (Dot.styleLine ++ ['\n']) ++
          g.drawnLines.flatMap (· ++ ['\n']) ++ (Dot.endLine ++ ['\n']) :=
        congrArg₂ (· ++ ·) (congrArg₂ (· ++ ·) hfront hlines) hend
    _ = _ := by
        simp only [List.flatMap_cons, List.flatMap_append, List.flatMap_nil, List.append_nil,
          List.append_assoc]

theorem length_nodeList (g : Graph) : g.nodeList.length = g.nodeCount := by
  rw [nodeList_eq, List.length_map, Std.TreeMap.length_toList, nodeCount]

theorem exists_node?_of_mem {n : Node} (h : n ∈ g.nodeList) : ∃ fp, g.node? fp = some n := by
  rw [nodeList_eq, List.mem_map] at h
  obtain ⟨⟨fp, m⟩, hm, rfl⟩ := h
  exact ⟨fp, Std.TreeMap.mem_toList_iff_getElem?_eq_some.1 hm⟩

theorem Hashed.newline_not_mem (h : g.Hashed) {line : List Char} (hline : line ∈ g.drawnLines) :
    '\n' ∉ line := by
  rcases List.mem_append.1 hline with hline | hline
  · obtain ⟨n, hn, rfl⟩ := List.mem_map.1 hline
    obtain ⟨fp, hfp⟩ := exists_node?_of_mem hn
    exact Dot.newline_not_mem_nodeText (h.nodes hfp)
  · obtain ⟨e, he, rfl⟩ := List.mem_map.1 hline
    exact Dot.newline_not_mem_edgeText (h.edges he).1 (h.edges he).2

theorem Hashed.lines?_dot (h : g.Hashed) : Dot.lines? g.dot =
    some (Dot.frontLine :: Dot.styleLine :: (g.drawnLines ++ [Dot.endLine])) := by
  have hlines : ∀ line ∈ Dot.frontLine :: Dot.styleLine :: (g.drawnLines ++ [Dot.endLine]),
      '\n' ∉ line := by
    intro line hline
    simp only [List.mem_cons, List.mem_append, List.not_mem_nil, or_false] at hline
    rcases hline with rfl | rfl | hline | rfl
    · decide
    · decide
    · exact h.newline_not_mem hline
    · decide
  have hpieces := Text.pieces_terminated (p := (· == '\n')) (beq_self_eq_true '\n')
    fun line hline c hc => beq_false_of_ne fun hcn => hlines line hline (hcn ▸ hc)
  rw [Dot.lines?, toList_dot, hpieces]
  simp only [List.getLast?_concat, if_true, List.dropLast_concat]

theorem Hashed.readLines_drawnLines (h : g.Hashed) :
    g.drawnLines.mapM Dot.readLine? = some g.items := by
  have hnodes : (g.nodeList.map Dot.nodeText).mapM Dot.readLine? =
      some (g.nodeList.map .ofNode) := by
    refine Dot.readLines_map fun n hn => ?_
    obtain ⟨fp, hfp⟩ := exists_node?_of_mem hn
    exact Dot.readLine?_nodeText (h.nodes hfp)
  have hedges : (g.edges.toList.map Dot.edgeText).mapM Dot.readLine? =
      some (g.edges.toList.map .ofEdge) := by
    refine Dot.readLines_map fun e he => ?_
    exact Dot.readLine?_edgeText (h.edges he).1 (h.edges he).2
  rw [drawnLines, List.mapM_append, hnodes, hedges]
  rfl

/-- **A drawing is read back**: it has a line for each node and each edge and three more, and
    its lines show every node, in order, and then every edge. -/
theorem dot_reads_back (h : g.Hashed) :
    (Dot.lines? g.dot).map List.length = some (g.nodeCount + g.edgeCount + 3) ∧
      Dot.read? g.dot = some g.items := by
  rw [Dot.read?, h.lines?_dot]
  constructor
  · simp [drawnLines, length_nodeList, edgeCount, Nat.add_assoc]
  · simp [h.readLines_drawnLines]

/-- A transition from a state to itself, with an action that has a backslash, a quote and both
    kinds of line break. -/
theorem dot_reads_back_awkward :
    let fp := Fingerprint.ofDump "loop"
    let g := (empty 0).afterAll [.record fp [] 1 0, .recordEdge ⟨fp, fp, "\\\"a\\\r\n"⟩]
    g.Hashed ∧ (Dot.lines? g.dot).map List.length = some (g.nodeCount + g.edgeCount + 3) ∧
      Dot.read? g.dot =
        some (g.nodeList.map .ofNode ++ [.edge fp.short fp.short "\\\"a\\\n" false]) := by
  intro fp g
  have hfp : fp.Hashed := ⟨"loop", rfl⟩
  have h : g.Hashed := by
    refine hashed_afterAll 0 fun call hcall => ?_
    rcases List.mem_pair.1 hcall with rfl | rfl
    exacts [hfp, ⟨hfp, hfp⟩]
  have hedges : g.edges.toList = [⟨⟨fp, fp, "\\\"a\\\r\n"⟩, false⟩] := rfl
  have hedge : Dot.Item.ofEdge ⟨⟨fp, fp, "\\\"a\\\r\n"⟩, false⟩ =
      .edge fp.short fp.short "\\\"a\\\n" false :=
    congrArg (Dot.Item.edge fp.short fp.short · false) (by decide +kernel)
  have hitems : g.items =
      g.nodeList.map .ofNode ++ [.edge fp.short fp.short "\\\"a\\\n" false] := by
    rw [items, hedges, List.map_singleton, hedge]
  exact ⟨h, hitems ▸ dot_reads_back h⟩

end Graph

end ScheduleSearch
