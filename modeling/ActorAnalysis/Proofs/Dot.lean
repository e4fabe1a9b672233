import ActorAnalysis.Dot
import ActorAnalysis.Settings
import ActorAnalysis.Proofs.Sorted
import ActorAnalysis.Proofs.Space.Order
import ActorAnalysis.Proofs.Text
import Mathlib.Data.List.Induction
import Mathlib.Data.List.Nodup

namespace ActorAnalysis

structure DotConfig.OneLine (config : DotConfig) : Prop where
  nodeShape : Text.OneLine config.nodeShape
  frontierStyle : Text.OneLine config.frontierStyle
  absorbedShape : Text.OneLine config.absorbedShape

namespace Dot

variable {S : Type} [HasView S]

def id? (s : S) : Option NodeId := (HasView.view s).node?.map GraphNode.id

def graphIds (states : List S) : SortedSet NodeId := .ofList (states.filterMap id?)

/-- What is shown for an id: the first state that has it. -/
def nodeFor? (states : List S) (id : NodeId) : Option (Shown S) :=
  states.findSome? (fun s => ((HasView.view s).node?.filter (fun node => decide (node.id = id))).map
    (⟨·, s⟩))

def drawn (states : List S) : List (Shown S) :=
  (graphIds states).toList.filterMap (nodeFor? states)

/-- The predecessors of the drawn nodes that are not drawn themselves. -/
def dangling (states : List S) : SortedSet NodeId :=
  .ofList (((drawn states).flatMap (fun n => n.node.predecessors.toList)).filter
    (fun p => decide (p ∉ graphIds states)))

theorem mem_graphIds {states : List S} {id : NodeId} :
    id ∈ graphIds states ↔ ∃ s ∈ states, id? s = some id := by
  simp [graphIds]

theorem nodeFor?_concat (states : List S) (s : S) (id : NodeId) :
    nodeFor? (states ++ [s]) id = (nodeFor? states id).or
      (((HasView.view s).node?.filter (fun node => decide (node.id = id))).map (⟨·, s⟩)) := by
  unfold nodeFor?
  rw [List.findSome?_append, List.findSome?_singleton]

theorem id_of_nodeFor? {states : List S} {id : NodeId} {n : Shown S}
    (found : nodeFor? states id = some n) : n.node.id = id := by
  obtain ⟨s, -, own⟩ := List.exists_of_findSome?_eq_some found
  obtain ⟨node, kept, rfl⟩ := Option.map_eq_some_iff.mp own
  exact of_decide_eq_true (Option.filter_eq_some_iff.mp kept).2

theorem nodeFor?_eq_none {states : List S} {id : NodeId} :
    nodeFor? states id = none ↔ id ∉ graphIds states := by
  unfold nodeFor?
  rw [List.findSome?_eq_none_iff, mem_graphIds]
  simp [id?, Option.filter_eq_none_iff]

theorem exists_nodeFor? {states : List S} {id : NodeId} (inside : id ∈ graphIds states) :
    ∃ n, nodeFor? states id = some n := by
  apply Option.ne_none_iff_exists'.mp
  exact fun none => nodeFor?_eq_none.mp none inside

theorem ids_drawn (states : List S) :
    (drawn states).map (fun n => n.node.id) = (graphIds states).toList := by
  unfold drawn
  rw [List.map_filterMap]
  have each : ∀ id ∈ (graphIds states).toList,
      ((nodeFor? states id).map (fun n => n.node.id)) = some id := by
    intro id inside
    obtain ⟨n, found⟩ := exists_nodeFor? inside
    rw [found, Option.map_some, id_of_nodeFor? found]
  rw [List.filterMap_congr each, List.filterMap_some]

theorem mem_dangling {states : List S} {p : NodeId} :
    p ∈ dangling states ↔ p ∉ graphIds states ∧ ∃ n ∈ drawn states, p ∈ n.node.predecessors := by
  simp only [dangling, SortedSet.mem_ofList, List.mem_filter, List.mem_flatMap,
    SortedSet.mem_toList, decide_eq_true_eq]
  exact and_comm

theorem shown_concat_bare {s : S} (bare : (HasView.view s).node? = none) (states : List S) :
    shown (states ++ [s]) = shown states := by
  unfold shown
  rw [List.foldl_concat]
  simp only [bare]

theorem shown_concat {s : S} {node : GraphNode} (own : (HasView.view s).node? = some node)
    (states : List S) : shown (states ++ [s]) =
      if ((shown states).get? node.id).isSome then shown states
      else (shown states).insert node.id ⟨node, s⟩ := by
  unfold shown
  rw [List.foldl_concat]
  simp only [own]

/-- Of the states with an id, the first one is kept. -/
theorem get?_shown (states : List S) (id : NodeId) :
    (shown states).get? id = nodeFor? states id := by
  induction states using List.reverseRecOn with
  | nil => rfl
  | append_singleton states s ih =>
    rw [nodeFor?_concat, ← ih]
    cases own : (HasView.view s).node? with
    | none =>
      rw [shown_concat_bare own, Option.filter_none, Option.map_none, Option.or_none]
    | some node =>
      rw [shown_concat own]
      by_cases same : node.id = id
      · subst same
        cases known : (shown states).get? node.id <;> simp [known, Option.filter]
      · have other : Option.filter (fun node => decide (node.id = id)) (some node) = none := by
          simpa [Option.filter_eq_none_iff] using same
        rw [other, Option.map_none, Option.or_none]
        split
        · rfl
        · rw [SortedMap.get?_insert, if_neg (Ne.symm same)]

theorem keys_shown (states : List S) : (shown states).keys = (graphIds states).toList := by
  apply SortedSet.ascending_ext
  · exact List.pairwise_map.mpr (shown states).ascending
  · exact (graphIds states).ascending
  · intro id
    rw [SortedSet.mem_toList]
    constructor
    · intro inside
      obtain ⟨n, found⟩ := (shown states).get?_of_mem_keys inside
      rw [get?_shown] at found
      apply Classical.byContradiction
      intro outside
      rw [nodeFor?_eq_none.mpr outside] at found
      contradiction
    · intro inside
      obtain ⟨n, found⟩ := exists_nodeFor? inside
      rw [← get?_shown] at found
      exact (shown states).mem_keys_of_get? found

theorem values_shown (states : List S) : (shown states).entries.map Prod.snd = drawn states := by
  have listed : ∀ e ∈ (shown states).entries, nodeFor? states e.1 = some e.2 := by
    intro e he
    rw [← get?_shown]
    exact (shown states).get?_of_mem_entries he
  unfold drawn
  rw [← keys_shown, SortedMap.keys, List.filterMap_map]
  exact ((List.filterMap_congr listed).trans (congrFun List.filterMap_eq_map' _)).symm

theorem absorbed_shown (states : List S) : absorbed (shown states) = dangling states := by
  apply SortedSet.ext
  intro id
  have nodes : (shown states).entries.flatMap (fun e => e.2.node.predecessors.toList) =
      (drawn states).flatMap (fun n => n.node.predecessors.toList) := by
    rw [← values_shown, List.flatMap_map]
  have unknown : ((shown states).get? id).isNone = true ↔ id ∉ graphIds states := by
    rw [get?_shown, Option.isNone_iff_eq_none, nodeFor?_eq_none]
  simp only [absorbed, dangling, SortedSet.mem_ofList, List.mem_filter, nodes, unknown,
    decide_eq_true_eq]

def header (config : DotConfig) : List String :=
  ["digraph ARG \x7b", "node [shape=" ++ config.nodeShape ++ ", fontname=\"monospace\"];"]

variable [DecidableEq S] [Hashable S]

def attributes (config : DotConfig) (frontier : Frontier S) (n : Shown S) : List String :=
  style config (frontier.contains n.state) (HasView.view n.state).color?
    ++ (HasView.view n.state).color?.toList.map (fun c => "fillcolor=" ++ c)

def nodeText (config : DotConfig) (frontier : Frontier S) (n : Shown S) : String :=
  s!"s{n.node.id} [label=" ++ quoted (label n)
    ++ String.join ((attributes config frontier n).map (", " ++ ·)) ++ "];"

/-- Only an edge between drawn nodes has a label, and only if edges are labelled at all. -/
def edgeText (config : DotConfig) (A : Analysis S) (states : List S) (n : Shown S)
    (p : NodeId) : String :=
  s!"s{p} -> s{n.node.id}" ++ (nodeFor? states p).elim " [style=dotted];" (fun source =>
    if config.labelEdges then
      " [label=" ++ quoted ("; ".intercalate
        ((A.label source.state n.state).map Operation.text)) ++ "];"
    else ";")

def placeholder (config : DotConfig) (p : NodeId) : String :=
  s!"s{p} [shape=" ++ config.absorbedShape ++ "];"

def drawing (config : DotConfig) (A : Analysis S) (frontier : Frontier S) (states : List S) :
    List String :=
  header config ++ (drawn states).map (nodeText config frontier)
    ++ (drawn states).flatMap (fun n =>
      n.node.predecessors.toList.map (edgeText config A states n))
    ++ (dangling states).toList.map (placeholder config) ++ ["\x7d"]

theorem intercalate_cons (sep a : String) (l : List String) :
    sep.intercalate (a :: l) = a ++ String.join (l.map (sep ++ ·)) := by
  induction l generalizing a with
  | nil => simp
  | cons b rest ih =>
    rw [String.intercalate_cons_cons, ih b]
    simp [String.append_assoc]

theorem nodeLine_eq (config : DotConfig) (frontier : Frontier S) (n : Shown S) :
    nodeLine config frontier n = nodeText config frontier n ++ "\n" := by
  unfold nodeLine nodeText attributes
  dsimp only
  rw [List.append_assoc, List.singleton_append, intercalate_cons, ← String.toList_inj]
  simp [toString]

omit [DecidableEq S] [Hashable S] in
theorem edgeLine_eq (config : DotConfig) (A : Analysis S) (states : List S) (n : Shown S)
    (p : NodeId) :
    edgeLine config A (shown states) n p = edgeText config A states n p ++ "\n" := by
  unfold edgeLine edgeText
  rw [get?_shown]
  cases nodeFor? states p with
  | none => simp [String.append_assoc]
  | some source => cases config.labelEdges <;> simp [String.append_assoc]

theorem nodeLines_eq (config : DotConfig) (frontier : Frontier S) (states : List S) :
    (shown states).entries.map (fun e => nodeLine config frontier e.2) =
      ((drawn states).map (nodeText config frontier)).map (· ++ "\n") := by
  rw [← values_shown, List.map_map, List.map_map]
  apply List.map_congr_left
  intro e _
  exact nodeLine_eq config frontier e.2

omit [DecidableEq S] [Hashable S] in
theorem edgeLines_eq (config : DotConfig) (A : Analysis S) (states : List S) :
    (shown states).entries.flatMap (fun e =>
      e.2.node.predecessors.toList.map (edgeLine config A (shown states) e.2)) =
    ((drawn states).flatMap (fun n =>
      n.node.predecessors.toList.map (edgeText config A states n))).map (· ++ "\n") := by
  rw [← values_shown, List.flatMap_map, List.map_flatMap]
  apply List.flatMap_congr
  intro e _
  rw [List.map_map]
  apply List.map_congr_left
  intro p _
  exact edgeLine_eq config A states e.2 p

theorem lines_eq (config : DotConfig) (A : Analysis S) (frontier : Frontier S)
    (reached : Reached S) : lines config A frontier reached =
      (drawing config A frontier (reached.toList ++ frontier.queue)).map (· ++ "\n") := by
  unfold lines drawing
  dsimp only
  rw [nodeLines_eq, edgeLines_eq, absorbed_shown]
  simp [header, placeholder, Function.comp_def, String.append_assoc]

theorem newline_not_mem_escapeChar (c : Char) : '\n' ∉ escapeChar c := by
  unfold escapeChar
  split <;> simp_all [eq_comm]

theorem oneLine_escape (s : String) : Text.OneLine (escape s) := by
  unfold escape Text.OneLine
  rw [String.toList_ofList, List.mem_flatMap]
  rintro ⟨c, -, inside⟩
  exact newline_not_mem_escapeChar c inside

theorem oneLine_quoted (s : String) : Text.OneLine (quoted s) := by
  have quote : Text.OneLine "\"" := by decide
  simp [quoted, oneLine_escape, quote]

theorem oneLine_color {v : View} {c : String} (color : v.color? = some c) : Text.OneLine c := by
  induction v with
  | time _ inner ih => exact ih color
  | node _ _ _ inner ih => exact ih color
  | schedule threads _ violated inner ih =>
    unfold View.color? at color
    split at color
    · cases color
      decide
    · split at color
      · cases color
        decide
      · contradiction
  | data => contradiction

section OneLine

variable {config : DotConfig} (oneLine : config.OneLine)
include oneLine

theorem oneLine_style {waiting : Bool} {color : Option String} {a : String}
    (member : a ∈ style config waiting color) : Text.OneLine a := by
  have plain : Text.OneLine "style=" ∧ Text.OneLine "style=\"" ∧ Text.OneLine ",filled\"" ∧
    Text.OneLine "style=filled" := by decide
  unfold style at member
  split at member
  · rw [List.mem_singleton.mp member]
    simp [plain, oneLine.frontierStyle]
  · rw [List.mem_singleton.mp member]
    simp [plain, oneLine.frontierStyle]
  · rw [List.mem_singleton.mp member]
    exact plain.2.2.2
  · contradiction

theorem oneLine_nodeText (frontier : Frontier S) (n : Shown S) :
    Text.OneLine (nodeText config frontier n) := by
  have each : ∀ a ∈ attributes config frontier n, Text.OneLine a := by
    intro a ha
    rcases List.mem_append.mp ha with ha | ha
    · exact oneLine_style oneLine ha
    · obtain ⟨c, hc, rfl⟩ := List.mem_map.mp ha
      have plain : Text.OneLine "fillcolor=" := by decide
      simp [plain, oneLine_color (Option.mem_toList.mp hc)]
  have joined : Text.OneLine
      (String.join ((attributes config frontier n).map (", " ++ ·))) := by
    apply Text.oneLine_join
    intro l hl
    obtain ⟨a, ha, rfl⟩ := List.mem_map.mp hl
    have plain : Text.OneLine ", " := by decide
    simp [plain, each a ha]
  have plain : Text.OneLine "s" ∧ Text.OneLine " [label=" ∧ Text.OneLine "];" := by decide
  simp [nodeText, toString, plain, oneLine_quoted, joined]

omit oneLine [DecidableEq S] [Hashable S] in
theorem oneLine_edgeText (A : Analysis S) (states : List S) (n : Shown S) (p : NodeId) :
    Text.OneLine (edgeText config A states n p) := by
  have plain : Text.OneLine "s" ∧ Text.OneLine " -> s" ∧ Text.OneLine "" ∧
    Text.OneLine " [style=dotted];" ∧ Text.OneLine " [label=" ∧ Text.OneLine "];" ∧
    Text.OneLine ";" := by decide
  cases found : nodeFor? states p with
  | none => simp [edgeText, found, toString, plain]
  | some source =>
    cases labelled : config.labelEdges <;>
      simp [edgeText, found, labelled, toString, plain, oneLine_quoted]

theorem oneLine_drawing (A : Analysis S) (frontier : Frontier S) (states : List S) :
    ∀ l ∈ drawing config A frontier states, Text.OneLine l := by
  have plain : Text.OneLine "digraph ARG \x7b" ∧ Text.OneLine "node [shape=" ∧
    Text.OneLine ", fontname=\"monospace\"];" ∧ Text.OneLine "s" ∧ Text.OneLine " [shape=" ∧
    Text.OneLine "];" ∧ Text.OneLine "\x7d" := by decide
  intro l hl
  simp only [drawing, header, List.mem_append, List.mem_cons, List.not_mem_nil, or_false,
    List.mem_map, List.mem_flatMap] at hl
  rcases hl with ((((rfl | rfl) | ⟨n, -, rfl⟩) | ⟨n, -, p, -, rfl⟩) | ⟨p, -, rfl⟩) | rfl
  · exact plain.1
  · simp [plain, oneLine.nodeShape]
  · exact oneLine_nodeText oneLine frontier n
  · exact oneLine_edgeText A states n p
  · simp [placeholder, toString, plain, oneLine.absorbedShape]
  · exact plain.2.2.2.2.2.2

theorem lines_render (A : Analysis S) (frontier : Frontier S) (reached : Reached S) :
    Text.lines (render config A frontier reached) =
      drawing config A frontier (reached.toList ++ frontier.queue) ++ [""] := by
  unfold render
  rw [lines_eq]
  exact Text.lines_join (oneLine_drawing oneLine A frontier _)

end OneLine

/-- The line declares the node of that id: it gives attributes to the node alone. -/
def declares (id : NodeId) (line : String) : Bool :=
  (s!"s{id} [").toList.isPrefixOf line.toList

theorem declares_iff {id k : NodeId} {line : String} {rest : List Char}
    (shape : line.toList = 's' :: (k.repr.toList ++ ' ' :: rest)) :
    declares id line = true ↔ k = id ∧ ['['] <+: rest := by
  have opening : (s!"s{id} [").toList = 's' :: (id.repr.toList ++ ' ' :: ['[']) := by
    simp [toString]
  unfold declares
  rw [List.isPrefixOf_iff_prefix, opening, shape, List.cons_prefix_cons]
  rw [Text.numeral_prefix_iff, eq_comm (a := k)]
  simp

theorem declares_nodeText (config : DotConfig) (frontier : Frontier S) (n : Shown S)
    (id : NodeId) : declares id (nodeText config frontier n) = decide (n.node.id = id) := by
  have shape : (nodeText config frontier n).toList = 's' :: (n.node.id.repr.toList ++ ' ' :: '[' ::
      ("label=" ++ quoted (label n)
        ++ String.join ((attributes config frontier n).map (", " ++ ·)) ++ "];").toList) := by
    simp [nodeText, toString]
  rw [Bool.eq_iff_iff, declares_iff shape, decide_eq_true_iff]
  simp

theorem declares_placeholder (config : DotConfig) (p id : NodeId) :
    declares id (placeholder config p) = decide (p = id) := by
  have shape : (placeholder config p).toList = 's' :: (p.repr.toList ++ ' ' :: '[' ::
      ("shape=" ++ config.absorbedShape ++ "];").toList) := by
    simp [placeholder, toString]
  rw [Bool.eq_iff_iff, declares_iff shape, decide_eq_true_iff]
  simp

omit [DecidableEq S] [Hashable S] in
theorem declares_edgeText (config : DotConfig) (A : Analysis S) (states : List S) (n : Shown S)
    (p id : NodeId) : declares id (edgeText config A states n p) = false := by
  obtain ⟨rest, shape⟩ : ∃ rest, (edgeText config A states n p).toList =
      's' :: (p.repr.toList ++ ' ' :: '-' :: rest) := by
    simp [edgeText, toString]
  rw [← Bool.not_eq_true, declares_iff shape]
  simp

theorem countP_declares {α : Type} {l : List α} {line : α → String} {ident : α → NodeId}
    {id : NodeId} (each : ∀ a, declares id (line a) = decide (ident a = id))
    (distinct : (l.map ident).Nodup) :
    (l.map line).countP (declares id) = if id ∈ l.map ident then 1 else 0 := by
  calc (l.map line).countP (declares id) = l.countP (fun a => decide (ident a = id)) := by
        rw [List.countP_map]
        exact congrArg (l.countP ·) (funext each)
    _ = (l.map ident).count id := by
        rw [List.count, List.countP_map]
        rfl
    _ = if id ∈ l.map ident then 1 else 0 := distinct.count

theorem declared_once (config : DotConfig) (A : Analysis S) (frontier : Frontier S)
    (states : List S) (id : NodeId) : (drawing config A frontier states).countP (declares id) =
      if id ∈ graphIds states ∨ id ∈ dangling states then 1 else 0 := by
  have opening : (header config).countP (declares id) = 0 := by
    simp [header, declares, toString]
  have closing : ["\x7d"].countP (declares id) = 0 := by simp [declares, toString]
  have nodes : ((drawn states).map (nodeText config frontier)).countP (declares id) =
      if id ∈ graphIds states then 1 else 0 := by
    have distinct := (graphIds states).nodup_toList
    rw [← ids_drawn] at distinct
    rw [countP_declares (fun n => declares_nodeText config frontier n id) distinct, ids_drawn]
    rfl
  have edges : ((drawn states).flatMap (fun n =>
      n.node.predecessors.toList.map (edgeText config A states n))).countP (declares id) = 0 := by
    rw [List.countP_eq_zero]
    intro l hl
    obtain ⟨n, -, hl⟩ := List.mem_flatMap.mp hl
    obtain ⟨p, -, rfl⟩ := List.mem_map.mp hl
    simp [declares_edgeText]
  have placeholders : ((dangling states).toList.map (placeholder config)).countP (declares id) =
      if id ∈ dangling states then 1 else 0 := by
    have distinct : ((dangling states).toList.map fun p => p).Nodup := by
      simpa using (dangling states).nodup_toList
    rw [countP_declares (fun p => declares_placeholder config p id) distinct]
    simp
  have apart : id ∈ dangling states → id ∉ graphIds states := fun h => (mem_dangling.mp h).1
  unfold drawing
  simp only [List.countP_append, opening, closing, nodes, edges, placeholders]
  by_cases inside : id ∈ graphIds states <;> by_cases outside : id ∈ dangling states <;> simp_all

/-- The text of a graph has two lines at its head, one line for each id of its states, one for
each edge into the state shown for an id, one for each predecessor that no state has as its id,
and a brace. Each of these ids is declared in one line, and no other id in any. -/
theorem text_lists_nodes_edges_and_placeholders {config : DotConfig} (oneLine : config.OneLine)
    (A : Analysis S) (frontier : Frontier S) (reached : Reached S) :
    let states := reached.toList ++ frontier.queue
    let lines := Text.lines (render config A frontier reached)
    lines = header config ++ (drawn states).map (nodeText config frontier)
        ++ (drawn states).flatMap (fun n =>
          n.node.predecessors.toList.map (edgeText config A states n))
        ++ (dangling states).toList.map (placeholder config) ++ ["\x7d", ""] ∧
    (drawn states).map (fun n => n.node.id) = (graphIds states).toList ∧
    (∀ id, id ∈ graphIds states ↔ ∃ s ∈ states, id? s = some id) ∧
    (∀ p, p ∈ dangling states ↔
      p ∉ graphIds states ∧ ∃ n ∈ drawn states, p ∈ n.node.predecessors) ∧
    ∀ id, lines.countP (declares id) =
      if id ∈ graphIds states ∨ id ∈ dangling states then 1 else 0 := by
  intro states lines
  have split : lines = drawing config A frontier states ++ [""] :=
    lines_render oneLine A frontier reached
  refine ⟨?_, ids_drawn states, fun _ => mem_graphIds, fun _ => mem_dangling, fun id => ?_⟩
  · rw [split, drawing, List.append_assoc]
    rfl
  · have last : [""].countP (declares id) = 0 := by simp [declares, toString]
    rw [split, List.countP_append, declared_once, last, Nat.add_zero]

end Dot

namespace Torn

def thread : Thread := .start 0 "a\"\nb\\" 0 0

/-- Both states follow a state 1 that was merged away, and the second one also the first. -/
def first : Settings.DefaultState :=
  ⟨[1], 2, .singleton 1, .singleton 2, .start [thread] (.known ∅), ∅⟩

def second : Settings.DefaultState :=
  ⟨[2], 3, .ofList [1, 2], .singleton 3, .start [] (.known ∅), ∅⟩

def stack : Analysis Settings.DefaultState :=
  Settings.default.analysis List.length ⟨[], ∅, List.nodup_nil⟩

def reached : Reached Settings.DefaultState :=
  (((∅ : Reached Settings.DefaultState).insert first ∅).2.insert second ∅).2

def frontier : Frontier Settings.DefaultState :=
  ((∅ : Frontier Settings.DefaultState).push second).2

theorem toList_reached : reached.toList = [first, second] := by
  have one : ((∅ : Reached Settings.DefaultState).insert first ∅).2.toList = [first] := by
    rw [Reached.toList_insert, if_neg]
    · rfl
    · rw [Reached.contains_iff Reached.valid_empty]
      exact List.not_mem_nil
  unfold reached
  rw [Reached.toList_insert, if_neg, one]
  · rfl
  · rw [Reached.contains_iff (Reached.valid_insert Reached.valid_empty first ∅), one]
    decide +kernel

theorem queue_frontier : frontier.queue = [second] := by
  unfold frontier
  rw [Frontier.queue_push Frontier.valid_empty]
  rfl

theorem waiting (s : Settings.DefaultState) : frontier.contains s = decide (s ∈ [second]) := by
  have valid := Frontier.valid_push Frontier.valid_empty second
  rw [Bool.eq_iff_iff, decide_eq_true_iff, ← queue_frontier]
  exact valid.members s

end Torn

/-- The name stays on its line, and the lost predecessor of two states is declared once. -/
theorem Dot.torn_name_stays_on_its_line : defaultConfig.OneLine ∧
    Text.lines (render defaultConfig Torn.stack Torn.frontier Torn.reached) =
      ["digraph ARG \x7b", "node [shape=box, fontname=\"monospace\"];",
        "s2 [label=\"time [1]\\le2\\lt0 a\\\"\\lb\\\\.s0@L0 RUNNING\\l\x7b\x7d\"];",
        "s3 [label=\"time [2]\\le3\\l\x7b\x7d\", style=\"dashed,filled\", fillcolor=gray];",
        "s1 -> s2 [style=dotted];", "s1 -> s3 [style=dotted];", "s2 -> s3 [label=\"\"];",
        "s1 [shape=point];", "\x7d", ""] := by
  have oneLine : defaultConfig.OneLine := ⟨by decide, by decide, by decide⟩
  obtain ⟨text, -⟩ :=
    text_lists_nodes_edges_and_placeholders oneLine Torn.stack Torn.frontier Torn.reached
  refine ⟨oneLine, ?_⟩
  rw [text, Torn.toList_reached, Torn.queue_frontier]
  unfold nodeText attributes
  simp only [Torn.waiting]
  decide +kernel

end ActorAnalysis
