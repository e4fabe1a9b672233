import ActorAnalysis.Space.Basic
import ActorAnalysis.View

/-! The reachability graph in the DOT language. Every reached or waiting state is a node, dashed
while it waits; an edge is labelled with the operations between its ends. A predecessor that was
merged away stays as a small node with dotted edges. -/
namespace ActorAnalysis

structure DotConfig where
  nodeShape : String
  frontierStyle : String
  absorbedShape : String
  labelEdges : Bool

namespace Dot

def defaultConfig : DotConfig := ⟨"box", "dashed", "point", true⟩

/-- Escapes one character of a quoted text; lines are aligned to the left. -/
def escapeChar : Char → List Char
  | '"' => ['\\', '"']
  | '\\' => ['\\', '\\']
  | '\n' => ['\\', 'l']
  | c => [c]

def escape (s : String) : String := String.ofList (s.toList.flatMap escapeChar)

def quoted (s : String) : String := "\"" ++ escape s ++ "\""

structure Shown (S : Type) where
  node : GraphNode
  state : S

variable {S : Type} [DecidableEq S] [Hashable S]

/-- The states with a node by its id; the first state with an id counts. -/
def shown [HasView S] (states : List S) : SortedMap NodeId (Shown S) :=
  states.foldl (fun m s =>
    match (HasView.view s).node? with
    | none => m
    | some node => if (m.get? node.id).isSome then m else m.insert node.id ⟨node, s⟩) ∅

def label [HasView S] (s : Shown S) : String :=
  (HasView.view s.state).label ++
    (if s.node.mergeOf.size > 1 then
      "merge of " ++ ", ".intercalate (s.node.mergeOf.toList.map (fun id => s!"e{id}")) ++ "\n"
    else "")

def style (config : DotConfig) (waiting : Bool) (color : Option String) : List String :=
  match waiting, color with
  | true, none => ["style=" ++ config.frontierStyle]
  | true, some _ => ["style=\"" ++ config.frontierStyle ++ ",filled\""]
  | false, some _ => ["style=filled"]
  | false, none => []

def nodeLine [HasView S] (config : DotConfig) (frontier : Frontier S) (s : Shown S) : String :=
  let color := (HasView.view s.state).color?
  let attributes := ["label=" ++ quoted (label s)]
    ++ style config (frontier.contains s.state) color
    ++ color.toList.map (fun c => "fillcolor=" ++ c)
  s!"s{s.node.id} [" ++ ", ".intercalate attributes ++ "];\n"

def edgeLine (config : DotConfig) (A : Analysis S) (nodes : SortedMap NodeId (Shown S))
    (s : Shown S) (predecessor : NodeId) : String :=
  s!"s{predecessor} -> s{s.node.id}" ++
    (match nodes.get? predecessor with
    | none => " [style=dotted];\n"
    | some source =>
      if config.labelEdges then
        " [label=" ++ quoted ("; ".intercalate
          ((A.label source.state s.state).map Operation.text)) ++ "];\n"
      else ";\n")

def absorbed (nodes : SortedMap NodeId (Shown S)) : SortedSet NodeId :=
  .ofList ((nodes.entries.flatMap (fun e => e.2.node.predecessors.toList)).filter
    (fun id => (nodes.get? id).isNone))

def lines [HasView S] (config : DotConfig) (A : Analysis S) (frontier : Frontier S)
    (reached : Reached S) : List String :=
  let nodes := shown (reached.toList ++ frontier.queue)
  ["digraph ARG \x7b\n", "node [shape=" ++ config.nodeShape ++ ", fontname=\"monospace\"];\n"]
    ++ nodes.entries.map (fun e => nodeLine config frontier e.2)
    ++ nodes.entries.flatMap (fun e =>
      e.2.node.predecessors.toList.map (edgeLine config A nodes e.2))
    ++ (absorbed nodes).toList.map (fun id => s!"s{id} [shape=" ++ config.absorbedShape ++ "];\n")
    ++ ["\x7d\n"]

def render [HasView S] (config : DotConfig) (A : Analysis S) (frontier : Frontier S)
    (reached : Reached S) : String :=
  String.join (lines config A frontier reached)

end Dot
end ActorAnalysis
