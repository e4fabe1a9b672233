import ActorAnalysis.Data.State
import ActorAnalysis.Node
import ActorAnalysis.Schedule.Restart
import ActorAnalysis.Timed

namespace ActorAnalysis

inductive View where
  | time (profile : Profile) (inner : View)
  | node (id : NodeId) (predecessors mergeOf : SortedSet NodeId) (inner : View)
  | schedule (threads : List Thread) (stepped : SortedSet Nat) (violated : SortedSet Property)
      (inner : View)
  | data (text : String)

class HasView (S : Type) where
  view : S → View

instance : HasView DataState := ⟨fun s => .data s.text⟩

instance {D : Type} [HasView D] : HasView (Scheduled D) :=
  ⟨fun s => .schedule s.threads s.stepped s.violated (HasView.view s.data)⟩

instance {W : Type} [HasView W] : HasView (Node W) :=
  ⟨fun n => .node n.id n.predecessors n.mergeOf (HasView.view n.inner)⟩

instance {W : Type} [HasView W] : HasView (Timed W) :=
  ⟨fun s => .time s.profile (HasView.view s.inner)⟩

structure GraphNode where
  id : NodeId
  predecessors : SortedSet NodeId
  mergeOf : SortedSet NodeId

structure ScriptLocation where
  ref : ScriptRef
  location : Location

namespace View

def dataText : View → String
  | time _ inner | node _ _ _ inner | schedule _ _ _ inner => inner.dataText
  | data text => text

def node? : View → Option GraphNode
  | node id predecessors mergeOf _ => some ⟨id, predecessors, mergeOf⟩
  | time _ inner | schedule _ _ _ inner => inner.node?
  | data _ => none

def locations : View → List ScriptLocation
  | schedule threads stepped _ _ =>
    stepped.toList.filterMap (fun i =>
      threads[i]?.map (fun t => ⟨⟨t.actor, t.script⟩, t.location⟩))
  | time _ inner | node _ _ _ inner => inner.locations
  | data _ => []

/-- The line of each thread; a star marks those that were stepped last. -/
def threadLines (threads : List Thread) (stepped : SortedSet Nat) : List String :=
  threads.zipIdx.map (fun (t, i) => (if i ∈ stepped then "*" else "") ++ t.text ++ "\n")

/-- One line or more for each layer, from the outside in. -/
def label : View → String
  | time profile inner =>
    "time [" ++ ", ".intercalate (profile.map (fun t => toString t)) ++ "]\n" ++ inner.label
  | node id _ _ inner => s!"e{id}\n" ++ inner.label
  | schedule threads stepped violated inner =>
    String.join (threadLines threads stepped)
      ++ (if violated.isEmpty then ""
        else "violates " ++ ", ".intercalate (violated.toList.map Property.name) ++ "\n")
      ++ inner.label
  | data text => text

/-- Red where a property is violated, gray where every thread is done. -/
def color? : View → Option String
  | schedule threads _ violated _ =>
    if !violated.isEmpty then some "red"
    else if threads.all (fun t => decide (t.status = .done)) then some "gray"
    else none
  | time _ inner | node _ _ _ inner => inner.color?
  | data _ => none

end View
end ActorAnalysis
