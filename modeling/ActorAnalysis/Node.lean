import ActorAnalysis.Analysis

/-! The abstract reachability graph: a layer that numbers the states of an analysis, remembers of
which states each one is a successor, and which states it has been merged from. -/
namespace ActorAnalysis

structure Node (W : Type) where
  id : NodeId
  predecessors : SortedSet NodeId
  /-- The nodes that were merged into this one, itself included. -/
  mergeOf : SortedSet NodeId
  inner : W
  /-- The partition keys of the inner state. -/
  keys : SortedSet PartitionKey
deriving DecidableEq, Hashable

inductive NodeWidening where
  | passThrough
  /-- It widens the inner state and keeps the node's identity. -/
  | delegate
deriving DecidableEq

namespace NodeWidening

def text : NodeWidening → String
  | passThrough => "PassThrough"
  | delegate => "Delegate"

def ofText (s : String) : Except Error NodeWidening :=
  if s = "PassThrough" ∨ s = "pass-through" then .ok passThrough
  else if s = "Delegate" ∨ s = "delegate" then .ok delegate
  else .error (.badOption "graph-widening" s)

end NodeWidening

structure GraphConfig where
  policy : MergePolicy
  widening : NodeWidening

namespace Node

variable {W : Type}

/-- Refuses a node among its own predecessors, and one outside its merge set. -/
def make (id : NodeId) (predecessors mergeOf : SortedSet NodeId) (inner : W)
    (keys : SortedSet PartitionKey) : Except Error (Node W) :=
  if id ∈ predecessors then .error (.ownPredecessor id)
  else if id ∈ mergeOf then .ok ⟨id, predecessors, mergeOf, inner, keys⟩
  else .error (.outsideMergeSet id)

def isRoot (n : Node W) : Bool := n.predecessors.isEmpty

def fresh (A : Analysis W) (predecessors mergeOf : SortedSet NodeId) (inner : W) :
    Alloc (Node W) := do
  let id ← Alloc.freshNode
  make id predecessors (mergeOf.insert id) inner (A.keys inner)

/-- A new node for both nodes. An edge from a node that is merged away into it is dropped. -/
def combine (A : Analysis W) (m n : Node W) (inner : W) : Alloc (Node W) :=
  let mergeOf := m.mergeOf.union n.mergeOf
  fresh A ((m.predecessors.union n.predecessors).filter (fun p => decide (p ∉ mergeOf)))
    mergeOf inner

def wrapping (A : Analysis W) : Wrapping (Node W) W where
  unwrap n := n.inner
  wrap n inner := { n with inner := inner, keys := A.keys inner }

/-- The graph layer over an analysis. A node that was merged into a reached one is covered. -/
def analysis (config : GraphConfig) (A : Analysis W) : Analysis (Node W) where
  initial p := do
    let states ← A.initial p
    states.mapM (fresh A ∅ ∅)
  succ n := do
    let states ← A.succ n.inner
    states.mapM (fresh A (.singleton n.id) ∅)
  join m n := do
    let inner ← A.join m.inner n.inner
    combine A m n inner
  shouldMerge m n := A.shouldMerge m.inner n.inner
  merge m n := do
    let inner ← A.merge m.inner n.inner
    combine A m n inner
  stop n reached :=
    reached.any (fun r => decide (n.id ∈ r.mergeOf)) || A.stop n.inner (reached.map Node.inner)
  widen n :=
    match config.widening with
    | .passThrough => .ok n
    | .delegate => (A.widen n.inner).map ((wrapping A).wrap n)
  target n := A.target n.inner
  keys n := n.keys
  orderKey n := A.orderKey n.inner
  label m n := A.label m.inner n.inner
  policy := config.policy
  refiner := .through (wrapping A) A.refiner

end Node
end ActorAnalysis
