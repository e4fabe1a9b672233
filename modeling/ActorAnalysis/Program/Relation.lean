import ActorAnalysis.Program.Operation
import ActorAnalysis.Sorted.Set

namespace ActorAnalysis

abbrev Location := Nat

structure Transition where
  source : Location
  op : Operation
  target : Location
deriving DecidableEq

structure Relation where
  id : Nat
  name : String
  entry : SortedSet Location
  exit : SortedSet Location
  transitions : List Transition
deriving DecidableEq

namespace Relation

def chain (start : Location) : List Operation → List Transition
  | [] => []
  | op :: rest => ⟨start, op, start + 1⟩ :: chain (start + 1) rest

/-- The straight line from entry 0 through all of `ops` to the exit behind the last. -/
def sequence (id : Nat) (name : String) (ops : List Operation) : Relation where
  id := id
  name := name
  entry := .singleton 0
  exit := .singleton ops.length
  transitions := chain 0 ops

def isEntry (r : Relation) (loc : Location) : Bool := decide (loc ∈ r.entry)

def isExit (r : Relation) (loc : Location) : Bool := decide (loc ∈ r.exit)

def locations (r : Relation) : SortedSet Location :=
  r.transitions.foldl (fun s t => (s.insert t.source).insert t.target) (r.entry.union r.exit)

def outgoing (r : Relation) (loc : Location) : List Transition :=
  r.transitions.filter (fun t => decide (t.source = loc))

def between (r : Relation) (a b : Location) : List Operation :=
  (r.transitions.filter (fun t => decide (t.source = a ∧ t.target = b))).map Transition.op

end Relation
end ActorAnalysis
