import ActorAnalysis.Ids
import ActorAnalysis.Program.Basic

/-! What an analysis is: states with a transfer relation, a merge, a coverage check and a
refiner. An analysis may wrap another one; then each of its states holds an inner state. -/
namespace ActorAnalysis

/-- A hint under which reached states are looked up. -/
abbrev PartitionKey := Nat

inductive MergePolicy where
  | never
  /-- The state absorbs the reached states of its partition that may be merged with it. -/
  | standard
deriving DecidableEq

namespace MergePolicy

def text : MergePolicy → String
  | never => "NoMergeIntoOperator"
  | standard => "StandardMergeIntoOperator"

def ofText (s : String) : Except Error MergePolicy :=
  if s = "NoMergeIntoOperator" ∨ s = "no-merge" then .ok never
  else if s = "StandardMergeIntoOperator" ∨ s = "standard" then .ok standard
  else .error (.badOption "merge-into-operator" s)

end MergePolicy

/-- Tells genuine violations from spurious ones. -/
structure Refiner (S : Type) where
  feasible : S → Except Error Bool
  /-- A replacement of a spurious state; none if it is to be dropped. -/
  refine : S → Except Error (Option S)

structure Wrapping (O I : Type) where
  unwrap : O → I
  wrap : O → I → O

namespace Refiner

def trusting (S : Type) : Refiner S := ⟨fun _ => .ok true, fun _ => .ok none⟩

def through {O I : Type} (w : Wrapping O I) (r : Refiner I) : Refiner O where
  feasible o := r.feasible (w.unwrap o)
  refine o := (r.refine (w.unwrap o)).map (fun refined => refined.map (w.wrap o))

end Refiner

structure Analysis (S : Type) where
  initial : Program → Alloc (List S)
  succ : S → Alloc (List S)
  join : S → S → Alloc S
  shouldMerge : S → S → Bool
  /-- Merges two states for which `shouldMerge` holds. -/
  merge : S → S → Alloc S
  /-- Whether a state is covered by one of the given states. -/
  stop : S → List S → Bool
  widen : S → Except Error S
  target : S → SortedSet Property
  keys : S → SortedSet PartitionKey
  orderKey : S → List Nat
  /-- The operations that lead from a state to its successor. -/
  label : S → S → List Operation
  policy : MergePolicy
  refiner : Refiner S

/-- An analysis of data, which can step along one given operation. -/
structure DataAnalysis (D : Type) extends Analysis D where
  succFor : D → Operation → Except Error (List D)

end ActorAnalysis
