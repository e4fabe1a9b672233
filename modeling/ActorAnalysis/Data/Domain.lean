import ActorAnalysis.Data.State
import ActorAnalysis.Sorted.Set

namespace ActorAnalysis

abbrev Memory := SortedMap String Int64

/-- The variables whose values widening keeps. -/
inductive Precision where
  | all
  | only (vars : SortedSet String)
deriving DecidableEq

def Precision.tracks : Precision → String → Bool
  | all, _ => true
  | only vars, var => decide (var ∈ vars)

def DataState.widen (precision : Precision) : DataState → DataState
  | infeasible => infeasible
  | known m => known (m.filter (fun var _ => precision.tracks var))

structure DataDomain where
  vars : SortedSet String

namespace DataDomain

/-- The least data state that stands for all of the memories. -/
def abstract (_ : DataDomain) (memories : List Memory) : DataState :=
  AbstractLattice.joinAll (memories.map DataState.known)

def transfer (bindings : Memory) (memory : Memory) (var : String) : Except Error Memory :=
  match bindings.get? var with
  | some v => .ok (memory.insert var v)
  | none => .error .missingBinding

/-- The memories of a state, restricted to the variables of the domain; refused where one of
them is unknown. -/
def concretize (d : DataDomain) : DataState → Except Error (List Memory)
  | .infeasible => .ok []
  | .known m =>
    if d.vars.toList.any (fun var => ((DataState.known m).get var).isTop) then
      .error .openConcretization
    else do
      let memory ← d.vars.toList.foldlM (transfer m) ∅
      return [memory]

end DataDomain
end ActorAnalysis
