namespace ActorAnalysis

inductive Error where
  /-- The data layer steps only along a given operation. -/
  | unlabeledStep
  /-- A data state with an unknown variable stands for too many memories to list. -/
  | openConcretization
  | missingScript (actor : String) (script : Nat)
  | joinOfThreads
  | joinOfProfiles
  /-- A tabulated system refuses the operation in the given state. -/
  | refused (operation : String) (state : Nat)
  | badOption (key value : String)
  | emptyProperty
  | repeatedRelation (id : Nat)
  | ownPredecessor (node : Nat)
  | outsideMergeSet (node : Nat)
  | mergeOfThreads
  | foreignProgram
  | missingThread (index count : Nat)
  /-- A memory is read at a variable that it does not bind. -/
  | missingBinding
deriving DecidableEq

namespace Error

inductive Kind where
  | notImplemented
  | illegalArgument
  | illegalConfiguration
  | breach
deriving DecidableEq

def kind : Error → Kind
  | unlabeledStep | openConcretization => .notImplemented
  | missingScript .. | joinOfThreads | joinOfProfiles | refused .. => .illegalArgument
  | badOption .. => .illegalConfiguration
  | emptyProperty | repeatedRelation .. | ownPredecessor .. | outsideMergeSet ..
  | mergeOfThreads | foreignProgram | missingThread .. | missingBinding => .breach

def message : Error → String
  | unlabeledStep => "unlabeled abstract successor is not implemented for ValueAnalysis"
  | openConcretization => "concretize of non-constant state is not implemented for ValueDomain"
  | missingScript actor script =>
    s!"illegal argument: no script s{script} in actor " ++ actor
  | joinOfThreads => "illegal argument: cannot join control states with different threads"
  | joinOfProfiles => "illegal argument: cannot join time states with profiles of different length"
  | refused operation state => s!"illegal argument: {operation} of {state}"
  | badOption key value => s!"illegal configuration value for `{key}`: {value}"
  | emptyProperty => "Property names must not be empty"
  | repeatedRelation id => s!"Duplicate transition relation id R{id}"
  | ownPredecessor node => s!"Graph state e{node} must not be its own predecessor"
  | outsideMergeSet node => s!"Merge set of graph state e{node} must contain its id"
  | mergeOfThreads => "Merged control states must have identical threads"
  | foreignProgram => "ControlAnalysis was built for a different program"
  | missingThread index count =>
    s!"index out of bounds: the len is {count} but the index is {index}"
  | missingBinding => "no entry found for key"

end Error
end ActorAnalysis
