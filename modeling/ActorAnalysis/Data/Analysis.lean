import ActorAnalysis.Analysis
import ActorAnalysis.Data.Domain

namespace ActorAnalysis

structure DataConfig where
  mergeStates : Bool
  precision : Precision

namespace DataState

def step (s : DataState) (op : Operation) : List DataState :=
  match s with
  | infeasible => []
  | known _ =>
    let next := match op with
      | .assign var expr => s.assign var expr
      | .assume cond => s.assume cond
      | _ => s
    if next.isInfeasible then [] else [next]

def refiner : Refiner DataState :=
  ⟨fun s => .ok (AbstractLattice.feasible s), fun _ => .ok none⟩

def analysis (config : DataConfig) : DataAnalysis DataState where
  initial program := pure [known program.vars]
  succ _ := .fail .unlabeledStep
  join s t := pure (s.join t)
  shouldMerge _ _ := config.mergeStates
  merge s t := pure (s.join t)
  stop s reached := reached.any s.included
  widen s := .ok (s.widen config.precision)
  target _ := ∅
  keys _ := ∅
  orderKey _ := []
  label _ _ := []
  policy := .never
  refiner := refiner
  succFor s op := .ok (s.step op)

end DataState
end ActorAnalysis
