import ActorAnalysis.Space.Merge

namespace ActorAnalysis

inductive FrontierOrder where
  /-- The oldest: breadth first. -/
  | fifo
  /-- The newest: depth first. -/
  | lifo
  /-- The least order key, and the oldest of equals. -/
  | orderKey
deriving DecidableEq

structure RunConfig where
  order : FrontierOrder
  maxIterations : Option Nat
  /-- Whether a run halts behind the first expansion that finds a violation. -/
  stopOnFirstTarget : Bool
  /-- Whether successors are widened before they are looked up. -/
  widenSuccessors : Bool

/-- Counters of a run. An added successor is one that was not covered; a target is an added
successor that violates a property. -/
structure Statistics where
  iterations : Nat := 0
  successors : Nat := 0
  stopped : Nat := 0
  added : Nat := 0
  merged : Nat := 0
  targets : Nat := 0
deriving DecidableEq

namespace Statistics

def plus (a b : Statistics) : Statistics where
  iterations := a.iterations + b.iterations
  successors := a.successors + b.successors
  stopped := a.stopped + b.stopped
  added := a.added + b.added
  merged := a.merged + b.merged
  targets := a.targets + b.targets

def text (s : Statistics) : String :=
  s!"iterations={s.iterations} successors={s.successors} stopped={s.stopped} added={s.added} " ++
    s!"merged={s.merged} targets={s.targets}"

end Statistics

inductive RunStatus (S : Type) where
  | completed
  /-- All allowed iterations are used up, and states are left in the frontier. -/
  | iterationBound
  /-- The last expansion found these violations, in this order; they are in both sets. -/
  | targetsFound (targets : List S)

structure RunOutcome (S : Type) where
  status : RunStatus S
  statistics : Statistics

structure Progress (S : Type) where
  statistics : Statistics
  targets : List S

namespace Analysis

variable {S : Type} [DecidableEq S] [Hashable S]

def addInitial (A : Analysis S) (added : Nat) (s : S) : Explore S Nat := do
  if ← Explore.store s (A.keys s) then
    let _ ← Explore.enqueue s
    return added + 1
  else return added

def seed (A : Analysis S) (program : Program) : Explore S Nat := do
  let states ← Explore.draw (A.initial program)
  states.foldlM A.addInitial 0

def popNext (A : Analysis S) (order : FrontierOrder) : Explore S (Option S) :=
  Explore.pop (match order with
    | .fifo => Frontier.popFront?
    | .lifo => Frontier.popBack?
    | .orderKey => Frontier.popMinBy? A.orderKey)

/-- Adds a successor that is not covered, and merges it unless a violation is pending. -/
def accept (A : Analysis S) (config : RunConfig) (p : Progress S) (s : S) :
    Explore S (Progress S) := do
  let stats := { p.statistics with added := p.statistics.added + 1 }
  let _ ← Explore.store s (A.keys s)
  let _ ← Explore.enqueue s
  let isTarget := !(A.target s).isEmpty
  let stats := if isTarget then { stats with targets := stats.targets + 1 } else stats
  if isTarget && config.stopOnFirstTarget then return ⟨stats, p.targets ++ [s]⟩
  else if p.targets.isEmpty then
    let absorbed ← A.policy.mergeInto A s
    return ⟨{ stats with merged := stats.merged + absorbed }, p.targets⟩
  else return ⟨stats, p.targets⟩

/-- Treats one successor: it is widened on demand, and dropped if it is covered. -/
def visit (A : Analysis S) (config : RunConfig) (p : Progress S) (successor : S) :
    Explore S (Progress S) := do
  let stats := { p.statistics with successors := p.statistics.successors + 1 }
  let s ← if config.widenSuccessors then Explore.ofExcept (A.widen successor) else pure successor
  if A.stop s ((← Explore.reached).partitionOf (A.keys s)) then
    return { p with statistics := { stats with stopped := stats.stopped + 1 } }
  else A.accept config { p with statistics := stats } s

def expand (A : Analysis S) (config : RunConfig) (statistics : Statistics) (s : S) :
    Explore S (Progress S) := do
  let successors ← Explore.draw (A.succ s)
  successors.foldlM (A.visit config) ⟨statistics, []⟩

def atBound (config : RunConfig) (statistics : Statistics) : Bool :=
  match config.maxIterations with
  | some bound => decide (bound ≤ statistics.iterations)
  | none => false

/-- Runs from the given counters on; none if the run has not ended after `fuel` expansions. -/
def runFrom (A : Analysis S) (config : RunConfig) :
    Nat → Statistics → Explore S (Option (RunOutcome S))
  | 0, _ => pure none
  | fuel + 1, statistics => do
    if atBound config statistics && !(← Explore.frontier).isEmpty then
      return some ⟨.iterationBound, statistics⟩
    else
      match ← A.popNext config.order with
      | none => return some ⟨.completed, statistics⟩
      | some s =>
        let p ← A.expand config
          { statistics with iterations := statistics.iterations + 1 } s
        if p.targets.isEmpty then A.runFrom config fuel p.statistics
        else return some ⟨.targetsFound p.targets, p.statistics⟩

/-- Expands states until the frontier is empty, the bound is reached or, on demand, a violation is
found. An exploration need not end, so `fuel` limits the number of expansions; none if it does not
suffice. -/
def run (A : Analysis S) (config : RunConfig) (fuel : Nat) :
    Explore S (Option (RunOutcome S)) :=
  A.runFrom config fuel {}

def violatedProperties (A : Analysis S) (reached : Reached S) : SortedSet Property :=
  reached.toList.foldl (fun found s => found.union (A.target s)) ∅

end Analysis
end ActorAnalysis
