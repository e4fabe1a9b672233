import ActorAnalysis.Run

/-! Bounded model checking: runs are repeated until a genuine violation is found, the frontier is
empty, or the rounds are used up. Spurious violations are replaced by their refinement, or
dropped, between the rounds. -/
namespace ActorAnalysis

structure BoundedConfig where
  maxRounds : Nat
  iterationsPerRound : Option Nat

inductive Verdict (S : Type) where
  /-- The frontier is empty, and no genuine violation was found. -/
  | safe
  | boundReached
  | violation (state : S) (properties : SortedSet Property)

structure BoundedReport (S : Type) where
  verdict : Verdict S
  rounds : Nat
  refinements : Nat
  statistics : Statistics

structure Tally where
  rounds : Nat
  refinements : Nat
  statistics : Statistics

namespace Analysis

variable {S : Type} [DecidableEq S] [Hashable S]

def retract (A : Analysis S) (spurious : S) : Explore S Unit := do
  Explore.retract spurious
  match ← Explore.ofExcept (A.refiner.refine spurious) with
  | none => return ()
  | some refined =>
    if ← Explore.store refined (A.keys refined) then
      let _ ← Explore.enqueue refined
      return ()
    else return ()

/-- The first genuine violation among `targets`; the spurious ones before it are retracted. Gives
also the number of refinements. -/
def examine (A : Analysis S) (refinements : Nat) : List S → Explore S (Option S × Nat)
  | [] => pure (none, refinements)
  | s :: rest => do
    if ← Explore.ofExcept (A.refiner.feasible s) then return (some s, refinements)
    else
      A.retract s
      A.examine (refinements + 1) rest

def verdictAtEnd (frontier : Frontier S) : Verdict S :=
  if frontier.isEmpty then .safe else .boundReached

def checkRounds (A : Analysis S) (config : RunConfig) (fuel : Nat) :
    Nat → Tally → Explore S (Option (BoundedReport S))
  | 0, t => do
    return some ⟨verdictAtEnd (← Explore.frontier), t.rounds, t.refinements, t.statistics⟩
  | rounds + 1, t => do
    if (← Explore.frontier).isEmpty then return some ⟨.safe, t.rounds, t.refinements, t.statistics⟩
    else
      match ← A.run config fuel with
      | none => return none
      | some outcome =>
        let t : Tally :=
          { t with rounds := t.rounds + 1, statistics := t.statistics.plus outcome.statistics }
        match outcome.status with
        | .completed =>
          return some ⟨verdictAtEnd (← Explore.frontier), t.rounds, t.refinements, t.statistics⟩
        | .iterationBound => A.checkRounds config fuel rounds t
        | .targetsFound targets =>
          match ← A.examine t.refinements targets with
          | (some s, refinements) =>
            return some ⟨.violation s (A.target s), t.rounds, refinements, t.statistics⟩
          | (none, refinements) =>
            A.checkRounds config fuel rounds { t with refinements := refinements }

/-- Checks the states that can be reached from the frontier. Each round stops at violations and
takes its bound from `bounded`; `fuel` limits each round, and none is given if it does not
suffice. -/
def check (A : Analysis S) (config : RunConfig) (bounded : BoundedConfig) (fuel : Nat) :
    Explore S (Option (BoundedReport S)) :=
  A.checkRounds
    { config with stopOnFirstTarget := true, maxIterations := bounded.iterationsPerRound }
    fuel bounded.maxRounds ⟨0, 0, {}⟩

end Analysis
end ActorAnalysis
