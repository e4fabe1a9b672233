import ActorAnalysis.Space.Basic

namespace ActorAnalysis

namespace Analysis

variable {S : Type}

/-- Merges `state` with each candidate in turn, as far as they may be merged. Gives the result and
the absorbed candidates. -/
def absorb (A : Analysis S) (state : S) : List S → Alloc (S × List S)
  | [] => pure (state, [])
  | r :: rest =>
    if A.shouldMerge state r then do
      let merged ← A.merge state r
      let (final, absorbed) ← A.absorb merged rest
      return (final, r :: absorbed)
    else A.absorb state rest

end Analysis

namespace MergePolicy

variable {S : Type} [DecidableEq S] [Hashable S]

/-- Replaces `state` and the states that it absorbs by the merged one, in both sets. Gives the
number of absorbed states; if there is none, nothing changes. -/
def mergeStandard (A : Analysis S) (state : S) : Explore S Nat := do
  let candidates :=
    ((← Explore.reached).partitionOf (A.keys state)).filter (fun r => decide (r ≠ state))
  let (merged, absorbed) ← Explore.draw (A.absorb state candidates)
  if absorbed.isEmpty then return 0
  else
    (absorbed ++ [state]).forM Explore.retract
    let _ ← Explore.store merged (A.keys merged)
    let _ ← Explore.enqueue merged
    return absorbed.length

def mergeInto (policy : MergePolicy) (A : Analysis S) (state : S) : Explore S Nat :=
  match policy with
  | never => pure 0
  | standard => mergeStandard A state

end MergePolicy
end ActorAnalysis
