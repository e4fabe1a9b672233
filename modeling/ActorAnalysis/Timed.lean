import ActorAnalysis.Analysis

/-! Logical time: a layer that counts the steps to a state and keeps the most recent time stamps.
Only merging looks at them. -/
namespace ActorAnalysis

abbrev Profile := List Nat

namespace Profile

/-- Pointwise maximum; the longer profile gives its tail. -/
def merge : Profile → Profile → Profile
  | [], q => q
  | p, [] => p
  | a :: p, b :: q => max a b :: merge p q

/-- Appends the next time stamp and keeps the last `window` of them. -/
def advance (window : Nat) (p : Profile) : Profile :=
  let next := match p.getLast? with
    | some t => t + 1
    | none => 1
  (p ++ [next]).drop (p.length + 1 - window)

end Profile

structure Timed (W : Type) where
  profile : Profile
  inner : W
deriving DecidableEq, Hashable

structure TimeConfig where
  window : Nat

namespace Timed

variable {W : Type}

def wrapping (W : Type) : Wrapping (Timed W) W where
  unwrap s := s.inner
  wrap s inner := { s with inner := inner }

def analysis (config : TimeConfig) (A : Analysis W) : Analysis (Timed W) where
  initial p := do
    let states ← A.initial p
    return states.map (Timed.mk [])
  succ s := do
    let states ← A.succ s.inner
    return states.map (Timed.mk (s.profile.advance config.window))
  join s t :=
    if s.profile.length = t.profile.length then do
      let inner ← A.join s.inner t.inner
      return ⟨s.profile.merge t.profile, inner⟩
    else .fail .joinOfProfiles
  shouldMerge s t :=
    decide (s.profile.length = t.profile.length) && A.shouldMerge s.inner t.inner
  merge s t := do
    let inner ← A.merge s.inner t.inner
    return ⟨s.profile.merge t.profile, inner⟩
  stop s reached := A.stop s.inner (reached.map Timed.inner)
  widen s := (A.widen s.inner).map (Timed.mk s.profile)
  target s := A.target s.inner
  keys s := A.keys s.inner
  orderKey s := A.orderKey s.inner
  label s t := A.label s.inner t.inner
  policy := A.policy
  refiner := .through (wrapping W) A.refiner

end Timed
end ActorAnalysis
