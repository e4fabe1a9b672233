import ActorAnalysis.Proofs.Space.Update
import ActorAnalysis.Run

/-! What one step of a run can do: how a state is merged, how a successor is treated and how a
state is taken off the frontier. A run is a sequence of such steps, so a property that each of
them keeps is kept by every run. -/
namespace ActorAnalysis

variable {S : Type} [DecidableEq S] [Hashable S]

namespace Analysis

def candidates (A : Analysis S) (state : S) (space : Space S) : List S :=
  (space.reached.partitionOf (A.keys state)).filter (fun r => decide (r ≠ state))

/-- The space in which `merged` stands for `state` and the absorbed states. -/
def replaced (A : Analysis S) (state merged : S) (absorbed : List S) (space : Space S) : Space S :=
  ((absorbed ++ [state]).foldl Space.drop space).add merged (A.keys merged)

inductive Merging (A : Analysis S) (state : S) (space : Space S) :
    Except Error Nat × Space S → Prop where
  | skipped : A.policy = .never → Merging A state space (.ok 0, space)
  | failed {e : Error} {ids : Ids} : A.policy = .standard →
      (A.absorb state (A.candidates state space)).run space.ids = (.error e, ids) →
      Merging A state space (.error e, space.withIds ids)
  | alone {merged : S} {ids : Ids} : A.policy = .standard →
      (A.absorb state (A.candidates state space)).run space.ids = (.ok (merged, []), ids) →
      Merging A state space (.ok 0, space.withIds ids)
  | merged {merged : S} {absorbed : List S} {ids : Ids} : A.policy = .standard → absorbed ≠ [] →
      (A.absorb state (A.candidates state space)).run space.ids = (.ok (merged, absorbed), ids) →
      Merging A state space
        (.ok absorbed.length, A.replaced state merged absorbed (space.withIds ids))

theorem mergeStandard_on (A : Analysis S) (state : S) (space : Space S) :
    (MergePolicy.mergeStandard A state).on space =
      match (A.absorb state (A.candidates state space)).run space.ids with
      | (.error e, ids) => (.error e, space.withIds ids)
      | (.ok (merged, absorbed), ids) =>
        if absorbed.isEmpty then (.ok 0, space.withIds ids)
        else (.ok absorbed.length, A.replaced state merged absorbed (space.withIds ids)) := by
  have start : (MergePolicy.mergeStandard A state).on space =
      Explore.next (fun (r : S × List S) =>
        if r.2.isEmpty then pure 0
        else do
          (r.2 ++ [state]).forM Explore.retract
          let _ ← Explore.store r.1 (A.keys r.1)
          let _ ← Explore.enqueue r.1
          return r.2.length)
        ((Explore.draw (A.absorb state (A.candidates state space))).on space) := rfl
  rw [start]
  cases h : (A.absorb state (A.candidates state space)).run space.ids with | mk r ids =>
  cases r with
  | error e => rw [Explore.on_draw_error h, Explore.next_error]
  | ok r =>
    rw [Explore.on_draw_ok h, Explore.next_ok]
    dsimp only
    split
    · rfl
    · rw [Explore.on_bind, Explore.on_forM_retract]
      rfl

theorem mergeInto_merging (A : Analysis S) (state : S) (space : Space S) :
    A.Merging state space ((A.policy.mergeInto A state).on space) := by
  cases policy : A.policy with
  | never => exact .skipped policy
  | standard =>
    show A.Merging state space ((MergePolicy.mergeStandard A state).on space)
    rw [mergeStandard_on]
    split
    · rename_i e ids failed
      exact .failed policy failed
    · rename_i merged absorbed ids done
      split
      · rename_i none
        rw [List.isEmpty_iff.mp none] at done
        exact .alone policy done
      · rename_i some
        exact .merged policy (fun none => some (by simp [none])) done

/-- A successor as it is looked up: widened, if the run is told so. -/
def Widens (A : Analysis S) (config : RunConfig) (successor s : S) : Prop :=
  if config.widenSuccessors then A.widen successor = .ok s else s = successor

omit [DecidableEq S] [Hashable S] in
theorem Widens.cases {A : Analysis S} {config : RunConfig} {successor s : S}
    (wide : A.Widens config successor s) : s = successor ∨ A.widen successor = .ok s := by
  unfold Widens at wide
  split at wide
  · exact .inr wide
  · exact .inl wide

omit [DecidableEq S] [Hashable S] in
theorem Widens.eq_of_plain {A : Analysis S} {config : RunConfig} {successor s : S}
    (wide : A.Widens config successor s) (plain : config.widenSuccessors = false) :
    successor = s := by
  simpa [Widens, plain, eq_comm] using wide

def dropCount (n : Statistics) : Statistics :=
  { n with successors := n.successors + 1, stopped := n.stopped + 1 }

def addCount (A : Analysis S) (n : Statistics) (s : S) : Statistics :=
  { n with
    successors := n.successors + 1
    added := n.added + 1
    targets := n.targets + if (A.target s).isEmpty then 0 else 1 }

inductive Visited (A : Analysis S) (config : RunConfig) (p : Progress S) (successor : S)
    (space : Space S) : Except Error (Progress S) × Space S → Prop where
  | failed {e : Error} : config.widenSuccessors = true → A.widen successor = .error e →
      Visited A config p successor space (.error e, space)
  | covered {s : S} (statistics : Statistics) : A.Widens config successor s →
      A.stop s (space.reached.partitionOf (A.keys s)) = true →
      statistics = dropCount p.statistics →
      Visited A config p successor space (.ok ⟨statistics, p.targets⟩, space)
  | target {s : S} (statistics : Statistics) : A.Widens config successor s →
      A.stop s (space.reached.partitionOf (A.keys s)) = false →
      (A.target s).isEmpty = false → config.stopOnFirstTarget = true →
      statistics = A.addCount p.statistics s →
      Visited A config p successor space
        (.ok ⟨statistics, p.targets ++ [s]⟩, space.add s (A.keys s))
  | pending {s : S} (statistics : Statistics) : A.Widens config successor s →
      A.stop s (space.reached.partitionOf (A.keys s)) = false →
      ((A.target s).isEmpty = true ∨ config.stopOnFirstTarget = false) → p.targets ≠ [] →
      statistics = A.addCount p.statistics s →
      Visited A config p successor space (.ok ⟨statistics, p.targets⟩, space.add s (A.keys s))
  | merging {s : S} (statistics : Statistics) {n : Nat} {after : Space S} :
      A.Widens config successor s →
      A.stop s (space.reached.partitionOf (A.keys s)) = false →
      ((A.target s).isEmpty = true ∨ config.stopOnFirstTarget = false) → p.targets = [] →
      A.Merging s (space.add s (A.keys s)) (.ok n, after) →
      statistics = { A.addCount p.statistics s with merged := p.statistics.merged + n } →
      Visited A config p successor space (.ok ⟨statistics, []⟩, after)
  | unmerged {s : S} {e : Error} {after : Space S} : A.Widens config successor s →
      A.stop s (space.reached.partitionOf (A.keys s)) = false → p.targets = [] →
      A.Merging s (space.add s (A.keys s)) (.error e, after) →
      Visited A config p successor space (.error e, after)

theorem accept_visited {A : Analysis S} {config : RunConfig} {p : Progress S} {successor s : S}
    {space : Space S} (widens : A.Widens config successor s)
    (stop : A.stop s (space.reached.partitionOf (A.keys s)) = false) :
    A.Visited config p successor space ((A.accept config { p with
      statistics := { p.statistics with successors := p.statistics.successors + 1 } } s).on
        space) := by
  unfold accept
  dsimp only
  rw [Explore.on_bind]
  show A.Visited config p successor space ((Explore.enqueue s >>= _).on _)
  rw [Explore.on_bind]
  show A.Visited config p successor space (Explore.on (if _ then _ else _) (space.add s (A.keys s)))
  split
  · rename_i halts
    simp only [Bool.and_eq_true, Bool.not_eq_true'] at halts
    exact .target _ widens stop halts.1 halts.2 (by simp [addCount, halts.1])
  · rename_i goes
    have plain : (A.target s).isEmpty = true ∨ config.stopOnFirstTarget = false := by
      cases h : (A.target s).isEmpty
      · exact .inr (by simpa [h] using goes)
      · exact .inl rfl
    split
    · rename_i none
      have none : p.targets = [] := List.isEmpty_iff.mp none
      have merging := A.mergeInto_merging s (space.add s (A.keys s))
      rw [Explore.on_bind]
      cases h : (A.policy.mergeInto A s).on (space.add s (A.keys s)) with | mk r after =>
      rw [h] at merging
      cases r with
      | error e => exact .unmerged widens stop none merging
      | ok n =>
        simp only [none]
        refine .merging _ widens stop plain none merging ?_
        cases h : (A.target s).isEmpty <;> simp [addCount, h]
    · rename_i some
      refine .pending _ widens stop plain (fun none => some (by simp [none])) ?_
      cases h : (A.target s).isEmpty <;> simp [addCount, h]

theorem visit_visited (A : Analysis S) (config : RunConfig) (p : Progress S) (successor : S)
    (space : Space S) :
    A.Visited config p successor space ((A.visit config p successor).on space) := by
  have lookup {s : S} (widens : A.Widens config successor s) :
      A.Visited config p successor space
        ((if A.stop s (space.reached.partitionOf (A.keys s)) then
          pure { p with statistics := dropCount p.statistics }
        else A.accept config { p with
          statistics := { p.statistics with successors := p.statistics.successors + 1 } } s).on
            space) := by
    split
    · rename_i stop
      exact .covered _ widens stop rfl
    · rename_i stop
      exact accept_visited widens (by simpa using stop)
  unfold visit
  dsimp only
  cases flag : config.widenSuccessors with
  | false => exact lookup (by simp [Widens, flag])
  | true =>
    cases widened : A.widen successor with
    | error e => exact .failed flag widened
    | ok s => exact lookup (by simp [Widens, flag, widened])

end Analysis
end ActorAnalysis
