import ActorAnalysis.Proofs.Bounded
import ActorAnalysis.Proofs.Run.Trace
import ActorAnalysis.Proofs.Space.Order

namespace ActorAnalysis

variable {S : Type} [DecidableEq S] [Hashable S]

structure Space.Contained (space : Space S) : Prop where
  valid : space.Valid
  waiting : ∀ s ∈ space.frontier.queue, s ∈ space.reached.toList

namespace Space.Contained

variable {space : Space S} (contained : space.Contained)
include contained

theorem add (s : S) (keys : SortedSet PartitionKey) : (space.add s keys).Contained where
  valid := contained.valid.add s keys
  waiting x hx := by
    rw [mem_reached_add contained.valid]
    rcases (mem_frontier_add contained.valid s x keys).mp hx with same | waits
    · exact .inl same
    · exact .inr (contained.waiting x waits)

theorem drop (s : S) : (space.drop s).Contained where
  valid := contained.valid.drop s
  waiting x hx := by
    obtain ⟨waits, other⟩ := (mem_frontier_drop contained.valid s x).mp hx
    exact (mem_reached_drop contained.valid s x).mpr ⟨contained.waiting x waits, other⟩

theorem dropAll (l : List S) : (l.foldl Space.drop space).Contained := by
  induction l generalizing space with
  | nil => exact contained
  | cons s rest ih => exact ih (contained.drop s)

theorem withIds (ids : Ids) : (space.withIds ids).Contained :=
  ⟨contained.valid, contained.waiting⟩

theorem popped {s : S} {after : Space S} (taken : space.Popped s after) : after.Contained where
  valid := taken.valid
  waiting x hx := by
    have waits := ((taken.frontier x).mp hx).1
    exact taken.reached ▸ contained.waiting x waits

theorem replaced (A : Analysis S) (state merged : S) (absorbed : List S) :
    (A.replaced state merged absorbed space).Contained :=
  (contained.dropAll (absorbed ++ [state])).add merged (A.keys merged)

theorem merging {A : Analysis S} {state : S} {after : Space S} {r : Except Error Nat}
    (merging : A.Merging state space (r, after)) : after.Contained := by
  cases merging with
  | skipped => exact contained
  | failed => exact contained.withIds _
  | alone => exact contained.withIds _
  | merged => exact (contained.withIds _).replaced A _ _ _

theorem mergeInto (policy : MergePolicy) (A : Analysis S) (state : S) :
    ((policy.mergeInto A state).on space).2.Contained := by
  cases policy with
  | never => exact contained
  | standard =>
    change ((MergePolicy.mergeStandard A state).on space).2.Contained
    rw [Analysis.mergeStandard_on]
    split
    · exact contained.withIds _
    · split
      · exact contained.withIds _
      · exact (contained.withIds _).replaced A _ _ _

theorem visited {A : Analysis S} {config : RunConfig} {p : Progress S} {t : S} {after : Space S}
    {r : Except Error (Progress S)} (visited : A.Visited config p t space (r, after)) :
    after.Contained := by
  cases visited with
  | failed => exact contained
  | covered => exact contained
  | target => exact contained.add _ _
  | pending => exact contained.add _ _
  | merging _ _ _ _ _ merging => exact (contained.add _ _).merging merging
  | unmerged _ _ _ merging => exact (contained.add _ _).merging merging

end Space.Contained

namespace Analysis

variable (A : Analysis S)

theorem visit_contained (config : RunConfig) (p : Progress S) (t : S) :
    Explore.Contract Space.Contained (A.visit config p t) (fun _ => Space.Contained)
      Space.Contained := by
  intro space contained
  have visited := A.visit_visited config p t space
  cases done : (A.visit config p t).on space with | mk r after =>
  rw [done] at visited
  have kept : after.Contained := contained.visited visited
  cases r with
  | ok => exact kept
  | error => exact kept

theorem expand_contained (config : RunConfig) (statistics : Statistics) {s : S} {popped : Space S}
    (contained : popped.Contained) :
    Explore.Contract (fun space => space = popped) (A.expand config statistics s)
      (fun _ => Space.Contained) Space.Contained := by
  have steps : Explore.Contract (fun space => space = popped) (A.expand config statistics s)
      (fun _ space => ∃ _ : List S, space.Contained) Space.Contained :=
    expand_contract statistics (fun _ _ _ => Space.Contained)
      (fun _ ids _ => contained.withIds ids) (fun _ ids _ => contained.withIds ids)
      (fun _ p t _ => A.visit_contained config p t)
  exact steps.weaken fun _ _ done => done.choose_spec

theorem run_contained (config : RunConfig) (fuel : Nat) :
    Explore.Contract Space.Contained (A.run config fuel) (fun _ => Space.Contained)
      Space.Contained := by
  have ran := runFrom_contract (fun _ => Space.Contained) (fun _ contained => contained.valid)
    (fun statistics s before popped contained taken =>
      (A.expand_contained config statistics (contained.popped taken)).weaken
        fun _ _ kept => ⟨fun _ => kept, fun _ => kept⟩) fuel {}
  exact ran.weaken fun _ _ => Ended.kept

theorem seed_contained (program : Program) {space : Space S} (contained : space.Contained) :
    ((A.seed program).on space).2.Contained := by
  have seeded : Explore.Contract (fun before => before = space) (A.seed program)
      (fun _ space => ∃ _ : List S, space.Contained) Space.Contained := by
    apply seed_contract (fun _ _ => Space.Contained) (fun _ ids _ => contained.withIds ids)
      (fun _ ids _ => contained.withIds ids)
    intro out s rest before kept
    split
    · exact kept
    · exact kept.add s (A.keys s)
  exact (seeded.weaken fun _ _ done => done.choose_spec).always rfl

theorem retract_contained (s : S) :
    Explore.Contract Space.Contained (A.retract s) (fun _ => Space.Contained)
      Space.Contained := by
  intro space contained
  have dropped := contained.drop s
  rcases A.retract_cases s space with ⟨e, done⟩ | done | ⟨r, -, -, done⟩
  · rw [done]
    exact dropped
  · rw [done]
    exact dropped
  · rw [done]
    exact dropped.add r (A.keys r)

theorem examine_contained (refinements : Nat) (targets : List S) :
    Explore.Contract Space.Contained (A.examine refinements targets) (fun _ => Space.Contained)
      Space.Contained := by
  induction targets generalizing refinements with
  | nil =>
    intro space contained
    exact contained
  | cons s rest ih =>
    have asked : Explore.Contract Space.Contained
        (Explore.ofExcept (A.refiner.feasible s) : Explore S Bool) (fun _ => Space.Contained)
        Space.Contained := by
      intro space contained
      cases h : A.refiner.feasible s with
      | ok genuine => exact contained
      | error e => exact contained
    apply asked.bind
    intro genuine
    split
    · intro space contained
      exact contained
    · exact (A.retract_contained s).bind fun _ => ih (refinements + 1)

/-- The frontier stays within the reached set: when an exploration starts, runs, merges a state or
is checked, and whether or not that succeeds. -/
theorem frontier_stays_reached {space : Space S} (contained : space.Contained) :
    (∀ program, ((A.seed program).on space).2.Contained) ∧
      (∀ config fuel, ((A.run config fuel).on space).2.Contained) ∧
      (∀ (policy : MergePolicy) state, ((policy.mergeInto A state).on space).2.Contained) ∧
      ∀ config bounded fuel, ((A.check config bounded fuel).on space).2.Contained := by
  refine ⟨fun program => A.seed_contained program contained, fun config fuel => ?_,
    fun policy state => contained.mergeInto policy A state, fun config bounded fuel => ?_⟩
  · exact (A.run_contained config fuel).always contained
  · have run := A.run_contained (halting bounded config) fuel
    exact checkRounds_keeps run A.examine_contained bounded.maxRounds ⟨0, 0, {}⟩ contained

end Analysis

namespace Chain

def waiting : Space Table.State := seeded.add other ∅

theorem queue_waiting : waiting.frontier.queue = [first, other] := by
  change (seeded.frontier.push other).2.queue = _
  rw [Frontier.queue_push valid_seeded.1, queue_seeded]
  decide

theorem contained_waiting : waiting.Contained := by
  have empty : (⟨.start, ∅, ∅⟩ : Space Table.State).Contained :=
    ⟨Space.valid_empty _, fun _ waits => absurd waits List.not_mem_nil⟩
  exact (empty.add first _).add other ∅

/-- The run has taken a state off the frontier when it fails; another one waits. -/
theorem contained_after_failure : ∃ e after,
    (analysis.run ⟨.fifo, none, false, true⟩ 1).on waiting = (.error e, after) ∧
      other ∈ after.frontier.queue ∧ after.Contained := by
  have kept := (analysis.frontier_stays_reached contained_waiting).2.1 ⟨.fifo, none, false, true⟩ 1
  obtain ⟨popped, pops, taken, left⟩ :=
    Analysis.popNext_fifo (A := analysis) contained_waiting.valid queue_waiting
  have succ : (analysis.succ first).run popped.ids = (.ok [last], .start) := by
    rw [taken.ids]
    exact succ_first
  have fails : (analysis.run ⟨.fifo, none, false, true⟩ 1).on waiting =
      (.error (.refused "widen" 1), popped.withIds .start) :=
    Analysis.runFrom_fails {} 0 rfl pops
      ((Analysis.expand_single succ).trans (Analysis.visit_fails _ rfl rfl))
  rw [fails] at kept
  exact ⟨_, _, fails, by simp [left], kept⟩

end Chain
end ActorAnalysis
