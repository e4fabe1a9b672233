import ActorAnalysis.Proofs.Schedule.Effects
import ActorAnalysis.Proofs.Stack.Lineup

namespace ActorAnalysis

namespace Scheduled

variable {D : Type} {program : Program} {ids : Ids} {s : Scheduled D}

/-- Without aggregation, a successor comes by one step of an enabled thread. A step of the thread at
`index` names that thread. Every other thread is as it was before, but for three things. All threads
of a script are replaced by new ones, each at its own entry and all with one new number, if and only
if the step executes a broadcast that the script heeds. A thread that waits for others waits for the
unfinished ones only, and runs if these were some and are none any more. Then, if nothing runs,
those that have yielded run. -/
theorem others_restart_resume_or_stay (unambiguous : program.Unambiguous) (config : ScheduleConfig)
    (key : List Thread → PartitionKey) (inner : DataAnalysis D)
    (reachable : (analysis program config key inner).Reachable program ids s) :
    (config.aggregateAtomic = false → ∀ out after,
      ((analysis program config key inner).succ s).run ids = (.ok out, after) → ∀ u ∈ out,
        ∃ index, Scheduler.Enabled ⟨program, inner.succFor⟩ s index ∧
          Scheduler.Steps ⟨program, inner.succFor⟩ index (s, ids) (u, after)) ∧
    (∀ t ∈ s.threads, t.id < ids.threads) ∧
    ∀ index u after, Scheduler.Steps ⟨program, inner.succFor⟩ index (s, ids) (u, after) →
      u.stepped = .singleton index ∧
      (∃ op?, Scheduler.Executes ⟨program, inner.succFor⟩ index (s, ids) (u, after) op?) ∧
      ∀ op?, Scheduler.Executes ⟨program, inner.succFor⟩ index (s, ids) (u, after) op? →
        ∃ renew woken, Scheduler.StepFrame program index op? ids after renew s.threads woken
          u.threads := by
  have aligned := (aligned_invariant unambiguous config key inner True True).reachable reachable
  refine ⟨fun single out after done u hu => ?_,
    fun t ht => aligned.well.numbered t ht t.id (.inl rfl), fun index u after steps =>
      ⟨steps.stepped, steps.executes, fun op? executes =>
        executes.stepFrame unambiguous aligned.lineup.refs⟩⟩
  obtain ⟨index, c, last, enabled, steps, -, later, only⟩ := Scheduler.successors_runs done hu
  obtain rfl := only single
  obtain ⟨out, gave, member⟩ := steps
  exact ⟨index, enabled, out, gave.within (Ids.le_refl ids) later, member⟩

end Scheduled

namespace Handover

def actors : List Actor :=
  [⟨"a", [⟨0, .bootstrap, .sequence 0 "send" [.broadcastWait "go", .skip]⟩,
    ⟨1, .message "go", .sequence 1 "receive" [.skip]⟩,
    ⟨2, .bootstrap, .sequence 2 "yield" [.yield, .skip]⟩], []⟩]

theorem distinct : (relationIds actors).Nodup := by decide

def program : Program := ⟨actors, ∅, distinct⟩

theorem unambiguous : program.Unambiguous := ⟨by decide, by decide⟩

abbrev data : DataAnalysis DataState := DataState.analysis ⟨true, .all⟩

abbrev analysis : Analysis (Scheduled DataState) :=
  Scheduled.analysis program ⟨false, 1000⟩ (fun _ => 0) data

def before : Scheduled DataState :=
  .start [.start 0 "a" 0 0, (Thread.start 1 "a" 1 0).untriggered, .start 2 "a" 2 0] (.known ∅)

def waiting : Thread := { Thread.start 0 "a" 0 1 with status := .waiting, waitsFor := .singleton 3 }

def yielded : Thread := (Thread.start 2 "a" 2 1).withStatus .yielded

def sent : Scheduled DataState :=
  ⟨[waiting, .start 3 "a" 1 0, .start 2 "a" 2 0], .singleton 0, ∅, .known ∅⟩

def ready : Scheduled DataState :=
  ⟨[waiting, .start 3 "a" 1 0, yielded], .singleton 2, ∅, .known ∅⟩

/-- The receiver has set the sender running, so no new round begins. -/
def released : Scheduled DataState :=
  ⟨[.start 0 "a" 0 1, (Thread.start 3 "a" 1 1).withStatus .done, yielded], .singleton 1, ∅,
    .known ∅⟩

theorem reaches_ready : analysis.Reachable program ⟨4, 0⟩ ready := by
  have start : (analysis.initial program).run .start = (.ok [before], ⟨3, 0⟩) := rfl
  obtain ⟨paused, first⟩ : ∃ paused,
      (analysis.succ before).run ⟨3, 0⟩ = (.ok [sent, paused], ⟨4, 0⟩) := ⟨_, rfl⟩
  obtain ⟨finished, second⟩ : ∃ finished,
      (analysis.succ sent).run ⟨4, 0⟩ = (.ok [finished, ready], ⟨4, 0⟩) := ⟨_, rfl⟩
  have sends : analysis.Reachable program ⟨4, 0⟩ sent :=
    .succ (.initial start List.mem_cons_self) first List.mem_cons_self
  exact .succ sends second (List.mem_cons_of_mem _ List.mem_cons_self)

theorem releases : (analysis.succ ready).run ⟨4, 0⟩ = (.ok [released], ⟨4, 0⟩) := rfl

end Handover

/-- The sender that is released counts as running, so the thread that has yielded stays asleep. -/
theorem Scheduled.released_sender_keeps_round :
    Handover.program.Unambiguous ∧
      Handover.analysis.Reachable Handover.program ⟨4, 0⟩ Handover.ready ∧
      (Handover.analysis.succ Handover.ready).run ⟨4, 0⟩ = (.ok [Handover.released], ⟨4, 0⟩) ∧
      ∃ index op? renew woken, Scheduler.StepFrame Handover.program index op? ⟨4, 0⟩ ⟨4, 0⟩ renew
        Handover.ready.threads woken Handover.released.threads ∧ ¬Quiet woken := by
  obtain ⟨single, -, step⟩ := others_restart_resume_or_stay Handover.unambiguous _ _ _
    Handover.reaches_ready
  obtain ⟨index, -, steps⟩ := single rfl _ _ Handover.releases Handover.released List.mem_cons_self
  obtain ⟨-, ⟨op?, executes⟩, framed⟩ := step index _ _ steps
  obtain ⟨renew, woken, frame⟩ := framed op? executes
  refine ⟨Handover.unambiguous, Handover.reaches_ready, Handover.releases, index, op?, renew, woken,
    frame, fun quiet => ?_⟩
  obtain ⟨b, -, rejoins⟩ := frame.rejoined.back (j := 2) rfl
  rcases rejoins with ⟨-, same⟩ | ⟨stays, same⟩
  · exact nomatch congrArg Thread.status same
  · exact stays ⟨congrArg Thread.status same.symm, quiet⟩

end ActorAnalysis
