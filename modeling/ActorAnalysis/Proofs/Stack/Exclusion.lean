import ActorAnalysis.Proofs.Schedule.Others
import ActorAnalysis.Proofs.Stack.Scheduling

namespace ActorAnalysis

namespace Guarded

def actors : List Actor :=
  [⟨"a", [⟨0, .bootstrap, .sequence 0 "send" [.beginAtomic, .skip, .broadcast "go", .endAtomic]⟩,
    ⟨1, .message "go", .sequence 1 "receive" [.skip]⟩], []⟩]

theorem distinct : (relationIds actors).Nodup := by
  change [0, 1].Nodup
  decide

def program : Program := ⟨actors, ∅, distinct⟩

/-- Two steps of an atomic section are taken as one. -/
def config : ScheduleConfig := ⟨true, 2⟩

abbrev analysis : Analysis (Scheduled DataState) :=
  Scheduled.analysis program config (fun _ => 0) (DataState.analysis ⟨true, .all⟩)

def before : Scheduled DataState :=
  .start [.start 0 "a" 0 0, (Thread.start 1 "a" 1 0).untriggered] (.known ∅)

def inside : Scheduled DataState where
  threads := [(Thread.start 0 "a" 0 2).withStatus .runningAtomic,
    (Thread.start 1 "a" 1 0).untriggered]
  stepped := .singleton 0
  violated := ∅
  data := .known ∅

def outside : Scheduled DataState where
  threads := [(Thread.start 0 "a" 0 4).withStatus .done, .start 2 "a" 1 0]
  stepped := .singleton 0
  violated := ∅
  data := .known ∅

theorem reaches_inside : analysis.Reachable program ⟨2, 0⟩ inside := by
  have start : (analysis.initial program).run .start = (.ok [before], ⟨2, 0⟩) := rfl
  have step : (analysis.succ before).run ⟨2, 0⟩ = (.ok [inside], ⟨2, 0⟩) := rfl
  exact .succ (.initial start List.mem_cons_self) step List.mem_cons_self

theorem leaves : (analysis.succ inside).run ⟨2, 0⟩ = (.ok [outside], ⟨3, 0⟩) := rfl

end Guarded

namespace Scheduled

variable {D : Type} {program : Program} {ids : Ids} {s : Scheduled D}

/-- At most one thread is in an atomic section, and it alone is stepped. Another thread keeps its
number and its location, unless it was idle and is restarted by a broadcast of that one: by the step
itself, or by one of those that are taken as one. -/
theorem atomic_section_is_exclusive (config : ScheduleConfig) (key : List Thread → PartitionKey)
    (inner : DataAnalysis D)
    (reachable : (analysis program config key inner).Reachable program ids s) :
    (∀ i j, s.isAtomic i = true → s.isAtomic j = true → i = j) ∧
    ∀ i out after, s.isAtomic i = true →
      ((analysis program config key inner).succ s).run ids = (.ok out, after) →
      ∀ u ∈ out, u.stepped = .singleton i ∧ u.threads.length = s.threads.length ∧
        ∀ (j : Nat) a b, j ≠ i → s.threads[j]? = some a → u.threads[j]? = some b →
          b.id = a.id ∧ b.location = a.location ∨
          a.isIdle = true ∧ ∃ last ≤ after,
            if config.aggregateAtomic then
              Scheduler.RestartsWithin ⟨program, inner.succFor⟩ i j (s, ids) (u, last)
            else Scheduler.Restarts ⟨program, inner.succFor⟩ i j (s, ids) (u, last) := by
  have well := (wellFormed_invariant program config key inner True True).reachable reachable
  refine ⟨well.single, fun i out after atomic done u hu => ?_⟩
  obtain ⟨i', c, last, enabled, steps, runs, later, single⟩ := Scheduler.successors_runs done hu
  obtain rfl : i' = i := by
    obtain ⟨l, eligible, member⟩ := enabled
    rw [Scheduler.eligible_of_atomic _ well atomic] at eligible
    cases eligible
    exact List.mem_singleton.mp member
  have whole := Relation.ReflTransGen.head ⟨atomic, steps⟩ runs
  have length := (Scheduler.Runs.others whole).1
  refine ⟨Scheduler.Runs.stepped steps runs, length, fun j a b other ha hb => ?_⟩
  cases aggregated : config.aggregateAtomic with
  | true =>
    rcases (Scheduler.Runs.others whole).2 j a b other ha hb with resumed | ⟨idle, -, within⟩
    · exact .inl ⟨resumed.id, resumed.location⟩
    · exact .inr ⟨idle, last, later, within⟩
  | false =>
    obtain rfl := single aggregated
    rcases steps.others.2 j a b other ha hb with resumed | ⟨-, restarts⟩
    · exact .inl ⟨resumed.id, resumed.location⟩
    · obtain ⟨message, -, a', b', ha', -, revives⟩ := id restarts
      have idle := Option.some.inj (ha'.symm.trans ha) ▸ revives.idle
      exact .inr ⟨idle, last, later, restarts⟩

/-- The receiver has a new number behind the section, so it was restarted by one of the two steps
that are taken as one. -/
theorem receiver_is_restarted_inside : Guarded.inside.isAtomic 0 = true ∧
    Guarded.outside.stepped = .singleton 0 ∧ ∃ last ≤ (⟨3, 0⟩ : Ids),
      Scheduler.RestartsWithin ⟨Guarded.program, (DataState.analysis ⟨true, .all⟩).succFor⟩ 0 1
        (Guarded.inside, ⟨2, 0⟩) (Guarded.outside, last) := by
  have exclusive := (atomic_section_is_exclusive _ _ _ Guarded.reaches_inside).2 0 _ _ rfl
    Guarded.leaves Guarded.outside List.mem_cons_self
  refine ⟨rfl, exclusive.1, ?_⟩
  rcases exclusive.2.2 1 _ _ (by decide) rfl rfl with ⟨same, -⟩ | ⟨-, restarted⟩
  · exact absurd same (by decide)
  · exact restarted

end Scheduled
end ActorAnalysis
