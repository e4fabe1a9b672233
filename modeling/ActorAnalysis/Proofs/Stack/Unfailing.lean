import ActorAnalysis.Proofs.Run.Unfailing
import ActorAnalysis.Proofs.Schedule.Unfailing
import ActorAnalysis.Proofs.Space.Listing
import ActorAnalysis.Proofs.Stack.Merging
import ActorAnalysis.Settings

namespace ActorAnalysis

namespace Scheduled

variable {D : Type} {program : Program}

structure Equipped (program : Program) (ids : Ids) (s : Scheduled D) : Prop where
  well : s.WellFormed ids
  scripted : Scripted program s.threads

variable (names : (program.actors.map Actor.name).Nodup)
include names

theorem equipped_invariant (config : ScheduleConfig) (key : List Thread → PartitionKey)
    (inner : DataAnalysis D) (merges widens : Prop) :
    (analysis program config key inner).Invariant program merges widens (Equipped program) :=
  threads_invariant config key inner merges widens (Scripted program)
    (fun _ _ => ⟨fun h => ⟨h.well, h.scripted⟩, fun h => ⟨h.1, h.2⟩⟩) (threadsFrom_scripted names)
    (fun _ scripted _ ran => Scheduler.stepThread_scripted scripted ran)

theorem unfailing (config : ScheduleConfig) (key : List Thread → PartitionKey)
    (data : DataConfig) :
    (analysis program config key (DataState.analysis data)).Unfailing program
      (Equipped program) where
  keeps := equipped_invariant names config key _ True True
  initial ids := by
    simp only [analysis, if_pos]
    exact ⟨_, _, Alloc.run_bind_ok.mpr ⟨_, _, Scheduler.run_initialThreads program ids,
      Alloc.run_bind_ok.mpr ⟨_, _, rfl, rfl⟩⟩⟩
  succ h := Scheduler.successors_total (fun _ _ => ⟨_, rfl⟩) config h.scripted _
  merge := by
    intro ids s t _ _ should
    have merged : ∃ m last, ((analysis program config key (DataState.analysis data)).merge s t).run
        ids = (.ok m, last) ∧ True := merges.merge .intro .intro should
    obtain ⟨m, last, ran, -⟩ := merged
    exact ⟨m, last, ran⟩
  widen _ := ⟨_, rfl⟩
  feasible _ := ⟨_, rfl⟩
  refine _ := rfl

end Scheduled

namespace Node

variable {W : Type} {A : Analysis W} {program : Program} {inv : Ids → W → Prop}

structure Placed (ids : Ids) (n : Node W) : Prop where
  numbered : n.Numbered ids
  predecessors : ∀ p ∈ n.predecessors, p < ids.nodes

theorem Placed.grows {ids after : Ids} {n : Node W} (placed : n.Placed ids) (later : ids ≤ after) :
    n.Placed after where
  numbered := placed.numbered.grows later
  predecessors p hp := Nat.lt_of_lt_of_le (placed.predecessors p hp) later.2

theorem placed_invariant (config : GraphConfig) (merges widens : Prop) :
    (analysis config A).Invariant program merges widens Placed where
  grows h later := h.grows later
  initial done n hn := by
    have born := initial_born done
    refine ⟨born.numbered hn, fun p hp => ?_⟩
    rw [born.edges n hn] at hp
    exact absurd hp (SortedSet.not_mem_empty p)
  succ h done n hn := by
    have born := succ_born done
    refine ⟨born.numbered hn, fun p hp => ?_⟩
    rw [born.edges n hn] at hp
    rw [SortedSet.mem_singleton.mp hp]
    exact Nat.lt_of_lt_of_le h.numbered.1 (Alloc.le_of_run done).2
  merge _ _ _ _ _ _ hs ht _ done := by
    have unites := merge_unites done
    have later := Alloc.le_of_run done
    refine ⟨unites.numbered (hs.numbered.grows later) (ht.numbered.grows later), fun p hp => ?_⟩
    rcases unites.edges p hp with old | old
    · exact Nat.lt_of_lt_of_le (hs.predecessors p old) later.2
    · exact Nat.lt_of_lt_of_le (ht.predecessors p old) later.2
  widen _ _ _ _ h done := by
    obtain ⟨id, predecessors, mergeOf⟩ := widen_ok done
    refine ⟨?_, predecessors ▸ h.predecessors⟩
    unfold Numbered
    rw [id, mergeOf]
    exact h.numbered

theorem mapM_fresh_succeeds {predecessors : SortedSet NodeId} {ids : Ids}
    (drawn : ∀ p ∈ predecessors, p < ids.nodes) (states : List W) :
    ∃ out after, (states.mapM (fresh A predecessors ∅)).run ids = (.ok out, after) := by
  refine Alloc.mapM_succeeds fun w _ first later => ?_
  exact ⟨_, _, run_fresh ∅ w fun p hp => Nat.lt_of_lt_of_le (drawn p hp) later.2⟩

theorem unfailing (config : GraphConfig) (inner : A.Unfailing program inv) :
    (analysis config A).Unfailing program (fun ids n => n.Placed ids ∧ inv ids n.inner) where
  keeps := (placed_invariant config True True).and ((lifts config A).invariant inner.keeps)
  initial ids := by
    obtain ⟨states, mid, ran⟩ := inner.initial ids
    have drawn : ∀ p ∈ (∅ : SortedSet NodeId), p < mid.nodes :=
      fun p hp => absurd hp (SortedSet.not_mem_empty p)
    obtain ⟨out, after, made⟩ := mapM_fresh_succeeds (A := A) drawn states
    exact ⟨out, after, Alloc.run_bind_ok.mpr ⟨states, mid, ran, made⟩⟩
  succ := by
    rintro ids n ⟨placed, h⟩
    obtain ⟨states, mid, ran⟩ := inner.succ h
    have drawn : ∀ p ∈ SortedSet.singleton n.id, p < mid.nodes := by
      intro p hp
      rw [SortedSet.mem_singleton.mp hp]
      exact Nat.lt_of_lt_of_le placed.numbered.1 (Alloc.le_of_run ran).2
    obtain ⟨out, after, made⟩ := mapM_fresh_succeeds (A := A) drawn states
    exact ⟨out, after, Alloc.run_bind_ok.mpr ⟨states, mid, ran, made⟩⟩
  merge := by
    intro ids m n hm hn should
    obtain ⟨united, after, ran, -⟩ := (merges config inner.merges).merge
      ⟨hm.1.predecessors, hm.2⟩ ⟨hn.1.predecessors, hn.2⟩ should
    exact ⟨united, after, ran⟩
  widen n := by
    cases widening : config.widening with
    | passThrough =>
      simp only [analysis, widening]
      exact ⟨n, rfl⟩
    | delegate =>
      obtain ⟨w, wide⟩ := inner.widen n.inner
      simp only [analysis, widening, wide]
      exact ⟨_, rfl⟩
  feasible n := inner.feasible n.inner
  refine n := by
    show (A.refiner.refine n.inner).map _ = _
    rw [inner.refine n.inner]
    rfl

end Node

namespace Timed

theorem unfailing {W : Type} {A : Analysis W} {program : Program} {inv : Ids → W → Prop}
    (config : TimeConfig) (inner : A.Unfailing program inv) :
    (analysis config A).Unfailing program (fun ids s => inv ids s.inner) where
  keeps := (lifts config A).invariant inner.keeps
  initial ids := by
    obtain ⟨states, after, ran⟩ := inner.initial ids
    exact ⟨_, after, Alloc.run_bind_ok.mpr ⟨states, after, ran, rfl⟩⟩
  succ := by
    intro ids s h
    obtain ⟨states, after, ran⟩ := inner.succ h
    exact ⟨_, after, Alloc.run_bind_ok.mpr ⟨states, after, ran, rfl⟩⟩
  merge := by
    intro ids s t hs ht should
    obtain ⟨m, after, ran, -⟩ := (merges config inner.merges).merge hs ht should
    exact ⟨m, after, ran⟩
  widen s := by
    obtain ⟨w, wide⟩ := inner.widen s.inner
    simp only [analysis, wide]
    exact ⟨_, rfl⟩
  feasible s := inner.feasible s.inner
  refine s := by
    show (A.refiner.refine s.inner).map _ = _
    rw [inner.refine s.inner]
    rfl

end Timed

namespace Settings

def Ready (program : Program) (ids : Ids) (s : DefaultState) : Prop :=
  s.inner.Placed ids ∧ s.inner.inner.Equipped program ids

theorem unfailing (settings : Settings) (key : List Thread → PartitionKey) {program : Program}
    (names : (program.actors.map Actor.name).Nodup) :
    (settings.analysis key program).Unfailing program (Ready program) :=
  Timed.unfailing settings.time (Node.unfailing settings.graph
    (Scheduled.unfailing names settings.schedule key settings.data))

/-- If actors have distinct names, no exploration of the default stack fails, whatever the settings:
neither its start nor any run or check in any sequence. A breach of an assertion is an error, so
none occurs. The scripts of all reached threads are found; the indices that a broadcast looks up
belong to threads, whose number stays the same; and the tables of the reached set only refer to its
slots. -/
theorem exploration_never_fails (settings : Settings) (key : List Thread → PartitionKey)
    {program : Program} (names : (program.actors.map Actor.name).Nodup) :
    (∀ ids, ∃ count space,
      ((settings.analysis key program).seed program).on ⟨ids, ∅, ∅⟩ = (.ok count, space)) ∧
    (∀ space, (settings.analysis key program).Session program space →
      (∀ config fuel, ∃ outcome after,
        ((settings.analysis key program).run config fuel).on space = (.ok outcome, after)) ∧
      (∀ config bounded fuel, ∃ report after,
        ((settings.analysis key program).check config bounded fuel).on space =
          (.ok report, after)) ∧
      ∀ s ∈ space.reached.toList, ∀ t ∈ s.inner.inner.threads,
        ∃ script, program.scriptAt t.ref = .ok script) ∧
    (∀ threads, ∀ e ∈ (instances threads).entries, e.2 ≠ [] ∧ ∀ i ∈ e.2, i < threads.length) ∧
    (∀ message sender r ref indices ids r' after,
      (restartInstance program message sender r ref indices).run ids = (.ok r', after) →
        r'.threads.length = r.threads.length) ∧
    ∀ calls, (Reached.Call.replay Reached.perform (∅ : Reached DefaultState) calls).2.InRange := by
  have unfailing := settings.unfailing key names
  refine ⟨fun ids => (unfailing.seed ids).succeeds rfl, fun space session => ?_,
    fun _ _ => instances_inRange, fun _ _ _ _ _ _ _ _ => restartInstance_length, fun calls => ?_⟩
  · have holds := unfailing.session session
    refine ⟨fun config fuel => (unfailing.run config fuel).succeeds holds,
      fun config bounded fuel => (unfailing.check config bounded fuel).succeeds holds, ?_⟩
    intro s hs
    exact (holds.reached s hs).2.scripted
  · exact (Reached.replay_represents calls).2.inRange

end Settings

namespace Twins

def actors : List Actor :=
  [⟨"a", [⟨0, .bootstrap, .sequence 0 "send" [.broadcastWait "go", .skip]⟩,
    ⟨1, .message "go", .sequence 1 "first" [.skip]⟩,
    ⟨1, .message "go", .sequence 2 "second" [.yield, .skip]⟩], []⟩]

theorem distinct : (relationIds actors).Nodup := by decide

def program : Program := ⟨actors, ∅, distinct⟩

abbrev analysis : Analysis Settings.DefaultState := Settings.default.analysis List.length program

end Twins

/-- Scripts that share an id do not disturb a run and a check behind it. -/
theorem Settings.twins_are_explored :
    (Twins.program.actors.map Actor.name).Nodup ∧
      ∃ count space outcome mid report after,
        (Twins.analysis.seed Twins.program).on ⟨.start, ∅, ∅⟩ = (.ok count, space) ∧
        (Twins.analysis.run ⟨.lifo, some 1, false, true⟩ 100).on space = (.ok outcome, mid) ∧
        (Twins.analysis.check ⟨.fifo, none, false, false⟩ ⟨10, some 5⟩ 100).on mid =
          (.ok report, after) := by
  have names : (Twins.program.actors.map Actor.name).Nodup := by decide
  obtain ⟨seeds, session, -⟩ := Settings.default.exploration_never_fails List.length names
  obtain ⟨count, space, seeded⟩ := seeds .start
  have start : Twins.analysis.Session Twins.program _ := .seeded .start
  rw [seeded] at start
  obtain ⟨outcome, mid, ran⟩ := (session space start).1 ⟨.lifo, some 1, false, true⟩ 100
  have next := start.ran ⟨.lifo, some 1, false, true⟩ 100
  rw [ran] at next
  obtain ⟨report, after, checked⟩ :=
    (session mid next).2.1 ⟨.fifo, none, false, false⟩ ⟨10, some 5⟩ 100
  exact ⟨names, count, space, outcome, mid, report, after, seeded, ran, checked⟩

end ActorAnalysis
