import ActorAnalysis.Data.Analysis
import ActorAnalysis.Proofs.Run.Coverage
import ActorAnalysis.Proofs.Schedule.Execution
import ActorAnalysis.Schedule.Analysis

namespace ActorAnalysis

namespace Scheduled

section WellFormed

variable {D : Type} {program : Program} {config : ScheduleConfig}
  {key : List Thread → PartitionKey} {inner : DataAnalysis D}

theorem run_initial_ok {ids after : Ids} {out : List (Scheduled D)}
    (done : ((analysis program config key inner).initial program).run ids = (.ok out, after)) :
    ∃ data, (inner.initial program).run (ids.skip program.scripts.length) = (.ok data, after) ∧
      out = data.map (start (threadsFrom ids.threads program.scripts)) := by
  have unfolded : (analysis program config key inner).initial program = (do
      let threads ← Scheduler.initialThreads program
      let data ← inner.initial program
      return data.map (start threads)) := if_pos rfl
  rw [unfolded, Alloc.run_bind_ok] at done
  obtain ⟨threads, mid, ran, done⟩ := done
  rw [Scheduler.run_initialThreads] at ran
  cases ran
  rw [Alloc.run_bind_ok] at done
  obtain ⟨data, last, ran, done⟩ := done
  obtain ⟨rfl, rfl⟩ := Alloc.run_pure_ok.mp done
  exact ⟨data, ran, rfl⟩

theorem run_combine_ok {ids after : Ids} {s t u : Scheduled D} {joined : Alloc D} {e : Error}
    (done : (if s.threads = t.threads then (do
      let d ← joined
      return s.combine t d) else .fail e : Alloc (Scheduled D)).run ids = (.ok u, after)) :
    s.threads = t.threads ∧ ∃ d, joined.run ids = (.ok d, after) ∧ u = s.combine t d := by
  split at done
  · rename_i same
    rw [Alloc.run_bind_ok] at done
    obtain ⟨d, mid, ran, done⟩ := done
    obtain ⟨rfl, rfl⟩ := Alloc.run_pure_ok.mp done
    exact ⟨same, d, ran, rfl⟩
  · exact nomatch done

theorem run_join_ok {ids after : Ids} {s t u : Scheduled D}
    (done : ((analysis program config key inner).join s t).run ids = (.ok u, after)) :
    s.threads = t.threads ∧ ∃ d, (inner.join s.data t.data).run ids = (.ok d, after) ∧
      u = s.combine t d :=
  run_combine_ok done

theorem run_merge_ok {ids after : Ids} {s t u : Scheduled D}
    (done : ((analysis program config key inner).merge s t).run ids = (.ok u, after)) :
    s.threads = t.threads ∧ ∃ d, (inner.merge s.data t.data).run ids = (.ok d, after) ∧
      u = s.combine t d :=
  run_combine_ok done

theorem widen_ok {s t : Scheduled D}
    (done : (analysis program config key inner).widen s = .ok t) :
    ∃ d, inner.widen s.data = .ok d ∧ t = { s with data := d } := by
  have done : (inner.widen s.data).map (fun d => { s with data := d }) = .ok t := done
  cases widened : inner.widen s.data with
  | error e =>
    rw [widened] at done
    exact nomatch done
  | ok d =>
    rw [widened] at done
    exact ⟨d, rfl, (Except.ok.inj done).symm⟩

theorem WellFormed.combine {ids : Ids} {s t : Scheduled D} (well : s.WellFormed ids)
    (well' : t.WellFormed ids) (same : s.threads = t.threads) (d : D) :
    (s.combine t d).WellFormed ids where
  numbered := well.numbered
  single := well.single
  failed := well.failed
  blamed p := by
    show p ∈ s.violated.union t.violated ↔ Blamed s.threads p
    rw [SortedSet.mem_union, well.blamed, well'.blamed, same, or_self]

theorem wellFormed_invariant (program : Program) (config : ScheduleConfig)
    (key : List Thread → PartitionKey) (inner : DataAnalysis D) (merges widens : Prop) :
    (analysis program config key inner).Invariant program merges widens
      (fun ids s => s.WellFormed ids) where
  grows well later := well.grows later
  initial done s hs := by
    obtain ⟨data, ran, rfl⟩ := run_initial_ok done
    obtain ⟨d, -, rfl⟩ := List.mem_map.mp hs
    exact (Scheduler.start_wellFormed program _ d).grows (Alloc.le_of_run ran)
  succ well done := Scheduler.successors_wellFormed well done
  merge _ _ _ _ _ _ well well' _ done := by
    obtain ⟨same, d, ran, rfl⟩ := run_merge_ok done
    exact (well.combine well' same d).grows (Alloc.le_of_run ran)
  widen _ _ _ _ well done := by
    obtain ⟨d, -, rfl⟩ := widen_ok done
    exact ⟨well.numbered, well.single, well.failed, well.blamed⟩

/-- Well-formed states whose threads have a property are kept, if the threads have it at the start
and single steps keep it. -/
theorem threads_invariant (config : ScheduleConfig) (key : List Thread → PartitionKey)
    (inner : DataAnalysis D) (merges widens : Prop) {inv : Ids → Scheduled D → Prop}
    (holds : List Thread → Prop)
    (means : ∀ ids s, inv ids s ↔ s.WellFormed ids ∧ holds s.threads)
    (start : ∀ first, holds (threadsFrom first program.scripts))
    (step : ∀ {ids s i out after}, s.WellFormed ids → holds s.threads →
      (⟨program, inner.succFor⟩ : Scheduler D).Enabled s i →
      (Scheduler.stepThread ⟨program, inner.succFor⟩ s i).run ids = (.ok out, after) →
        ∀ u ∈ out, holds u.threads) :
    (analysis program config key inner).Invariant program merges widens inv := by
  have well := wellFormed_invariant program config key inner merges widens
  have grows {ids after : Ids} {s : Scheduled D} (h : inv ids s) (later : ids ≤ after) :
      inv after s := by
    obtain ⟨formed, threads⟩ := (means ids s).mp h
    exact (means after s).mpr ⟨formed.grows later, threads⟩
  constructor
  case grows => exact grows
  case initial =>
    intro ids out after done s hs
    refine (means after s).mpr ⟨well.initial done s hs, ?_⟩
    obtain ⟨data, -, rfl⟩ := run_initial_ok done
    obtain ⟨d, -, rfl⟩ := List.mem_map.mp hs
    exact start ids.threads
  case succ =>
    intro ids s out after h done
    refine Scheduler.successors_keep (fun ids s h => ((means ids s).mp h).1)
      (fun _ _ _ h later => grows h later) (fun ids s i out after h enabled ran u hu => ?_) h done
    obtain ⟨formed, threads⟩ := (means ids s).mp h
    exact (means after u).mpr
      ⟨Scheduler.stepThread_wellFormed formed (enabled.turn formed) ran u hu,
        step formed threads enabled ran u hu⟩
  case merge =>
    intro allowed ids s t m after hs ht should done
    obtain ⟨formed, threads⟩ := (means ids s).mp hs
    refine (means after m).mpr
      ⟨well.merge allowed formed ((means ids t).mp ht).1 should done, ?_⟩
    obtain ⟨-, d, -, rfl⟩ := run_merge_ok done
    exact threads
  case widen =>
    intro allowed ids s t h done
    obtain ⟨formed, threads⟩ := (means ids s).mp h
    refine (means ids t).mpr ⟨well.widen allowed formed done, ?_⟩
    obtain ⟨d, -, rfl⟩ := widen_ok done
    exact threads

end WellFormed

section Covering

variable (program : Program) (config : ScheduleConfig) (key : List Thread → PartitionKey)
  (data : DataConfig)

abbrev Described (σ : Valuation) (d : DataState) : Prop := d.Describes σ

theorem simulates_exact : program.exact.Simulates ⟨program, (DataState.analysis data).succFor⟩
    Described where
  program := rfl
  step _ describes steps steps' τ hτ := by
    cases steps
    cases steps'
    exact describes.step hτ

/-- Constant propagation under the scheduler covers all executions. -/
theorem covering : (analysis program config key (DataState.analysis data)).Covering program
    program.executions (fun ids s => s.WellFormed ids) (fun _ _ => True)
    (Scheduler.Covers Described) where
  initial done c start := by
    obtain ⟨ds, ran, rfl⟩ := run_initial_ok done
    obtain ⟨rfl, -⟩ := Alloc.run_pure_ok.mp ran
    refine ⟨_, List.mem_cons_self, Scheduler.wellFormed_of_reaches (.start start), ?_⟩
    obtain ⟨threads, σ, ran, agrees, same⟩ := start
    rw [Scheduler.run_initialThreads] at ran
    rw [same, ← Except.ok.inj (Prod.mk.inj ran).1]
    exact alike_start _ _ program.scripts agrees
  succ well done c d covers step :=
    (simulates_exact program data).successors_caught well done covers step
  stop := by
    intro s l _ stop c covers
    obtain ⟨-, covered⟩ := Bool.and_eq_true_iff.mp stop
    obtain ⟨d, hd, below⟩ := List.any_eq_true.mp covered
    obtain ⟨r, hr, rfl⟩ := List.mem_map.mp hd
    obtain ⟨hr, same⟩ := List.mem_filter.mp hr
    exact ⟨r, hr, covers.replace (of_decide_eq_true same) fun describes => describes.included below⟩
  merge := by
    intro ids s t m after _ done c covers
    obtain ⟨same, d, ran, rfl⟩ := run_merge_ok done
    obtain ⟨rfl, -⟩ := Alloc.run_pure_ok.mp ran
    rcases covers with covers | covers
    · exact covers.replace rfl fun describes => describes.join_left
    · exact covers.replace same fun describes => describes.join_right
  widen := by
    intro s t done c covers
    obtain ⟨d, widened, rfl⟩ := widen_ok done
    cases widened
    exact covers.replace rfl fun describes => describes.widen data.precision
  target := by
    intro ids s c p well covers violated
    have same : s.violated = c.1.violated := covers.2.violated covers.1 well
    exact SortedSet.mem_union.mpr (.inl (same ▸ violated))

def Possible (ids : Ids) (s : Scheduled DataState) : Prop :=
  s.WellFormed ids ∧ s.data.isInfeasible = false

theorem possible_step {ids after : Ids} {s u : Scheduled DataState} {index : Nat}
    {out : List (Scheduled DataState)} (possible : s.Possible ids)
    (enabled : Scheduler.Enabled ⟨program, (DataState.analysis data).succFor⟩ s index)
    (ran : (Scheduler.stepThread ⟨program, (DataState.analysis data).succFor⟩ s index).run ids =
      (.ok out, after)) (member : u ∈ out) : u.Possible after := by
  refine ⟨Scheduler.stepThread_wellFormed possible.1 (enabled.turn possible.1) ran u member, ?_⟩
  obtain ⟨t, script, -, -, performed⟩ := Scheduler.stepThread_performed ran
  obtain ⟨move, -, ds, passed, d, hd, first, last, -, -, done⟩ := performed.only u member
  obtain ⟨threads, -, rfl⟩ := Scheduler.run_perform_ok.mp done
  show d.isInfeasible = false
  cases guard : move.guard with
  | none =>
    rw [guard] at passed
    cases passed
    exact List.mem_singleton.mp hd ▸ possible.2
  | some op =>
    rw [guard] at passed
    cases passed
    exact (DataState.mem_step.mp hd).2.2

theorem possible_invariant (merges widens : Prop) :
    (analysis program config key (DataState.analysis data)).Invariant program merges widens
      (fun ids s => s.Possible ids) where
  grows h later := ⟨h.1.grows later, h.2⟩
  initial done s hs := by
    refine ⟨(wellFormed_invariant program config key _ merges widens).initial done s hs, ?_⟩
    obtain ⟨ds, ran, rfl⟩ := run_initial_ok done
    obtain ⟨rfl, -⟩ := Alloc.run_pure_ok.mp ran
    obtain rfl := List.mem_singleton.mp hs
    rfl
  succ h done := Scheduler.successors_keep (fun _ _ h => h.1)
    (fun _ _ _ h later => ⟨h.1.grows later, h.2⟩)
    (fun _ _ _ _ _ h enabled ran u hu => possible_step program data h enabled ran hu) h done
  merge allowed _ _ _ _ _ hs ht should done := by
    refine ⟨(wellFormed_invariant program config key _ merges widens).merge allowed hs.1 ht.1 should
      done, ?_⟩
    obtain ⟨-, d, ran, rfl⟩ := run_merge_ok done
    obtain ⟨rfl, -⟩ := Alloc.run_pure_ok.mp ran
    exact DataState.join_feasible hs.2
  widen allowed _ _ _ h done := by
    refine ⟨(wellFormed_invariant program config key _ merges widens).widen allowed h.1 done, ?_⟩
    obtain ⟨d, widened, rfl⟩ := widen_ok done
    cases widened
    exact DataState.widen_feasible h.2 data.precision

end Covering
end Scheduled
end ActorAnalysis
