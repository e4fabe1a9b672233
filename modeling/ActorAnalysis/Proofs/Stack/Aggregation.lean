import ActorAnalysis.Proofs.Schedule.Aggregate
import ActorAnalysis.Proofs.Stack.Exclusion

namespace ActorAnalysis

/-- A state and the next one, with the numbers drawn so far. -/
def Analysis.Leads {S : Type} (A : Analysis S) (c e : S × Ids) : Prop :=
  ∃ out, (A.succ c.1).Gave c.2 out e.2 ∧ e.1 ∈ out

namespace Scheduler

variable {D : Type} {m : Scheduler D} {s t : Scheduled D} {ids last : Ids} {bound index : Nat}
  {route : List Nat}

def ListsEnds (m : Scheduler D) (bound : Nat) (s : Scheduled D) (ids : Ids)
    (out : List (Scheduled D)) (after : Ids) : Prop :=
  ∃ items : List ((Nat × List Nat) × Scheduled D),
    items.map Prod.snd = out ∧ (items.map Prod.fst).Nodup ∧
    (∀ e ∈ items, m.Enabled s e.1.1 ∧ ∃ last ≤ after,
      m.Course bound e.1.1 s ids e.1.2 last e.2 ∧ m.Ends bound e.1.1 e.1.2 last e.2) ∧
    ∀ i route last t, m.Enabled s i → m.Course bound i s ids route last t →
      m.Ends bound i route last t → ∃ u, ((i, route), u) ∈ items ∧ t.Renamed ids u

/-- Each course can be taken by single steps of the whole program. -/
theorem Course.leads {program : Program} {inner : DataAnalysis D}
    {key : List Thread → PartitionKey} {limit : Nat} (well : s.WellFormed ids)
    (enabled : Enabled ⟨program, inner.succFor⟩ s index)
    (succeeds : ∃ out after,
      ((Scheduled.analysis program ⟨false, limit⟩ key inner).succ s).run ids = (.ok out, after))
    (course : Course ⟨program, inner.succFor⟩ bound index s ids route last t) :
    ∃ u last', Relation.ReflTransGen (Scheduled.analysis program ⟨false, limit⟩ key inner).Leads
        (s, ids) (u, last') ∧
      Course ⟨program, inner.succFor⟩ bound index s ids route last' u := by
  induction course with
  | start => exact ⟨s, ids, .refl, .start⟩
  | @step route mid last t u out choice before goes gave found ih =>
    obtain ⟨w, mid', path, course⟩ := ih
    have same := before.matches_ well enabled course
    rcases goes with rfl | ⟨atomic, short⟩
    · cases course
      obtain ⟨out', after, done⟩ := succeeds
      obtain ⟨l, parts, eligible, rfl, each⟩ := successors_gave done
      obtain ⟨l', eligible', member⟩ := enabled
      rw [eligible] at eligible'
      cases eligible'
      obtain ⟨part, hpart, gave'⟩ := mem_of_forall₂ each member
      have gave' : (stepThread ⟨program, inner.succFor⟩ s index).Gave ids part after := by
        simpa [stepEligible] using gave'
      obtain ⟨x, hx, -⟩ := getElem?_of_forall₂ (same.gave gave gave') found
      refine ⟨x, after, path.tail ⟨_, .of_run done, ?_⟩, .step .start (.inl rfl) gave' hx⟩
      exact List.mem_flatten.mpr ⟨part, hpart, List.mem_of_getElem? hx⟩
    · have atomic' := ((before.renamed well enabled course).isAtomic index).trans atomic
      obtain ⟨out', last', ran, each⟩ := same out last gave mid' (Ids.le_refl mid')
      obtain ⟨x, hx, -⟩ := getElem?_of_forall₂ each found
      refine ⟨x, last', path.tail ⟨out', .of_run ?_, List.mem_of_getElem? hx⟩,
        .step course (.inr ⟨atomic', short⟩) (.of_run ran) hx⟩
      exact (congrArg (Alloc.run · mid') (successors_of_atomic (course.wellFormed well enabled)
        atomic' limit)).trans ran

theorem plain_succeeds_iff (well : s.WellFormed ids) (limit : Nat) :
    (∃ out after, (m.successors ⟨false, limit⟩ s).run ids = (.ok out, after)) ↔
      (∃ l, m.eligible s = .ok l) ∧
        ∀ i, m.Enabled s i → ∃ out after, (m.stepThread s i).run ids = (.ok out, after) := by
  have one (i : Nat) : m.stepEligible ⟨false, limit⟩ s i = m.stepThread s i := by
    simp [stepEligible]
  have same (i : Nat) : Alloc.Matches (List.Forall₂ (Scheduled.Renamed ids)) ids
      (m.stepThread s i) ids (m.stepThread s i) :=
    stepThread_matches (.refl ids s) well well (Ids.le_refl ids) (Ids.le_refl ids) i
  constructor
  · rintro ⟨out, after, done⟩
    obtain ⟨l, parts, eligible, rfl, each⟩ := successors_gave done
    refine ⟨⟨l, eligible⟩, fun i enabled => ?_⟩
    obtain ⟨l', eligible', member⟩ := enabled
    rw [eligible] at eligible'
    cases eligible'
    obtain ⟨part, -, gave⟩ := mem_of_forall₂ each member
    rw [one] at gave
    obtain ⟨out, end_, ran, -⟩ := same i part after gave ids (Ids.le_refl ids)
    exact ⟨out, end_, ran⟩
  · rintro ⟨⟨l, eligible⟩, each⟩
    refine successors_succeed eligible fun i hi first before => ?_
    obtain ⟨out, after, ran⟩ := each i ⟨l, eligible, hi⟩
    obtain ⟨out', end_, ran', -⟩ := same i out after (.of_run ran) first before
    rw [one]
    exact ⟨out', end_, ran'⟩

end Scheduler

namespace Scheduled

variable {D : Type} {program : Program} {ids : Ids} {s : Scheduled D}

/-- Aggregation is an acceleration of single steps. It succeeds if and only if single steps do, at
the start and in all states of a course that goes on; inside an atomic section these are the steps
of its thread. What it gives are the ends of all courses, each once, up to the numbers drawn on the
way. So single steps lead to each of them, and none is missed that has left the section. -/
theorem aggregation_gives_ends_of_courses (config : ScheduleConfig) (bound limit : Nat)
    (key : List Thread → PartitionKey) (inner : DataAnalysis D)
    (reachable : (analysis program config key inner).Reachable program ids s) :
    ((∃ out after, ((analysis program ⟨true, bound⟩ key inner).succ s).run ids =
        (.ok out, after)) ↔
      (∃ out after, ((analysis program ⟨false, limit⟩ key inner).succ s).run ids =
        (.ok out, after)) ∧
      ∀ i route last t, Scheduler.Enabled ⟨program, inner.succFor⟩ s i →
        Scheduler.Course ⟨program, inner.succFor⟩ bound i s ids route last t →
        t.isAtomic i = true → route.length < bound →
        ∃ out after, ((analysis program ⟨false, limit⟩ key inner).succ t).run last =
          (.ok out, after)) ∧
    (∀ i route last t, Scheduler.Enabled ⟨program, inner.succFor⟩ s i →
      Scheduler.Course ⟨program, inner.succFor⟩ bound i s ids route last t →
      t.isAtomic i = true → (analysis program ⟨false, limit⟩ key inner).succ t =
        Scheduler.stepThread ⟨program, inner.succFor⟩ t i) ∧
    ∀ out after, ((analysis program ⟨true, bound⟩ key inner).succ s).run ids = (.ok out, after) →
      Scheduler.ListsEnds ⟨program, inner.succFor⟩ bound s ids out after ∧
      (∀ u ∈ out, ∃ t last,
        Relation.ReflTransGen (analysis program ⟨false, limit⟩ key inner).Leads (s, ids) (t, last) ∧
          t.Renamed ids u) ∧
      ∀ i route last t, Scheduler.Enabled ⟨program, inner.succFor⟩ s i →
        Scheduler.Course ⟨program, inner.succFor⟩ bound i s ids route last t → route ≠ [] →
        t.isAtomic i = false → ∃ u ∈ out, t.Renamed ids u := by
  have well := (wellFormed_invariant program config key inner True True).reachable reachable
  have inside {i : Nat} {route : List Nat} {last : Ids} {t : Scheduled D}
      (enabled : Scheduler.Enabled ⟨program, inner.succFor⟩ s i)
      (course : Scheduler.Course ⟨program, inner.succFor⟩ bound i s ids route last t)
      (atomic : t.isAtomic i = true) : (analysis program ⟨false, limit⟩ key inner).succ t =
        Scheduler.stepThread ⟨program, inner.succFor⟩ t i :=
    Scheduler.successors_of_atomic (course.wellFormed well enabled) atomic limit
  refine ⟨⟨fun fast => ?_, fun ⟨plain, each⟩ => ?_⟩, fun i route last t => inside,
    fun out after done => ?_⟩
  · obtain ⟨eligible, proceeds⟩ := (Scheduler.successors_succeed_iff well).mp fast
    refine ⟨(Scheduler.plain_succeeds_iff well limit).mpr ⟨eligible, fun i enabled => ?_⟩,
      fun i route last t enabled course atomic short => ?_⟩
    · exact proceeds i enabled .start (.inl rfl)
    · rw [inside enabled course atomic]
      exact proceeds i enabled course (.inr ⟨atomic, short⟩)
  · obtain ⟨eligible, stepped⟩ := (Scheduler.plain_succeeds_iff well limit).mp plain
    refine (Scheduler.successors_succeed_iff well).mpr ⟨eligible, fun i enabled => ?_⟩
    rintro route last t course (rfl | ⟨atomic, short⟩)
    · cases course
      exact stepped i enabled
    · have further := each i route last t enabled course atomic short
      rwa [inside enabled course atomic] at further
  · obtain ⟨eligible, proceeds⟩ := (Scheduler.successors_succeed_iff well).mp ⟨out, after, done⟩
    have plain := (Scheduler.plain_succeeds_iff well limit).mpr
      ⟨eligible, fun i enabled => proceeds i enabled .start (.inl rfl)⟩
    obtain ⟨items, rfl, once, only, all⟩ := Scheduler.successors_list well done
    have listed {i : Nat} {route : List Nat} {last : Ids} {t : Scheduled D}
        (enabled : Scheduler.Enabled ⟨program, inner.succFor⟩ s i)
        (course : Scheduler.Course ⟨program, inner.succFor⟩ bound i s ids route last t)
        (ends : Scheduler.Ends ⟨program, inner.succFor⟩ bound i route last t) :
        ∃ u, ((i, route), u) ∈ items ∧ t.Renamed ids u := by
      obtain ⟨u, hu⟩ := all i enabled course ends
      obtain ⟨-, last', -, course', -⟩ := only _ hu
      exact ⟨u, hu, course.renamed well enabled course'⟩
    refine ⟨⟨items, rfl, once, only, fun i route last t => listed⟩, fun u hu => ?_,
      fun i route last t enabled course some outside => ?_⟩
    · obtain ⟨e, he, rfl⟩ := List.mem_map.mp hu
      obtain ⟨enabled, last, -, course, -⟩ := only e he
      obtain ⟨t, last', path, course'⟩ := course.leads well enabled plain
      exact ⟨t, last', path, course'.renamed well enabled course⟩
    · obtain ⟨u, hu, renamed⟩ := listed enabled course ⟨some, .inl outside⟩
      exact ⟨u, List.mem_map_of_mem hu, renamed⟩

/-- Two steps lead out of the section, and single steps lead there as well. -/
theorem broadcast_and_exit_are_taken_as_one :
    Guarded.inside.isAtomic 0 = true ∧ Guarded.outside.isAtomic 0 = false ∧
    Scheduler.ListsEnds ⟨Guarded.program, (DataState.analysis ⟨true, .all⟩).succFor⟩ 2
      Guarded.inside ⟨2, 0⟩ [Guarded.outside] ⟨3, 0⟩ ∧
    ∃ t last, Relation.ReflTransGen (analysis Guarded.program ⟨false, 0⟩ (fun _ => 0)
        (DataState.analysis ⟨true, .all⟩)).Leads (Guarded.inside, ⟨2, 0⟩) (t, last) ∧
      t.Renamed ⟨2, 0⟩ Guarded.outside := by
  obtain ⟨ends, leads, -⟩ := (aggregation_gives_ends_of_courses Guarded.config 2 0 _ _
    Guarded.reaches_inside).2.2 _ _ Guarded.leaves
  exact ⟨rfl, rfl, ends, leads Guarded.outside List.mem_cons_self⟩

end Scheduled
end ActorAnalysis
