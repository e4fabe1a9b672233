import ActorAnalysis.Proofs.Schedule.Others
import ActorAnalysis.Proofs.Stack.Deadlock

namespace ActorAnalysis

namespace Scheduled

variable {D : Type} {program : Program} {ids after : Ids} {s t u : Scheduled D}

/-- The state is orderly, and failed threads have failed for some property. -/
structure Accounted (program : Program) (ids : Ids) (s : Scheduled D) : Prop where
  orderly : s.Orderly program ids
  reasons : ∀ t ∈ s.threads, t.status = .failed → ∃ p, p ∈ t.failedFor

theorem Accounted.grows (h : s.Accounted program ids) (later : ids ≤ after) :
    s.Accounted program after := ⟨h.orderly.grows later, h.reasons⟩

/-- Whatever happens next, failed threads stay as they are and violations are not forgotten. -/
structure Preserves (s u : Scheduled D) : Prop where
  failed : ∀ (j : Nat) t, s.threads[j]? = some t → t.status = .failed → u.threads[j]? = some t
  violated : ∀ p ∈ s.violated, p ∈ u.violated

theorem Preserves.refl (s : Scheduled D) : s.Preserves s := ⟨fun _ _ h _ => h, fun _ h => h⟩

theorem Preserves.trans (first : s.Preserves t) (second : t.Preserves u) : s.Preserves u where
  failed j a ha status := second.failed j a (first.failed j a ha status) status
  violated p hp := second.violated p (first.violated p hp)

section Step

variable {m : Scheduler D} {index : Nat} {out : List (Scheduled D)}

theorem Accounted.step (h : s.Accounted m.program ids) (enabled : m.Enabled s index)
    (ran : (m.stepThread s index).run ids = (.ok out, after)) :
    ∀ u ∈ out, u.Accounted m.program after := by
  intro u hu
  refine ⟨h.orderly.step enabled ran u hu, fun b hb failed => ?_⟩
  obtain ⟨t, script, found, -, performed⟩ := Scheduler.stepThread_performed ran
  obtain ⟨move, member, ds, -, d, -, gave⟩ := performed.only u hu
  obtain ⟨j, hj⟩ := List.getElem?_of_mem hb
  by_cases here : j = index
  · subst here
    obtain ⟨status, same⟩ := Scheduler.perform_failed gave hj failed
    rcases (Script.moves_continue member).outcome with ⟨-, -, active⟩ | ⟨p, -, more, -⟩
    · exact absurd status active
    · exact ⟨p, same ▸ more ▸ SortedSet.mem_insert.mpr (.inl rfl)⟩
  · have spared := Scheduler.perform_spares gave
    obtain ⟨a, ha⟩ := exists_getElem?_of_length spared.length hj
    rcases spared.others j a b here ha hj with resumed | ⟨message, -, revives⟩
    · obtain ⟨p, hp⟩ := h.reasons a (List.mem_of_getElem? ha) (resumed.status_of_failed failed)
      exact ⟨p, resumed.failedFor ▸ hp⟩
    · obtain ⟨-, script, -, -, entry, -, id, -, -, rfl⟩ := revives
      exact nomatch failed

theorem Accounted.preserves_step (h : s.Accounted m.program ids) (enabled : m.Enabled s index)
    (ran : (m.stepThread s index).run ids = (.ok out, after)) : ∀ u ∈ out, s.Preserves u := by
  intro u hu
  obtain ⟨t, script, found, -, performed⟩ := Scheduler.stepThread_performed ran
  obtain ⟨move, -, ds, -, d, -, gave⟩ := performed.only u hu
  refine ⟨fun j a ha failed => ?_, fun p hp => ?_⟩
  · have other : j ≠ index := by
      rintro rfl
      exact (enabled.turn h.orderly.well).active a ha failed
    -- a thread that waits for others has not failed
    have free : a.waitsFor.isEmpty = true := by
      refine SortedSet.isEmpty_iff.mpr fun x hx => ?_
      rcases (h.orderly.waits a (List.mem_of_getElem? ha)).status hx with status | status
      · rw [failed] at status
        exact nomatch status
      · rw [failed] at status
        exact nomatch status
    have spared := Scheduler.perform_spares gave
    obtain ⟨b, hb⟩ := exists_getElem?_of_length spared.length.symm ha
    rcases spared.others j a b other ha hb with resumed | ⟨message, -, revives⟩
    · rw [hb, resumed.eq_self (by simp [failed]) (by simp [failed]) free]
    · have idle := revives.idle
      simp [Thread.isIdle, failed] at idle
  · obtain ⟨first, last, -, -, done⟩ := gave
    exact (Scheduler.mem_violated_perform done p).mpr (.inl hp)

end Step

section Derivation

variable {config : ScheduleConfig} {key : List Thread → PartitionKey} {inner : DataAnalysis D}

theorem Accounted.succ {out : List (Scheduled D)} (h : s.Accounted program ids)
    (done : ((analysis program config key inner).succ s).run ids = (.ok out, after)) :
    ∀ u ∈ out, u.Accounted program after ∧ s.Preserves u := by
  have step : ∀ now t i out after, t.Accounted program now ∧ s.Preserves t →
      Scheduler.Enabled ⟨program, inner.succFor⟩ t i →
      (Scheduler.stepThread ⟨program, inner.succFor⟩ t i).run now = (.ok out, after) →
      ∀ u ∈ out, u.Accounted program after ∧ s.Preserves u := by
    intro now t i out after h enabled ran u hu
    exact ⟨h.1.step enabled ran u hu, h.2.trans (h.1.preserves_step enabled ran u hu)⟩
  exact Scheduler.successors_keep (fun _ _ h => And.left h |>.orderly.well)
    (fun _ _ _ h later => ⟨And.left h |>.grows later, And.right h⟩) step ⟨h, .refl s⟩ done

theorem combines_ok (done : (analysis program config key inner).Combines ids s t after u) :
    ids ≤ after ∧ s.threads = t.threads ∧ ∃ d, u = s.combine t d := by
  rcases done with done | done
  · obtain ⟨same, d, ran, rfl⟩ := run_join_ok done
    exact ⟨Alloc.le_of_run ran, same, d, rfl⟩
  · obtain ⟨same, d, ran, rfl⟩ := run_merge_ok done
    exact ⟨Alloc.le_of_run ran, same, d, rfl⟩

theorem combine_preserves_left (s t : Scheduled D) (d : D) : s.Preserves (s.combine t d) where
  failed _ _ found _ := found
  violated _ hp := SortedSet.mem_union.mpr (.inl hp)

theorem combine_preserves_right (same : s.threads = t.threads) (d : D) :
    t.Preserves (s.combine t d) where
  failed j a found _ := by
    show s.threads[j]? = some a
    rw [same, found]
  violated _ hp := SortedSet.mem_union.mpr (.inr hp)

theorem accounted_of_derivable
    (derivable : (analysis program config key inner).Derivable program ids s) :
    s.Accounted program ids := by
  have orderly := orderly_invariant program config key inner True True
  induction derivable with
  | initial done member =>
    refine ⟨orderly.initial done _ member, fun t ht failed => ?_⟩
    obtain ⟨data, -, rfl⟩ := run_initial_ok done
    obtain ⟨d, -, rfl⟩ := List.mem_map.mp member
    obtain ⟨id, actor, script, entry, rfl | rfl⟩ := threadsFrom_new ht
    · exact nomatch failed
    · exact nomatch failed
  | succ _ done member ih => exact (ih.succ done _ member).1
  | widen _ done ih =>
    refine ⟨orderly.widen trivial ih.orderly done, ?_⟩
    obtain ⟨d, -, rfl⟩ := widen_ok done
    exact ih.reasons
  | combine _ _ done hs ht =>
    obtain ⟨later, same, d, rfl⟩ := combines_ok done
    exact Accounted.grows ⟨hs.orderly.combine ht.orderly same d, hs.reasons⟩ later
  | later _ grown ih => exact ih.grows grown

theorem preserves_of_descends
    (derivable : (analysis program config key inner).Derivable program ids s)
    (descends : (analysis program config key inner).Descends program ids s after u) :
    s.Preserves u := by
  induction descends with
  | refl => exact .refl s
  | succ before done member ih =>
    have accounted := accounted_of_derivable (before.derivable derivable)
    exact ih.trans (accounted.succ done _ member).2
  | widen _ done ih =>
    obtain ⟨d, -, rfl⟩ := widen_ok done
    exact ⟨ih.failed, ih.violated⟩
  | combineLeft _ _ done ih =>
    obtain ⟨-, -, d, rfl⟩ := combines_ok done
    exact ih.trans (combine_preserves_left _ _ d)
  | combineRight _ _ done ih =>
    obtain ⟨-, same, d, rfl⟩ := combines_ok done
    exact ih.trans (combine_preserves_right same d)
  | later _ _ ih => exact ih

theorem Accounted.same_violated (hs : s.Accounted program ids) (ht : t.Accounted program after)
    (same : t.threads = s.threads) : t.violated = s.violated := by
  refine SortedSet.ext fun p => ?_
  rw [ht.orderly.well.blamed, hs.orderly.well.blamed, same]

/-- States that differ in what they have violated play no part in coverage. -/
theorem stop_filter {reached : List (Scheduled D)}
    (same : ∀ r ∈ reached, r.threads = s.threads → r.violated = s.violated) :
    (analysis program config key inner).stop s reached = (analysis program config key inner).stop s
      (reached.filter fun r => decide (r.violated = s.violated)) := by
  have peers : (reached.filter fun r => decide (r.violated = s.violated)).filter
        (fun r => decide (r.threads = s.threads)) =
      reached.filter fun r => decide (r.threads = s.threads) := by
    rw [List.filter_filter]
    refine List.filter_congr fun r hr => ?_
    by_cases h : r.threads = s.threads
    · simp [h, same r hr h]
    · simp [h]
  simp only [analysis, peers]

theorem stop_of_violated {reached : List (Scheduled D)}
    (same : ∀ r ∈ reached, r.threads = s.threads → r.violated = s.violated)
    (violated : s.violated.isEmpty = false) (clean : ∀ r ∈ reached, r.violated.isEmpty = true) :
    (analysis program config key inner).stop s reached = false := by
  have none : (reached.filter fun r => decide (r.violated = s.violated)) = [] := by
    refine List.filter_eq_nil_iff.mpr fun r hr equal => ?_
    rw [← of_decide_eq_true equal, clean r hr] at violated
    exact nomatch violated
  rw [stop_filter same, none]
  rfl

end Derivation
end Scheduled

namespace Fault

def property : Property := ⟨"safe", by decide⟩

def actors : List Actor :=
  [⟨"a", [⟨0, .bootstrap, .sequence 0 "fail" [.assert .never property]⟩,
    ⟨1, .bootstrap, .sequence 1 "go on" [.skip, .skip]⟩], []⟩]

theorem distinct : (relationIds actors).Nodup := by
  change [0, 1].Nodup
  decide

def program : Program := ⟨actors, ∅, distinct⟩

abbrev analysis : Analysis (Scheduled DataState) :=
  Scheduled.analysis program ⟨false, 1000⟩ (fun _ => 0) (DataState.analysis ⟨true, .all⟩)

def before : Scheduled DataState :=
  .start [.start 0 "a" 0 0, .start 1 "a" 1 0] (.known ∅)

def failed : Thread :=
  { Thread.start 0 "a" 0 0 with status := .failed, failedFor := .singleton property }

def broken : Scheduled DataState where
  threads := [failed, .start 1 "a" 1 0]
  stepped := .singleton 0
  violated := .singleton property
  data := .known ∅

def sound : Scheduled DataState where
  threads := [.start 0 "a" 0 0, .start 1 "a" 1 1]
  stepped := .singleton 1
  violated := ∅
  data := .known ∅

def goneOn : Scheduled DataState where
  threads := [failed, .start 1 "a" 1 1]
  stepped := .singleton 1
  violated := .singleton property
  data := .known ∅

theorem starts : (analysis.initial program).run .start = (.ok [before], ⟨2, 0⟩) := rfl

theorem steps : (analysis.succ before).run ⟨2, 0⟩ = (.ok [broken, sound], ⟨2, 0⟩) := rfl

theorem goes_on : (analysis.succ broken).run ⟨2, 0⟩ = (.ok [goneOn], ⟨2, 0⟩) := rfl

end Fault

namespace Scheduled

variable {D : Type} {program : Program} {ids : Ids} {s : Scheduled D}

/-- In every state that the scheduling layer makes, the violated properties are those that threads
have failed for, and exactly the failed threads have failed for some. They stay as they are in all
descendants, which forget no violation. So states with the same threads have violated the same, and
a state that has violated something is not covered by states that have not. -/
theorem violated_is_what_threads_failed_for (config : ScheduleConfig)
    (key : List Thread → PartitionKey) (inner : DataAnalysis D)
    (derivable : (analysis program config key inner).Derivable program ids s) :
    (∀ p, p ∈ s.violated ↔ ∃ t ∈ s.threads, p ∈ t.failedFor) ∧
    (∀ t ∈ s.threads, t.failedFor.isEmpty = false ↔ t.status = .failed) ∧
    (∀ after u, (analysis program config key inner).Descends program ids s after u →
      (∀ (j : Nat) t, s.threads[j]? = some t → t.status = .failed → u.threads[j]? = some t) ∧
      ∀ p ∈ s.violated, p ∈ u.violated) ∧
    (∀ after u, (analysis program config key inner).Derivable program after u →
      u.threads = s.threads → u.violated = s.violated) ∧
    ∀ reached, (∀ r ∈ reached,
        ∃ after, (analysis program config key inner).Derivable program after r) →
      (analysis program config key inner).stop s reached =
        (analysis program config key inner).stop s
          (reached.filter fun r => decide (r.violated = s.violated)) ∧
      (s.violated.isEmpty = false → (∀ r ∈ reached, r.violated.isEmpty = true) →
        (analysis program config key inner).stop s reached = false) ∧
      ((∀ d, inner.target d = ∅) →
        ((analysis program config key inner).target s).isEmpty = false →
        (∀ r ∈ reached, ((analysis program config key inner).target r).isEmpty = true) →
        (analysis program config key inner).stop s reached = false) := by
  have accounted := accounted_of_derivable derivable
  refine ⟨accounted.orderly.well.blamed, fun t ht => ⟨fun blamed => ?_, fun failed => ?_⟩,
    fun after u descends => ?_, fun after u other same => ?_, fun reached all => ?_⟩
  · obtain ⟨p, hp⟩ := SortedSet.exists_mem blamed
    exact accounted.orderly.well.failed t ht p hp
  · obtain ⟨p, hp⟩ := accounted.reasons t ht failed
    exact Bool.eq_false_iff.mpr fun empty => SortedSet.isEmpty_iff.mp empty p hp
  · have preserves := preserves_of_descends derivable descends
    exact ⟨preserves.failed, preserves.violated⟩
  · exact accounted.same_violated (accounted_of_derivable other) same
  · have same : ∀ r ∈ reached, r.threads = s.threads → r.violated = s.violated := by
      intro r hr threads
      obtain ⟨after, other⟩ := all r hr
      exact accounted.same_violated (accounted_of_derivable other) threads
    refine ⟨stop_filter same, stop_of_violated same, fun none violated clean => ?_⟩
    have target (r : Scheduled D) :
        (analysis program config key inner).target r = r.violated := by
      refine SortedSet.ext fun p => ?_
      show p ∈ r.violated.union (inner.target r.data) ↔ p ∈ r.violated
      simp [none]
    rw [target] at violated
    exact stop_of_violated same violated fun r hr => target r ▸ clean r hr

/-- The failed thread stays as it is while the other goes on. The state is not covered by the one
in which the other thread has stepped first. -/
theorem failure_is_kept : Fault.analysis.Descends Fault.program ⟨2, 0⟩ Fault.broken ⟨2, 0⟩
      Fault.goneOn ∧
    (Fault.goneOn.threads[0]? = some Fault.failed ∧ Fault.property ∈ Fault.goneOn.violated) ∧
    Fault.analysis.stop Fault.broken [Fault.before, Fault.sound] = false := by
  have before : Fault.analysis.Derivable Fault.program ⟨2, 0⟩ Fault.before :=
    .initial Fault.starts List.mem_cons_self
  have broken : Fault.analysis.Derivable Fault.program ⟨2, 0⟩ Fault.broken :=
    .succ before Fault.steps List.mem_cons_self
  have sound : Fault.analysis.Derivable Fault.program ⟨2, 0⟩ Fault.sound :=
    .succ before Fault.steps (List.mem_cons_of_mem _ List.mem_cons_self)
  have goesOn : Fault.analysis.Descends Fault.program ⟨2, 0⟩ Fault.broken ⟨2, 0⟩ Fault.goneOn :=
    .succ .refl Fault.goes_on List.mem_cons_self
  obtain ⟨-, -, descends, -, covered⟩ := violated_is_what_threads_failed_for _ _ _ broken
  obtain ⟨stays, grows⟩ := descends _ _ goesOn
  have others : ∀ r ∈ [Fault.before, Fault.sound],
      ∃ after, Fault.analysis.Derivable Fault.program after r := by
    simp only [List.forall_mem_cons]
    exact ⟨⟨_, before⟩, ⟨_, sound⟩, nofun⟩
  refine ⟨goesOn, ⟨stays 0 Fault.failed rfl rfl, grows Fault.property ?_⟩, ?_⟩
  · exact SortedSet.mem_singleton.mpr rfl
  · exact (covered _ others).2.1 rfl (by decide)

end Scheduled
end ActorAnalysis
