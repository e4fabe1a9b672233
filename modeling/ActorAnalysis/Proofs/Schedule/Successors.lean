import ActorAnalysis.Proofs.Schedule.Invariant
import Mathlib.Logic.Relation

namespace ActorAnalysis

theorem mapM_except_ok {α β : Type} {f : α → Except Error β} {l : List α} {out : List β}
    (done : l.mapM f = .ok out) :
    (∀ (i : Nat) b, out[i]? = some b ↔ ∃ a, l[i]? = some a ∧ f a = .ok b) ∧
      ∀ a ∈ l, ∃ b, f a = .ok b := by
  induction l generalizing out with
  | nil =>
    cases done
    simp
  | cons x rest ih =>
    rw [List.mapM_cons] at done
    cases hx : f x with
    | error e =>
      rw [hx] at done
      exact nomatch done
    | ok y =>
      cases hrest : rest.mapM f with
      | error e =>
        rw [hx, hrest] at done
        exact nomatch done
      | ok ys =>
        rw [hx, hrest] at done
        cases done
        refine ⟨fun i b => ?_, fun a ha => ?_⟩
        · cases i with
          | zero => simp [hx]
          | succ i => simpa using (ih hrest).1 i b
        · rcases List.mem_cons.mp ha with rfl | ha
          · exact ⟨y, hx⟩
          · exact (ih hrest).2 a ha

theorem mapM_except_succeeds {α β : Type} {f : α → Except Error β} {l : List α}
    (each : ∀ a ∈ l, ∃ b, f a = .ok b) : ∃ out, l.mapM f = .ok out := by
  induction l with
  | nil => exact ⟨[], rfl⟩
  | cons x rest ih =>
    obtain ⟨y, hy⟩ := each x List.mem_cons_self
    obtain ⟨ys, hys⟩ := ih fun a ha => each a (List.mem_cons_of_mem x ha)
    refine ⟨y :: ys, ?_⟩
    rw [List.mapM_cons, hy, hys]
    rfl

namespace Scheduled

variable {D : Type} {s : Scheduled D}

theorem isAtomic_of_atomicThread? {index : Nat} (found : s.atomicThread? = some index) :
    s.isAtomic index = true := by
  obtain ⟨inside, atomic, -⟩ := List.findIdx?_eq_some_iff_getElem.mp found
  exact isAtomic_iff.mpr ⟨_, List.getElem?_eq_getElem inside, of_decide_eq_true atomic⟩

theorem not_isAtomic_of_atomicThread? (none : s.atomicThread? = none) (index : Nat) :
    s.isAtomic index ≠ true := by
  intro atomic
  obtain ⟨t, found, hstatus⟩ := isAtomic_iff.mp atomic
  have outside := List.findIdx?_eq_none_iff.mp none t (List.mem_of_getElem? found)
  simp [hstatus] at outside

end Scheduled

namespace Scheduler

variable {D : Type} {m : Scheduler D} {s : Scheduled D} {index : Nat} {ids after : Ids}

theorem mem_eligible {l : List Nat} (done : m.eligible s = .ok l) :
    index ∈ l ↔ s.atomicThread? = some index ∨ s.atomicThread? = none ∧
      ∃ t, s.threads[index]? = some t ∧ m.mayStep s.data t = .ok true := by
  unfold eligible at done
  split at done
  · rename_i i found
    cases done
    simp [found, eq_comm]
  · rename_i none
    cases flags : s.threads.mapM (m.mayStep s.data) with
    | error e =>
      rw [flags] at done
      exact nomatch done
    | ok bs =>
      rw [flags] at done
      cases done
      rw [← (mapM_except_ok flags).1]
      simp [none, List.mem_zipIdx_iff_getElem?]

theorem mayStep_of_eligible {l : List Nat} (done : m.eligible s = .ok l)
    (none : s.atomicThread? = none) {t : Thread} (member : t ∈ s.threads) :
    ∃ b, m.mayStep s.data t = .ok b := by
  unfold eligible at done
  rw [none] at done
  cases flags : s.threads.mapM (m.mayStep s.data) with
  | error e =>
    rw [flags] at done
    exact nomatch done
  | ok bs => exact (mapM_except_ok flags).2 t member

theorem eligible_succeeds (each : s.atomicThread? = none → ∀ t ∈ s.threads,
    ∃ b, m.mayStep s.data t = .ok b) : ∃ l, m.eligible s = .ok l := by
  unfold eligible
  split
  · exact ⟨_, rfl⟩
  · rename_i none
    obtain ⟨bs, flags⟩ := mapM_except_succeeds (each none)
    rw [flags]
    exact ⟨_, rfl⟩

theorem mayStep_true {data : D} {t : Thread} (may : m.mayStep data t = .ok true) :
    t.status = .running ∨ t.status = .waiting ∧ t.waitsFor.isEmpty = true ∧
      ∃ cond, m.wakeCondition t = .ok (some cond) ∧ m.mayHold data cond = .ok true := by
  unfold mayStep at may
  split at may
  · rename_i running
    exact .inl running
  · rename_i waiting
    split at may
    · rename_i free
      cases wake : m.wakeCondition t with
      | error e =>
        rw [wake] at may
        exact nomatch may
      | ok cond? =>
        rw [wake] at may
        cases cond? with
        | none => exact nomatch may
        | some cond => exact .inr ⟨waiting, free, cond, rfl, may⟩
    · exact nomatch may
  · exact nomatch may

def Enabled (m : Scheduler D) (s : Scheduled D) (index : Nat) : Prop :=
  ∃ l, m.eligible s = .ok l ∧ index ∈ l

theorem Enabled.cases (enabled : m.Enabled s index) {t : Thread}
    (found : s.threads[index]? = some t) :
    t.status = .runningAtomic ∨ m.mayStep s.data t = .ok true := by
  obtain ⟨l, done, member⟩ := enabled
  rcases (mem_eligible done).mp member with atomic | ⟨-, t', at_, may⟩
  · obtain ⟨t', at_, status⟩ :=
      Scheduled.isAtomic_iff.mp (Scheduled.isAtomic_of_atomicThread? atomic)
    exact .inl (Option.some.inj (found.symm.trans at_) ▸ status)
  · exact .inr (Option.some.inj (found.symm.trans at_) ▸ may)

theorem Enabled.unfinished (enabled : m.Enabled s index) {t : Thread}
    (found : s.threads[index]? = some t) : t.status.isTerminal = false := by
  rcases enabled.cases found with atomic | may
  · rw [atomic]
    rfl
  · rcases mayStep_true may with running | ⟨waiting, -⟩
    · rw [running]
      rfl
    · rw [waiting]
      rfl

theorem Enabled.turn (enabled : m.Enabled s index) (well : s.WellFormed ids) : s.Turn index := by
  refine ⟨fun t found failed => ?_, fun j hj => ?_⟩
  · have active := enabled.unfinished found
    rw [failed] at active
    exact nomatch active
  · obtain ⟨l, done, member⟩ := enabled
    rcases (mem_eligible done).mp member with found | ⟨none, -⟩
    · exact well.single j index hj (Scheduled.isAtomic_of_atomicThread? found)
    · exact absurd hj (Scheduled.not_isAtomic_of_atomicThread? none j)

theorem eligible_of_atomic (m : Scheduler D) (well : s.WellFormed ids)
    (atomic : s.isAtomic index = true) : m.eligible s = .ok [index] := by
  unfold eligible
  split
  · rename_i i found
    rw [well.single i index (Scheduled.isAtomic_of_atomicThread? found) atomic]
  · rename_i none
    exact absurd atomic (Scheduled.not_isAtomic_of_atomicThread? none index)

theorem enabled_of_atomic (m : Scheduler D) (well : s.WellFormed ids)
    (atomic : s.isAtomic index = true) : m.Enabled s index :=
  ⟨[index], eligible_of_atomic m well atomic, List.mem_cons_self⟩

theorem atomicStep_gave {part : List (Scheduled D) × List (Scheduled D)}
    (gave : (m.atomicStep index s).Gave ids part after) :
    (s.isAtomic index = true → (m.stepThread s index).Gave ids part.2 after) ∧
      (s.isAtomic index = false → part.2 = []) ∧ part.1 = if part.2.isEmpty then [s] else [] := by
  obtain ⟨first, last, before, later, ran⟩ := gave
  unfold atomicStep at ran
  split at ran
  · rename_i atomic
    rw [Alloc.run_bind_ok] at ran
    obtain ⟨further, mid, stepped, ran⟩ := ran
    obtain ⟨rfl, rfl⟩ := Alloc.run_pure_ok.mp ran
    have same : (if further.isEmpty then ([s], []) else ([], further)).2 = further := by
      cases further <;> rfl
    rw [same]
    refine ⟨fun _ => ⟨first, last, before, later, stepped⟩, fun outside => ?_, ?_⟩
    · rw [atomic] at outside
      exact nomatch outside
    · exact apply_ite Prod.fst _ _ _
  · rename_i outside
    obtain ⟨rfl, -⟩ := Alloc.run_pure_ok.mp ran
    exact ⟨fun atomic => absurd atomic outside, fun _ => rfl, rfl⟩

theorem aggregate_zero (level : List (Scheduled D)) : m.aggregate index 0 level = pure level := by
  cases level <;> rfl

theorem aggregate_more (steps : Nat) (level : List (Scheduled D)) :
    m.aggregate index (steps + 1) level = (do
      let parts ← level.mapM (m.atomicStep index)
      let later ← m.aggregate index steps (parts.map Prod.snd).flatten
      return (parts.map Prod.fst).flatten ++ later) := by
  cases level with
  | nil => cases steps <;> rfl
  | cons s rest => rfl

/-- One level of aggregated steps. A state is kept, or replaced by its successors. -/
theorem aggregate_succ {steps : Nat} {level out : List (Scheduled D)}
    (done : (m.aggregate index (steps + 1) level).run ids = (.ok out, after)) :
    ∃ kept next later mid, out = kept ++ later ∧ ids ≤ mid ∧
      (m.aggregate index steps next).run mid = (.ok later, after) ∧
      (∀ s ∈ kept, s ∈ level) ∧
      (∀ u ∈ next, ∃ s ∈ level, s.isAtomic index = true ∧
        ∃ further, (m.stepThread s index).Gave ids further mid ∧ u ∈ further) ∧
      ∀ s ∈ level, s ∈ kept ∨ s.isAtomic index = true ∧
        ∃ further, (m.stepThread s index).Gave ids further mid ∧ ∀ u ∈ further, u ∈ next := by
  rw [aggregate_more, Alloc.run_bind_ok] at done
  obtain ⟨parts, mid, ran, done⟩ := done
  rw [Alloc.run_bind_ok] at done
  obtain ⟨later, last, further, done⟩ := done
  obtain ⟨rfl, rfl⟩ := Alloc.run_pure_ok.mp done
  obtain ⟨from_, onto⟩ := Alloc.mapM_gave ran
  refine ⟨_, _, later, mid, rfl, Alloc.le_of_run ran, further, fun u hu => ?_, fun u hu => ?_,
    fun x hx => ?_⟩
  · obtain ⟨l, hl, hu⟩ := List.mem_flatten.mp hu
    obtain ⟨part, hpart, rfl⟩ := List.mem_map.mp hl
    obtain ⟨x, hx, gave⟩ := from_ part hpart
    obtain ⟨-, -, kept⟩ := atomicStep_gave gave
    rw [kept] at hu
    split at hu
    · exact List.mem_singleton.mp hu ▸ hx
    · exact nomatch hu
  · obtain ⟨l, hl, hu⟩ := List.mem_flatten.mp hu
    obtain ⟨part, hpart, rfl⟩ := List.mem_map.mp hl
    obtain ⟨x, hx, gave⟩ := from_ part hpart
    obtain ⟨stepped, none, -⟩ := atomicStep_gave gave
    cases atomic : x.isAtomic index with
    | true => exact ⟨x, hx, atomic, part.2, stepped atomic, hu⟩
    | false =>
      rw [none atomic] at hu
      exact nomatch hu
  · obtain ⟨part, hpart, gave⟩ := onto x hx
    obtain ⟨stepped, none, kept⟩ := atomicStep_gave gave
    cases empty : part.2.isEmpty with
    | true =>
      rw [empty] at kept
      exact .inl (List.mem_flatten.mpr ⟨[x], List.mem_map.mpr ⟨part, hpart, kept⟩,
        List.mem_cons_self⟩)
    | false =>
      have atomic : x.isAtomic index = true := by
        refine Bool.not_eq_false _ |>.mp fun outside => ?_
        rw [none outside] at empty
        exact nomatch empty
      refine .inr ⟨atomic, part.2, stepped atomic, fun u hu => ?_⟩
      exact List.mem_flatten.mpr ⟨part.2, List.mem_map_of_mem hpart, hu⟩

/-- A step of the thread at `index`, taken between the numbers that the two states come with. -/
def Steps (m : Scheduler D) (index : Nat) (c e : Scheduled D × Ids) : Prop :=
  ∃ out, (m.stepThread c.1 index).Gave c.2 out e.2 ∧ e.1 ∈ out

def Runs (m : Scheduler D) (index : Nat) : Scheduled D × Ids → Scheduled D × Ids → Prop :=
  Relation.ReflTransGen fun c e => c.1.isAtomic index = true ∧ m.Steps index c e

theorem aggregate_runs {steps : Nat} {level out : List (Scheduled D)}
    (done : (m.aggregate index steps level).run ids = (.ok out, after)) :
    ∀ u ∈ out, ∃ s ∈ level, ∃ last, m.Runs index (s, ids) (u, last) ∧ last ≤ after := by
  induction steps generalizing level out ids with
  | zero =>
    have same : out = level ∧ after = ids := by
      cases level <;> exact Alloc.run_pure_ok.mp done
    obtain ⟨rfl, rfl⟩ := same
    exact fun u hu => ⟨u, hu, after, .refl, Ids.le_refl after⟩
  | succ steps ih =>
    obtain ⟨kept, next, later, mid, rfl, before, further, old, new, -⟩ := aggregate_succ done
    intro u hu
    rcases List.mem_append.mp hu with hu | hu
    · exact ⟨u, old u hu, ids, .refl, Alloc.le_of_run done⟩
    · obtain ⟨x, hx, last, runs, ends⟩ := ih further u hu
      obtain ⟨s, hs, atomic, out, gave, member⟩ := new x hx
      exact ⟨s, hs, last, runs.head ⟨atomic, out, gave, member⟩, ends⟩

theorem successors_gave {config : ScheduleConfig} {out : List (Scheduled D)}
    (done : (m.successors config s).run ids = (.ok out, after)) :
    ∃ l parts, m.eligible s = .ok l ∧ out = parts.flatten ∧
      List.Forall₂ (fun i part => (m.stepEligible config s i).Gave ids part after) l parts := by
  unfold successors at done
  rw [Alloc.run_bind_ok] at done
  obtain ⟨l, mid, ran, done⟩ := done
  obtain ⟨eligible, rfl⟩ := Alloc.run_liftM_ok.mp ran
  rw [Alloc.run_bind_ok] at done
  obtain ⟨parts, last, ran, done⟩ := done
  obtain ⟨rfl, rfl⟩ := Alloc.run_pure_ok.mp done
  exact ⟨l, parts, eligible, rfl, Alloc.mapM_each ran⟩

theorem successors_succeed {config : ScheduleConfig} {l : List Nat}
    (eligible : m.eligible s = .ok l)
    (each : ∀ i ∈ l, ∀ first, ids ≤ first →
      ∃ out last, (m.stepEligible config s i).run first = (.ok out, last)) :
    ∃ out after, (m.successors config s).run ids = (.ok out, after) := by
  obtain ⟨parts, after, ran⟩ := Alloc.mapM_succeeds each
  refine ⟨parts.flatten, after, Alloc.run_bind_ok.mpr ⟨l, ids, ?_, ?_⟩⟩
  · exact Alloc.run_liftM_ok.mpr ⟨eligible, rfl⟩
  · exact Alloc.run_bind_ok.mpr ⟨parts, after, ran, rfl⟩

theorem successors_of_atomic (well : s.WellFormed ids) (atomic : s.isAtomic index = true)
    (limit : Nat) : m.successors ⟨false, limit⟩ s = m.stepThread s index := by
  have lifted : (liftM (m.eligible s) : Alloc (List Nat)) = pure [index] := by
    rw [eligible_of_atomic m well atomic]
    rfl
  unfold successors
  rw [lifted]
  simp [stepEligible]

/-- A successor is found by a step of an enabled thread, and by more of them if those of an atomic
section are taken as one. -/
theorem successors_runs {config : ScheduleConfig} {out : List (Scheduled D)}
    (done : (m.successors config s).run ids = (.ok out, after)) {u : Scheduled D} (hu : u ∈ out) :
    ∃ i c last, m.Enabled s i ∧ m.Steps i (s, ids) c ∧ m.Runs i c (u, last) ∧ last ≤ after ∧
      (config.aggregateAtomic = false → c = (u, last)) := by
  obtain ⟨indices, parts, eligible, rfl, each⟩ := successors_gave done
  obtain ⟨l, hl, hu⟩ := List.mem_flatten.mp hu
  obtain ⟨i, hi, first, last, before, later, ran⟩ := mem_of_forall₂ (List.Forall₂.flip each) hl
  have enabled : m.Enabled s i := ⟨indices, eligible, hi⟩
  unfold stepEligible at ran
  rw [Alloc.run_bind_ok] at ran
  obtain ⟨stepped, next, ran, rest⟩ := ran
  have gave : (m.stepThread s i).Gave ids stepped next :=
    ⟨first, next, before, Ids.le_refl next, ran⟩
  split at rest
  · rename_i aggregated
    obtain ⟨x, hx, ends, runs, le⟩ := aggregate_runs rest u hu
    refine ⟨i, (x, next), ends, enabled, ⟨stepped, gave, hx⟩, runs, Ids.le_trans le later, ?_⟩
    intro single
    rw [single] at aggregated
    exact nomatch aggregated
  · obtain ⟨rfl, rfl⟩ := Alloc.run_pure_ok.mp rest
    exact ⟨i, (u, last), last, enabled, ⟨l, gave, hu⟩, .refl, later, fun _ => rfl⟩

/-- What each step of an enabled thread keeps, all successors keep. -/
theorem successors_keep {keeps : Ids → Scheduled D → Prop} {config : ScheduleConfig}
    (well : ∀ ids s, keeps ids s → s.WellFormed ids)
    (grows : ∀ ids after s, keeps ids s → ids ≤ after → keeps after s)
    (step : ∀ ids s i out after, keeps ids s → m.Enabled s i →
      (m.stepThread s i).run ids = (.ok out, after) → ∀ u ∈ out, keeps after u)
    {out : List (Scheduled D)} (start : keeps ids s)
    (done : (m.successors config s).run ids = (.ok out, after)) : ∀ u ∈ out, keeps after u := by
  intro u hu
  have one {i : Nat} {c e : Scheduled D × Ids} (h : keeps c.2 c.1) (enabled : m.Enabled c.1 i)
      (steps : m.Steps i c e) : keeps e.2 e.1 := by
    obtain ⟨out, ⟨first, last, before, later, ran⟩, member⟩ := steps
    exact grows _ _ _ (step first _ i out last (grows _ _ _ h before) enabled ran _ member) later
  obtain ⟨i, c, last, enabled, steps, runs, later, -⟩ := successors_runs done hu
  have kept (e : Scheduled D × Ids) (runs : m.Runs i c e) : keeps e.2 e.1 := by
    induction runs with
    | refl => exact one start enabled steps
    | tail _ next h => exact one h (enabled_of_atomic m (well _ _ h) next.1) next.2
  exact grows _ _ u (kept _ runs) later

theorem successors_wellFormed {config : ScheduleConfig} {out : List (Scheduled D)}
    (well : s.WellFormed ids) (done : (m.successors config s).run ids = (.ok out, after)) :
    ∀ u ∈ out, u.WellFormed after :=
  successors_keep (fun _ _ h => h) (fun _ _ _ h later => h.grows later)
    (fun _ _ _ _ _ h enabled ran => stepThread_wellFormed h (enabled.turn h) ran) well done

end Scheduler
end ActorAnalysis
