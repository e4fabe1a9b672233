import ActorAnalysis.Proofs.Schedule.Lineup

namespace ActorAnalysis

def Scripted (p : Program) (threads : List Thread) : Prop :=
  ∀ t ∈ threads, ∃ script, p.scriptAt t.ref = .ok script

theorem Scripted.of_refs {p : Program} {threads threads' : List Thread}
    (scripted : Scripted p threads) (refs : threads'.map Thread.ref = threads.map Thread.ref) :
    Scripted p threads' := by
  intro b hb
  have listed : b.ref ∈ threads.map Thread.ref := refs ▸ List.mem_map_of_mem hb
  obtain ⟨a, ha, same⟩ := List.mem_map.mp listed
  rw [← same]
  exact scripted a ha

theorem threadsFrom_scripted {p : Program} (names : (p.actors.map Actor.name).Nodup)
    (first : ThreadId) : Scripted p (threadsFrom first p.scripts) := by
  intro t ht
  obtain ⟨-, listed⟩ := mem_refs_of_mem_threadsFrom ht
  obtain ⟨e, he, ref⟩ := List.mem_map.mp listed
  rw [← ref]
  exact Program.scriptAt_succeeds names he

section Broadcast

variable {p : Program} {message : String} {sender : Nat} {threads : List Thread}

theorem instances_inRange {ref : ScriptRef} {indices : List Nat}
    (listed : (ref, indices) ∈ (instances threads).entries) :
    indices ≠ [] ∧ ∀ i ∈ indices, i < threads.length := by
  refine ⟨instances_nonempty _ listed, fun i hi => ?_⟩
  obtain ⟨t, found, -⟩ := (mem_instances_iff listed).mp hi
  exact (List.getElem?_eq_some_iff.mp found).1

theorem restartInstance_length {r r' : Restarted} {ref : ScriptRef} {indices : List Nat}
    {ids after : Ids}
    (done : (restartInstance p message sender r ref indices).run ids = (.ok r', after)) :
    r'.threads.length = r.threads.length := by
  rcases restartInstance_cases done with ⟨rfl, -, -⟩ | ⟨-, -, script, -, -, rfl, -⟩
  · rfl
  · exact length_enterAt ..

theorem restartInstance_succeeds {ref : ScriptRef} {script : Script}
    (found : p.scriptAt ref = .ok script) (indices : List Nat) (r : Restarted) (ids : Ids) :
    ∃ r' after, (restartInstance p message sender r ref indices).run ids = (.ok r', after) := by
  unfold restartInstance
  split
  · exact ⟨r, ids, rfl⟩
  · rw [found]
    simp only [Alloc.run_bind, Alloc.run_liftM, Alloc.next_ok]
    split
    · exact ⟨_, _, rfl⟩
    · exact ⟨_, _, rfl⟩

theorem restartReceivers_succeeds (scripted : Scripted p threads) (message : String) (sender : Nat)
    (ids : Ids) :
    ∃ r after, (restartReceivers p message sender threads).run ids = (.ok r, after) := by
  refine Alloc.foldlM_succeeds ?_ _ ids
  rintro ⟨ref, indices⟩ listed r ids
  obtain ⟨i, hi⟩ := List.exists_mem_of_ne_nil indices (instances_nonempty _ listed)
  obtain ⟨t, at_, rfl⟩ := (mem_instances_iff listed).mp hi
  obtain ⟨script, found⟩ := scripted t (List.mem_of_getElem? at_)
  exact restartInstance_succeeds found indices r ids

end Broadcast

namespace Scheduler

variable {D : Type} {m : Scheduler D} {s u : Scheduled D} {index : Nat} {ids after : Ids}

theorem deliver_succeeds {threads : List Thread} (scripted : Scripted m.program threads)
    (sender : Nat) (op : Operation) (ids : Ids) :
    ∃ threads' after, (m.deliver sender op threads).run ids = (.ok threads', after) := by
  cases op with
  | broadcast message =>
    obtain ⟨r, after, ran⟩ := restartReceivers_succeeds scripted message sender ids
    exact ⟨r.threads, after, Alloc.run_bind_ok.mpr ⟨r, after, ran, rfl⟩⟩
  | broadcastWait message =>
    obtain ⟨r, after, ran⟩ := restartReceivers_succeeds scripted message sender ids
    unfold deliver
    simp only [Alloc.run_bind, ran, Alloc.next_ok]
    split
    · exact ⟨_, _, rfl⟩
    · exact ⟨_, _, rfl⟩
  | _ => exact ⟨threads, ids, rfl⟩

theorem stepThread_scripted (scripted : Scripted m.program s.threads) {out : List (Scheduled D)}
    (ran : (m.stepThread s index).run ids = (.ok out, after)) :
    ∀ u ∈ out, Scripted m.program u.threads := by
  intro u hu
  obtain ⟨t, script, found, -, performed⟩ := stepThread_performed ran
  obtain ⟨move, member, ds, -, d, -, gave⟩ := performed.only u hu
  exact scripted.of_refs (perform_refs found (Script.moves_keep member) gave)

section Success

variable (steps : ∀ d op, ∃ ds, m.step d op = .ok ds)
include steps

theorem stepThread_total (scripted : Scripted m.program s.threads)
    (inside : index < s.threads.length) (ids : Ids) :
    ∃ out after, (m.stepThread s index).run ids = (.ok out, after) := by
  have found : s.threads[index]? = some s.threads[index] := List.getElem?_eq_getElem inside
  obtain ⟨script, hscript⟩ := scripted _ (List.mem_of_getElem? found)
  refine stepThread_succeeds found hscript fun move member => ?_
  obtain ⟨ds, passed⟩ : ∃ ds, m.pass s.data move.guard = .ok ds := by
    cases move.guard with
    | none => exact ⟨_, rfl⟩
    | some op => exact steps s.data op
  refine ⟨ds, passed, fun d _ first _ => ?_⟩
  have moved : Scripted m.program (s.threads.set index move.thread) :=
    scripted.of_refs (map_ref_set found (Script.moves_keep member).ref)
  obtain ⟨threads, last, delivered⟩ := deliver_succeeds moved index move.sends first
  exact ⟨_, last, run_perform_ok.mpr ⟨threads, delivered, rfl⟩⟩

theorem aggregate_total (steps' : Nat) {level : List (Scheduled D)}
    (scripted : ∀ s ∈ level, Scripted m.program s.threads) (ids : Ids) :
    ∃ out after, (m.aggregate index steps' level).run ids = (.ok out, after) := by
  induction steps' generalizing level ids with
  | zero => exact ⟨level, ids, by rw [aggregate_zero]; rfl⟩
  | succ steps' ih =>
    have each : ∀ s ∈ level, ∀ first, ids ≤ first →
        ∃ part last, (m.atomicStep index s).run first = (.ok part, last) := by
      intro s hs first _
      unfold atomicStep
      split
      · rename_i atomic
        obtain ⟨t, found, -⟩ := Scheduled.isAtomic_iff.mp atomic
        obtain ⟨out, last, ran⟩ := stepThread_total steps (scripted s hs)
          (List.getElem?_eq_some_iff.mp found).1 first
        exact ⟨_, last, Alloc.run_bind_ok.mpr ⟨out, last, ran, rfl⟩⟩
      · exact ⟨_, first, rfl⟩
    obtain ⟨parts, mid, ran⟩ := Alloc.mapM_succeeds each
    have further : ∀ u ∈ (parts.map Prod.snd).flatten, Scripted m.program u.threads := by
      intro u hu
      obtain ⟨l, hl, hu⟩ := List.mem_flatten.mp hu
      obtain ⟨part, hpart, rfl⟩ := List.mem_map.mp hl
      obtain ⟨s, hs, gave⟩ := (Alloc.mapM_gave ran).1 part hpart
      obtain ⟨stepped, stays, -⟩ := atomicStep_gave gave
      cases atomic : s.isAtomic index with
      | true =>
        obtain ⟨first, last, -, -, done⟩ := stepped atomic
        exact stepThread_scripted (scripted s hs) done u hu
      | false =>
        rw [stays atomic] at hu
        exact absurd hu List.not_mem_nil
    obtain ⟨later, after, rest⟩ := ih further mid
    rw [aggregate_more]
    exact ⟨_, after, Alloc.run_bind_ok.mpr ⟨parts, mid, ran,
      Alloc.run_bind_ok.mpr ⟨later, after, rest, rfl⟩⟩⟩

theorem mayStep_succeeds {t : Thread} {script : Script}
    (found : m.program.scriptAt t.ref = .ok script) (data : D) :
    ∃ b, m.mayStep data t = .ok b := by
  have woken : ∃ cond, m.wakeCondition t = .ok cond := by
    unfold wakeCondition
    rw [found]
    simp only [bind, Except.bind]
    split
    · exact ⟨_, rfl⟩
    · split
      · exact ⟨_, rfl⟩
      · exact ⟨_, rfl⟩
  obtain ⟨cond, woken⟩ := woken
  unfold mayStep
  split
  · exact ⟨_, rfl⟩
  · split
    · rw [woken]
      cases cond with
      | none => exact ⟨_, rfl⟩
      | some c =>
        obtain ⟨ds, assumed⟩ := steps data (.assume c)
        simp only [bind, Except.bind, mayHold, assumed]
        exact ⟨_, rfl⟩
    · exact ⟨_, rfl⟩
  · exact ⟨_, rfl⟩

theorem successors_total (config : ScheduleConfig) (scripted : Scripted m.program s.threads)
    (ids : Ids) : ∃ out after, (m.successors config s).run ids = (.ok out, after) := by
  obtain ⟨l, eligible⟩ : ∃ l, m.eligible s = .ok l := by
    refine eligible_succeeds fun _ t ht => ?_
    obtain ⟨script, found⟩ := scripted t ht
    exact mayStep_succeeds steps found s.data
  refine successors_succeed eligible fun i hi first _ => ?_
  have inside : i < s.threads.length := by
    rcases (mem_eligible eligible).mp hi with atomic | ⟨-, t, found, -⟩
    · obtain ⟨t, found, -⟩ := Scheduled.isAtomic_iff.mp (Scheduled.isAtomic_of_atomicThread? atomic)
      exact (List.getElem?_eq_some_iff.mp found).1
    · exact (List.getElem?_eq_some_iff.mp found).1
  obtain ⟨stepped, mid, ran⟩ := stepThread_total steps scripted inside first
  unfold stepEligible
  simp only [Alloc.run_bind, ran, Alloc.next_ok]
  split
  · exact aggregate_total steps _ (stepThread_scripted scripted ran) mid
  · exact ⟨_, _, rfl⟩

end Success
end Scheduler
end ActorAnalysis
