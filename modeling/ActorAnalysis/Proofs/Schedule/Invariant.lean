import ActorAnalysis.Proofs.Schedule.Frame
import ActorAnalysis.Proofs.Schedule.Start

namespace ActorAnalysis

structure Move.Continues (move : Move) (t : Thread) : Prop where
  numbers : ∀ x, move.thread.Mentions x → t.Mentions x
  outcome : move.violated = none ∧ move.thread.failedFor = t.failedFor ∧
      move.thread.status ≠ .failed ∨
    ∃ p, move.violated = some p ∧ move.thread.failedFor = t.failedFor.insert p ∧
      move.thread.status = .failed ∧ move.sends = .skip

theorem Transition.moves_continue {tr : Transition} {t : Thread} {move : Move}
    (member : move ∈ tr.moves t) : move.Continues t := by
  rcases mem_moves member with ⟨guard, sends, -, rfl⟩ | ⟨cond, -, rfl⟩ | ⟨cond, property, -, rfl⟩
  · exact ⟨fun _ h => h, .inl ⟨rfl, rfl, Scheduler.statusAfter_ne tr.op rfl nofun⟩⟩
  · exact ⟨fun _ h => h, .inl ⟨rfl, rfl, nofun⟩⟩
  · exact ⟨fun _ h => h, .inr ⟨property, rfl, rfl, rfl, rfl⟩⟩

theorem Script.moves_continue {script : Script} {t : Thread} {move : Move}
    (member : move ∈ script.moves t) : move.Continues t := by
  rcases mem_moves member with ⟨cond, -, rfl⟩ | rfl | ⟨tr, -, member⟩
  · exact ⟨fun _ h => h, .inl ⟨rfl, rfl, fun h => nomatch h⟩⟩
  · exact ⟨fun _ h => h, .inl ⟨rfl, rfl, fun h => nomatch h⟩⟩
  · exact Transition.moves_continue member

def OnlyFailed (threads : List Thread) : Prop :=
  ∀ t ∈ threads, ∀ p ∈ t.failedFor, t.status = .failed

def Blamed (threads : List Thread) (p : Property) : Prop := ∃ t ∈ threads, p ∈ t.failedFor

namespace Threadwise

variable {ids after : Ids} {l l' : List Thread}
  (follows : Threadwise (Thread.Follows ids after) l l')
include follows

theorem onlyFailed (only : OnlyFailed l) : OnlyFailed l' := by
  intro b hb p blamed
  obtain ⟨j, found⟩ := List.getElem?_of_mem hb
  obtain ⟨a, ha, ab⟩ := follows.back found
  rcases ab.failures with same | ⟨-, none⟩
  · exact ab.stays (only a (List.mem_of_getElem? ha) p (same ▸ blamed))
  · rw [none] at blamed
    exact absurd blamed (SortedSet.not_mem_empty p)

theorem blamed_iff (only : OnlyFailed l) (p : Property) : Blamed l' p ↔ Blamed l p := by
  constructor
  · rintro ⟨b, hb, blamed⟩
    obtain ⟨j, found⟩ := List.getElem?_of_mem hb
    obtain ⟨a, ha, ab⟩ := follows.back found
    rcases ab.failures with same | ⟨-, none⟩
    · exact ⟨a, List.mem_of_getElem? ha, same ▸ blamed⟩
    · rw [none] at blamed
      exact absurd blamed (SortedSet.not_mem_empty p)
  · rintro ⟨a, ha, blamed⟩
    obtain ⟨j, found⟩ := List.getElem?_of_mem ha
    obtain ⟨b, hb, ab⟩ := follows.forth found
    rcases ab.failures with same | ⟨active, -⟩
    · exact ⟨b, List.mem_of_getElem? hb, same ▸ blamed⟩
    · exact absurd (only a ha p blamed) active

end Threadwise

namespace Scheduled

variable {D : Type}

structure WellFormed (ids : Ids) (s : Scheduled D) : Prop where
  numbered : ∀ t ∈ s.threads, ∀ x, t.Mentions x → x < ids.threads
  single : ∀ i j, s.isAtomic i = true → s.isAtomic j = true → i = j
  failed : OnlyFailed s.threads
  blamed : ∀ p, p ∈ s.violated ↔ Blamed s.threads p

/-- The thread at `index` has not failed, and no other one is in an atomic section. -/
structure Turn (s : Scheduled D) (index : Nat) : Prop where
  active : ∀ t, s.threads[index]? = some t → t.status ≠ .failed
  alone : ∀ j, s.isAtomic j = true → j = index

theorem isAtomic_iff {s : Scheduled D} {index : Nat} :
    s.isAtomic index = true ↔ ∃ t, s.threads[index]? = some t ∧ t.status = .runningAtomic := by
  simp [isAtomic]

theorem WellFormed.grows {ids after : Ids} {s : Scheduled D} (well : s.WellFormed ids)
    (later : ids ≤ after) : s.WellFormed after :=
  { well with numbered := fun t ht x hx => Nat.lt_of_lt_of_le (well.numbered t ht x hx) later.1 }

end Scheduled

namespace Scheduler

variable {D : Type} {m : Scheduler D} {s u : Scheduled D} {index : Nat} {ids after : Ids}

theorem run_perform_ok {body : Relation} {move : Move} {d : D} :
    (m.perform s index body move d).run ids = (.ok u, after) ↔
      ∃ threads, (m.deliver index move.sends (s.threads.set index move.thread)).run ids =
        (.ok threads, after) ∧ u = settle body s index move.violated threads d := by
  unfold perform
  rw [Alloc.run_bind_ok]
  constructor
  · rintro ⟨threads, mid, delivered, done⟩
    obtain ⟨rfl, rfl⟩ := Alloc.run_pure_ok.mp done
    exact ⟨threads, delivered, rfl⟩
  · rintro ⟨threads, delivered, rfl⟩
    exact ⟨threads, after, delivered, rfl⟩

theorem perform_follows {body : Relation} {move : Move} {t : Thread} {d : D}
    (continues : move.Continues t)
    (done : (m.perform s index body move d).run ids = (.ok u, after)) :
    Threadwise (Thread.Follows ids after) (s.threads.set index move.thread) u.threads := by
  obtain ⟨threads, delivered, rfl⟩ := run_perform_ok.mp done
  have follows := deliver_follows (fun message a sends found failed => ?_) delivered
  · refine follows.trans (settleThreads_follows after body index threads) fun a b c ab bc => ?_
    exact ab.trans bc (Alloc.le_of_run delivered) (Ids.le_refl after)
  · rcases mem_set_cases found with ⟨-, rfl⟩ | ⟨other, -⟩
    · rcases continues.outcome with ⟨-, -, active⟩ | ⟨p, -, -, -, silent⟩
      · exact active failed
      · rw [silent] at sends
        exact nomatch sends
    · exact other rfl

theorem mem_violated_perform {body : Relation} {move : Move} {d : D}
    (done : (m.perform s index body move d).run ids = (.ok u, after)) (p : Property) :
    p ∈ u.violated ↔ p ∈ s.violated ∨ move.violated = some p := by
  obtain ⟨threads, -, rfl⟩ := run_perform_ok.mp done
  unfold settle
  cases h : move.violated with
  | none => simp
  | some q => simp [or_comm, eq_comm]

theorem onlyFailed_set {move : Move} {t : Thread} (well : s.WellFormed ids) (turn : s.Turn index)
    (found : s.threads[index]? = some t) (continues : move.Continues t) :
    OnlyFailed (s.threads.set index move.thread) := by
  intro a ha p blamed
  obtain ⟨j, at_⟩ := List.getElem?_of_mem ha
  rcases mem_set_cases at_ with ⟨-, rfl⟩ | ⟨-, at_⟩
  · rcases continues.outcome with ⟨-, same, -⟩ | ⟨q, -, -, failed, -⟩
    · exact absurd (well.failed t (List.mem_of_getElem? found) p (same ▸ blamed))
        (turn.active t found)
    · exact failed
  · exact well.failed a (List.mem_of_getElem? at_) p blamed

theorem blamed_set {move : Move} {t : Thread} (well : s.WellFormed ids) (turn : s.Turn index)
    (found : s.threads[index]? = some t) (continues : move.Continues t) (p : Property) :
    Blamed (s.threads.set index move.thread) p ↔ p ∈ s.violated ∨ move.violated = some p := by
  have placed : (s.threads.set index move.thread)[index]? = some move.thread := by
    rw [List.getElem?_set_self (List.getElem?_eq_some_iff.mp found).1]
  constructor
  · rintro ⟨a, ha, blamed⟩
    obtain ⟨j, at_⟩ := List.getElem?_of_mem ha
    rcases mem_set_cases at_ with ⟨-, rfl⟩ | ⟨-, at_⟩
    · rcases continues.outcome with ⟨-, same, -⟩ | ⟨q, violated, more, -⟩
      · exact .inl ((well.blamed p).mpr ⟨t, List.mem_of_getElem? found, same ▸ blamed⟩)
      · rw [more] at blamed
        rcases SortedSet.mem_insert.mp blamed with rfl | blamed
        · exact .inr violated
        · exact .inl ((well.blamed p).mpr ⟨t, List.mem_of_getElem? found, blamed⟩)
    · exact .inl ((well.blamed p).mpr ⟨a, List.mem_of_getElem? at_, blamed⟩)
  · rintro (old | new)
    · obtain ⟨a, ha, blamed⟩ := (well.blamed p).mp old
      obtain ⟨j, at_⟩ := List.getElem?_of_mem ha
      have other : index ≠ j := by
        rintro rfl
        exact turn.active a at_ (well.failed a ha p blamed)
      refine ⟨a, List.mem_of_getElem? (i := j) ?_, blamed⟩
      rw [List.getElem?_set_ne other, at_]
    · rcases continues.outcome with ⟨none, -⟩ | ⟨q, violated, more, -⟩
      · rw [none] at new
        exact nomatch new
      · rw [violated] at new
        refine ⟨move.thread, List.mem_of_getElem? placed, ?_⟩
        rw [more, Option.some.inj new]
        exact SortedSet.mem_insert.mpr (.inl rfl)

theorem perform_wellFormed {body : Relation} {move : Move} {t : Thread} {d : D}
    (well : s.WellFormed ids) (turn : s.Turn index) (found : s.threads[index]? = some t)
    (continues : move.Continues t)
    (done : (m.perform s index body move d).run ids = (.ok u, after)) : u.WellFormed after := by
  have follows := perform_follows continues done
  have only := onlyFailed_set well turn found continues
  have alone {j : Nat} (atomic : u.isAtomic j = true) : j = index := by
    obtain ⟨b, hb, hstatus⟩ := Scheduled.isAtomic_iff.mp atomic
    obtain ⟨a, ha, ab⟩ := follows.back hb
    rcases mem_set_cases ha with ⟨here, -⟩ | ⟨-, ha⟩
    · exact here
    · exact turn.alone j (Scheduled.isAtomic_iff.mpr ⟨a, ha, ab.atomic hstatus⟩)
  refine ⟨fun b hb x mentions => ?_, fun i j hi hj => (alone hi).trans (alone hj).symm,
    follows.onlyFailed only, fun p => ?_⟩
  · obtain ⟨j, found'⟩ := List.getElem?_of_mem hb
    obtain ⟨a, ha, ab⟩ := follows.back found'
    rcases ab.numbers x mentions with old | ⟨-, new⟩
    · refine Nat.lt_of_lt_of_le ?_ (Alloc.le_of_run done).1
      rcases mem_set_cases ha with ⟨-, rfl⟩ | ⟨-, ha⟩
      · exact well.numbered t (List.mem_of_getElem? found) x (continues.numbers x old)
      · exact well.numbered a (List.mem_of_getElem? ha) x old
    · exact new
  · rw [mem_violated_perform done, follows.blamed_iff only, blamed_set well turn found continues]

theorem stepThread_wellFormed {out : List (Scheduled D)} (well : s.WellFormed ids)
    (turn : s.Turn index) (done : (m.stepThread s index).run ids = (.ok out, after)) :
    ∀ u ∈ out, u.WellFormed after := by
  intro u hu
  obtain ⟨t, script, found, -, performed⟩ := stepThread_performed done
  obtain ⟨move, member, ds, -, d, -, first, last, before, later, ran⟩ := performed.only u hu
  have continues := Script.moves_continue member
  exact (perform_wellFormed (well.grows before) turn found continues ran).grows later

/-- A thread that is in an atomic section after its step has violated nothing by it. -/
theorem violated_of_stepThread_atomic {out : List (Scheduled D)}
    (done : (m.stepThread s index).run ids = (.ok out, after)) {u : Scheduled D} (hu : u ∈ out)
    (atomic : u.isAtomic index = true) {p : Property} (violated : p ∈ u.violated) :
    p ∈ s.violated := by
  obtain ⟨t, script, found, -, performed⟩ := stepThread_performed done
  obtain ⟨move, member, ds, -, d, -, first, last, -, -, ran⟩ := performed.only u hu
  rcases (mem_violated_perform ran p).mp violated with old | new
  · exact old
  · obtain ⟨b, hb, hstatus⟩ := Scheduled.isAtomic_iff.mp atomic
    obtain ⟨a, ha, ab⟩ := (perform_follows (Script.moves_continue member) ran).back hb
    rcases mem_set_cases ha with ⟨-, rfl⟩ | ⟨other, -⟩
    · rcases (Script.moves_continue member).outcome with ⟨none, -⟩ | ⟨q, -, -, failed, -⟩
      · rw [none] at new
        exact nomatch new
      · rw [ab.atomic hstatus] at failed
        exact nomatch failed
    · exact absurd rfl other

theorem start_wellFormed (program : Program) (ids : Ids) (d : D) :
    (Scheduled.start (threadsFrom ids.threads program.scripts) d).WellFormed
      (ids.skip program.scripts.length) := by
  have faultless {t : Thread} (ht : t ∈ threadsFrom ids.threads program.scripts) {p : Property}
      (blamed : p ∈ t.failedFor) : False := by
    obtain ⟨actor, script, -, id, -, -, found⟩ := mem_threadsFrom ht
    rw [(Script.mem_threads found).2.1] at blamed
    exact SortedSet.not_mem_empty p blamed
  refine ⟨fun t ht x mentions => ?_, fun i j hi => ?_,
    fun t ht p blamed => (faultless ht blamed).elim, fun p => ⟨fun h => ?_, ?_⟩⟩
  · obtain ⟨actor, script, -, id, -, high, found⟩ := mem_threadsFrom ht
    exact (Script.mem_threads found).1 x mentions ▸ high
  · obtain ⟨t, at_, hstatus⟩ := Scheduled.isAtomic_iff.mp hi
    obtain ⟨actor, script, -, id, -, -, found⟩ := mem_threadsFrom (List.mem_of_getElem? at_)
    exact absurd hstatus (Script.mem_threads found).2.2
  · exact absurd h (SortedSet.not_mem_empty p)
  · rintro ⟨t, ht, blamed⟩
    exact (faultless ht blamed).elim

end Scheduler
end ActorAnalysis
