import ActorAnalysis.Proofs.Schedule.Lineup
import ActorAnalysis.Proofs.Schedule.Settling

namespace ActorAnalysis

def Untouched (threads : List Thread) : Prop :=
  ∀ t ∈ threads, t.triggered = false → t.status = .waiting ∧ t.waitsFor.isEmpty = true

theorem threadsFrom_untouched (first : ThreadId) (l : List (String × Script)) :
    Untouched (threadsFrom first l) := by
  intro t ht idle
  obtain ⟨id, actor, script, entry, rfl | rfl⟩ := threadsFrom_new ht
  · exact nomatch idle
  · exact ⟨rfl, rfl⟩

/-- The thread stands at the location and waits for those of `awaited` that are unfinished. If these
are none, it runs. -/
structure Thread.Awaits (awaited : SortedSet ThreadId) (location : Location) (now : List Thread)
    (t : Thread) : Prop where
  location : t.location = location
  triggered : t.triggered = true
  awaits : ∀ x, x ∈ t.waitsFor ↔ x ∈ awaited ∧ Unfinished now x
  status : t.status = if t.waitsFor.isEmpty then .running else .waiting

namespace Thread.Awaits

variable {awaited : SortedSet ThreadId} {location : Location} {before now : List Thread}
  {a b : Thread} (awaits : a.Awaits awaited location before)
include awaits

theorem not_idle : a.isIdle = false := by
  have status := awaits.status
  split at status <;> simp [isIdle, status, awaits.triggered]

theorem not_yielded : a.status ≠ .yielded := by
  rw [awaits.status]
  split <;> exact nofun

theorem running_iff : a.status = .running ↔ ∀ x ∈ awaited, ¬Unfinished before x := by
  have free : a.waitsFor.isEmpty = true ↔ ∀ x ∈ awaited, ¬Unfinished before x := by
    rw [SortedSet.isEmpty_iff]
    simp only [awaits.awaits, not_and]
  rw [awaits.status, ← free]
  cases a.waitsFor.isEmpty <;> decide

theorem waiting_iff : a.status = .waiting ↔ ∃ x ∈ awaited, Unfinished before x := by
  have runs := awaits.running_iff
  have status := awaits.status
  split at status <;> simp_all

theorem relieved (relieved : a.Relieved now b)
    (stays : ∀ x ∈ awaited, Unfinished now x → Unfinished before x) :
    b.Awaits awaited location now where
  location := relieved.keeps.2.1.trans awaits.location
  triggered := relieved.keeps.2.2.trans awaits.triggered
  awaits x := by
    rw [relieved.awaits, awaits.awaits]
    exact ⟨fun h => ⟨h.1.1, h.2⟩, fun h => ⟨⟨h.1, stays x h.1 h.2⟩, h.2⟩⟩
  status := by
    rw [relieved.status, awaits.status]
    cases free : a.waitsFor.isEmpty with
    | true => simp [relieved.eq_self free, free]
    | false => cases b.waitsFor.isEmpty <;> simp

end Thread.Awaits

theorem Transition.moves_triggered {tr : Transition} {t : Thread} {move : Move}
    (member : move ∈ tr.moves t) : move.thread.triggered = t.triggered := by
  rcases mem_moves member with ⟨guard, sends, -, rfl⟩ | ⟨cond, -, rfl⟩ | ⟨cond, property, -, rfl⟩
  · rfl
  · rfl
  · rfl

theorem Script.moves_triggered {script : Script} {t : Thread} {move : Move}
    (member : move ∈ script.moves t)
    (roused : t.triggered = true ∨ ∃ cond, script.Asleep t cond) :
    move.thread.triggered = true := by
  rcases roused with triggered | ⟨cond, asleep⟩
  · rcases mem_moves member with ⟨cond, -, rfl⟩ | rfl | ⟨tr, -, member⟩
    · rfl
    · exact triggered
    · exact (Transition.moves_triggered member).trans triggered
  · rw [moves_of_asleep asleep] at member
    rw [List.mem_singleton.mp member]

namespace Scheduler

variable {D : Type} {m : Scheduler D} {s u : Scheduled D} {index : Nat} {ids after : Ids}

/-- What a move makes of the other threads, exactly: they are restarted, or relieved, and then may
join a new round. -/
theorem perform_others {body : Relation} {move : Move} {d : D}
    (done : (m.perform s index body move d).run ids = (.ok u, after)) :
    ∃ newRound, ∀ (j : Nat) b, j ≠ index → u.threads[j]? = some b →
      ∃ a, s.threads[j]? = some a ∧
        ((∃ c, a.Relieved u.threads c ∧ c.Rejoins newRound b) ∨
          ∃ message, a.Revives m.program message ids after b) := by
  obtain ⟨threads, delivered, rfl⟩ := run_perform_ok.mp done
  have shape := deliver_delivered delivered
  obtain ⟨woken, relieved, rejoined⟩ := settleThreads_stages body index threads
  refine ⟨Quiet woken, fun j b other hb => ?_⟩
  obtain ⟨c, hc, cb⟩ := rejoined.back hb
  obtain ⟨sent, hsent, ac⟩ := relieved.back hc
  rw [List.getElem?_modify_ne _ _ (Ne.symm other)] at hsent
  obtain ⟨a, old, -⟩ := shape.threadwise.back hsent
  refine ⟨a, (List.getElem?_set_ne (Ne.symm other)).symm.trans old, ?_⟩
  rcases shape.others j a sent other old hsent with rfl | ⟨message, -, revives⟩
  · exact .inl ⟨c, ac, cb⟩
  · -- a new thread has nothing to be relieved of, and runs
    refine .inr ⟨message, ?_⟩
    have new := revives
    obtain ⟨-, script, -, -, entry, -, id, -, -, rfl⟩ := new
    obtain rfl := ac.eq_self rfl
    exact cb.eq_self nofun ▸ revives

section Step

variable {out : List (Scheduled D)} (enabled : m.Enabled s index)
  (ran : (m.stepThread s index).run ids = (.ok out, after)) (hu : u ∈ out)
include enabled ran hu

theorem stepThread_untouched (untouched : Untouched s.threads) : Untouched u.threads := by
  obtain ⟨t, script, found, hscript, performed⟩ := stepThread_performed ran
  obtain ⟨move, member, ds, -, d, -, first, last, -, -, done⟩ := performed.only u hu
  intro b hb idle
  obtain ⟨j, at_⟩ := List.getElem?_of_mem hb
  by_cases here : j = index
  · subst here
    have roused := enabled.roused found hscript fun untriggered =>
      (untouched t (List.mem_of_getElem? found) untriggered).1
    have triggered := (perform_keeps (Script.moves_keep member) (.of_run done) at_).2.2.1
    rw [idle, Script.moves_triggered member roused] at triggered
    exact nomatch triggered
  · obtain ⟨newRound, others⟩ := perform_others done
    obtain ⟨a, ha, ⟨c, relieved, rejoins⟩ | ⟨message, revives⟩⟩ := others j b here at_
    · have untriggered : a.triggered = false := by
        rw [← relieved.keeps.2.2, ← rejoins.keeps.2.1, idle]
      obtain ⟨waiting, free⟩ := untouched a (List.mem_of_getElem? ha) untriggered
      obtain rfl := relieved.eq_self free
      obtain rfl := rejoins.eq_self (by rw [waiting]; exact nofun)
      exact ⟨waiting, free⟩
    · obtain ⟨-, script, -, -, entry, -, id, -, -, rfl⟩ := revives
      exact nomatch idle

theorem stepThread_unfinished {x : ThreadId} (known : x < ids.threads)
    (active : Unfinished u.threads x) : Unfinished s.threads x := by
  obtain ⟨t, script, found, -, performed⟩ := stepThread_performed ran
  obtain ⟨move, member, ds, -, d, -, first, last, before, -, done⟩ := performed.only u hu
  obtain ⟨b, hb, rfl, active⟩ := active
  obtain ⟨j, at_⟩ := List.getElem?_of_mem hb
  by_cases here : j = index
  · subst here
    have id := (perform_keeps (Script.moves_keep member) (.of_run done) at_).1
    exact ⟨t, List.mem_of_getElem? found, id.symm, enabled.unfinished found⟩
  · obtain ⟨newRound, others⟩ := perform_others done
    obtain ⟨a, ha, ⟨c, relieved, rejoins⟩ | ⟨message, revives⟩⟩ := others j b here at_
    · refine ⟨a, List.mem_of_getElem? ha, ?_, ?_⟩
      · rw [rejoins.keeps.1, relieved.keeps.1]
      · rw [← relieved.terminal, ← rejoins.keeps.2.2, active]
    · obtain ⟨-, script, -, -, entry, -, id, fresh, -, rfl⟩ := revives
      have old : id < first.threads := Nat.lt_of_lt_of_le known before.1
      exact absurd fresh (Nat.not_le.mpr old)

/-- While others step, a thread goes on waiting for those that are unfinished. -/
theorem stepThread_awaits {awaited : SortedSet ThreadId} {location : Location} {i : Nat}
    {a : Thread} (known : ∀ x ∈ awaited, x < ids.threads) (other : i ≠ index)
    (found : s.threads[i]? = some a) (awaits : a.Awaits awaited location s.threads) :
    ∃ b, u.threads[i]? = some b ∧ b.Awaits awaited location u.threads := by
  obtain ⟨t, script, -, -, performed⟩ := stepThread_performed ran
  obtain ⟨move, member, ds, -, d, -, first, last, -, -, done⟩ := performed.only u hu
  obtain ⟨b, at_⟩ := exists_getElem?_of_length (perform_spares (.of_run done)).length.symm found
  refine ⟨b, at_, ?_⟩
  obtain ⟨newRound, others⟩ := perform_others done
  obtain ⟨a', ha', fate⟩ := others i b other at_
  obtain rfl : a = a' := Option.some.inj (found.symm.trans ha')
  rcases fate with ⟨c, relieved, rejoins⟩ | ⟨message, revives⟩
  · have awaits' := awaits.relieved relieved fun x hx =>
      stepThread_unfinished enabled ran hu (known x hx)
    exact rejoins.eq_self awaits'.not_yielded ▸ awaits'
  · exact absurd revives.idle (by simp [awaits.not_idle])

end Step
end Scheduler
end ActorAnalysis
