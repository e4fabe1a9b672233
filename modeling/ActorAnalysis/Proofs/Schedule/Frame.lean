import ActorAnalysis.Proofs.Schedule.Delivery
import ActorAnalysis.Proofs.Schedule.Move

namespace ActorAnalysis

namespace Thread

def Mentions (t : Thread) (x : ThreadId) : Prop := x = t.id ∨ x ∈ t.waitsFor

/-- How a thread may change while others act, between `ids` and `after`. -/
structure Follows (ids after : Ids) (a b : Thread) : Prop where
  numbers : ∀ x, b.Mentions x → a.Mentions x ∨ ids.threads ≤ x ∧ x < after.threads
  failures : b.failedFor = a.failedFor ∨ a.status ≠ .failed ∧ b.failedFor = ∅
  stays : a.status = .failed → b.status = .failed
  atomic : b.status = .runningAtomic → a.status = .runningAtomic

theorem Follows.refl (ids after : Ids) (a : Thread) : a.Follows ids after a :=
  ⟨fun _ h => .inl h, .inl rfl, fun h => h, fun h => h⟩

theorem Follows.trans {ids mid after : Ids} {a b c : Thread} (first : a.Follows ids mid b)
    (second : b.Follows mid after c) (before : ids ≤ mid) (later : mid ≤ after) :
    a.Follows ids after c where
  numbers x h := by
    rcases second.numbers x h with h | ⟨low, high⟩
    · rcases first.numbers x h with h | ⟨low, high⟩
      · exact .inl h
      · exact .inr ⟨low, Nat.lt_of_lt_of_le high later.1⟩
    · exact .inr ⟨Nat.le_trans before.1 low, high⟩
  failures := by
    rcases first.failures with same | ⟨active, none⟩
    · rcases second.failures with same' | ⟨active', none'⟩
      · exact .inl (same'.trans same)
      · exact .inr ⟨fun failed => active' (first.stays failed), none'⟩
    · rcases second.failures with same' | ⟨_, none'⟩
      · exact .inr ⟨active, same'.trans none⟩
      · exact .inr ⟨active, none'⟩
  stays h := second.stays (first.stays h)
  atomic h := first.atomic (second.atomic h)

end Thread

section Restart

theorem Thread.start_follows {ids after : Ids} {a : Thread} {id : ThreadId} (idle : a.isIdle = true)
    (fresh : ids.threads ≤ id ∧ id < after.threads) (actor : String) (script : Nat)
    (entry : Location) : a.Follows ids after (.start id actor script entry) := by
  have active : a.status ≠ .failed := by
    intro failed
    simp [isIdle, failed] at idle
  refine ⟨fun x h => ?_, .inr ⟨active, rfl⟩, fun failed => absurd failed active, fun h => nomatch h⟩
  rcases h with rfl | h
  · exact .inr fresh
  · exact absurd h (SortedSet.not_mem_empty x)

theorem enterAt_follows {ids after : Ids} {id : ThreadId} {indices : List Nat}
    {threads : List Thread} (fresh : ids.threads ≤ id ∧ id < after.threads)
    (idle : ∀ i ∈ indices, ∀ a, threads[i]? = some a → a.isIdle = true) (ref : ScriptRef)
    (entries : List Location) :
    Threadwise (Thread.Follows ids after) threads (enterAt id ref indices entries threads) where
  length := length_enterAt id ref indices entries threads
  related j a b ha hb := by
    rcases getElem?_enterAt hb with old | ⟨hj, entry, -, rfl⟩
    · rw [ha] at old
      exact Option.some.inj old ▸ .refl ids after a
    · exact Thread.start_follows (idle j hj a ha) fresh _ _ _

theorem Thread.Revives.follows {p : Program} {message : String} {ids after : Ids} {a b : Thread}
    (revives : a.Revives p message ids after b) : a.Follows ids after b := by
  obtain ⟨idle, script, -, -, entry, -, id, low, high, rfl⟩ := revives
  exact Thread.start_follows idle ⟨low, high⟩ _ _ _

end Restart

namespace Scheduler

variable {D : Type}

section Settle

variable (ids : Ids)

theorem retire_follows (body : Relation) (a : Thread) : a.Follows ids ids (retire body a) := by
  unfold retire
  split
  · rename_i ended
    have active : a.status ≠ .failed := by
      intro failed
      simp [failed, Status.isTerminal] at ended
    exact ⟨fun _ h => .inl h, .inl rfl, fun failed => absurd failed active, fun h => nomatch h⟩
  · exact .refl ids ids a

theorem wake_follows (pending : SortedSet ThreadId) (a : Thread) :
    a.Follows ids ids (wake pending a) := by
  have fewer (x : ThreadId)
      (h : x = a.id ∨ x ∈ a.waitsFor.filter (fun id => decide (id ∈ pending))) :
      a.Mentions x := h.imp id fun member => (SortedSet.mem_filter.mp member).1
  unfold wake
  split
  · exact .refl ids ids a
  · dsimp only
    split
    · rename_i resumes
      have waits : a.status = .waiting := by simpa using (Bool.and_eq_true_iff.mp resumes).2
      exact ⟨fun x h => .inl (fewer x h), .inl rfl, fun failed => (by simp [waits] at failed),
        fun h => nomatch h⟩
    · exact ⟨fun x h => .inl (fewer x h), .inl rfl, id, id⟩

theorem endRound_follows (threads : List Thread) :
    Threadwise (Thread.Follows ids ids) threads (endRound threads) := by
  unfold endRound
  split
  · exact .refl (Thread.Follows.refl ids ids) threads
  · refine .of_map fun a _ => ?_
    split
    · rename_i yielded
      exact ⟨fun _ h => .inl h, .inl rfl, fun failed => (by simp [yielded] at failed),
        fun h => nomatch h⟩
    · exact .refl ids ids a

theorem retired_follows (body : Relation) (index : Nat) (threads : List Thread) :
    Threadwise (Thread.Follows ids ids) threads (threads.modify index (retire body)) := by
  refine (Threadwise.refl (Thread.Follows.refl ids ids) threads).modify fun a b _ ab => ?_
  exact ab.trans (retire_follows ids body b) (Ids.le_refl ids) (Ids.le_refl ids)

theorem settleThreads_follows (body : Relation) (index : Nat) (threads : List Thread) :
    Threadwise (Thread.Follows ids ids) threads (settleThreads body index threads) := by
  have compose (a b c : Thread) (first : a.Follows ids ids b) (second : b.Follows ids ids c) :
      a.Follows ids ids c := first.trans second (Ids.le_refl ids) (Ids.le_refl ids)
  have woken := (retired_follows ids body index threads).trans (.of_map fun a _ =>
    wake_follows ids (unfinished (threads.modify index (retire body))) a) compose
  exact woken.trans (endRound_follows ids _) compose

end Settle

theorem deliver_follows {m : Scheduler D} {sender : Nat} {op : Operation}
    {threads threads' : List Thread} {ids after : Ids}
    (active : ∀ message a, op = .broadcastWait message → threads[sender]? = some a →
      a.status ≠ .failed)
    (done : (m.deliver sender op threads).run ids = (.ok threads', after)) :
    Threadwise (Thread.Follows ids after) threads threads' := by
  have delivered := deliver_delivered done
  refine ⟨delivered.length, fun j a b ha hb => ?_⟩
  by_cases here : j = sender
  · subst here
    rcases delivered.sender a b ha hb with rfl | ⟨⟨message, sends⟩, awaited, fresh, rfl⟩
    · exact .refl ids after b
    · refine ⟨fun x h => ?_, .inl rfl, fun failed => ?_, fun h => nomatch h⟩
      · rcases h with rfl | h
        · exact .inl (.inl rfl)
        · exact .inr (fresh x h)
      · exact absurd failed (active message a sends ha)
  · rcases delivered.others j a b here ha hb with rfl | ⟨message, -, revives⟩
    · exact .refl ids after b
    · exact revives.follows

end Scheduler
end ActorAnalysis
