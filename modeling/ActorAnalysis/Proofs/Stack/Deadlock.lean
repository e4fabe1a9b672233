import ActorAnalysis.Proofs.Schedule.Waiting
import ActorAnalysis.Proofs.Stack.Scheduling

/-! Waiting for other threads is free of deadlock. Whoever waits does so for younger threads that
are unfinished, so the youngest unfinished thread waits for nobody. A thread that waits need not be
unfinished itself: a broadcast that leads to an exit of its script ends it at once. -/
namespace ActorAnalysis

theorem Status.isTerminal_eq_false {status : Status} :
    status.isTerminal = false ↔ status ≠ .done ∧ status ≠ .failed := by
  cases status <;> decide

def WaitsOn (threads : List Thread) (x y : ThreadId) : Prop :=
  ∃ t ∈ threads, t.id = x ∧ y ∈ t.waitsFor

namespace Scheduled

variable {D : Type} {program : Program} {ids after : Ids} {s : Scheduled D}

structure Orderly (program : Program) (ids : Ids) (s : Scheduled D) : Prop where
  well : s.WellFormed ids
  waits : ∀ t ∈ s.threads, t.Waits program
  attended : Attended s.threads

theorem Orderly.grows (h : s.Orderly program ids) (later : ids ≤ after) :
    s.Orderly program after :=
  ⟨h.well.grows later, h.waits, h.attended⟩

theorem Orderly.combine {t : Scheduled D} (hs : s.Orderly program ids)
    (ht : t.Orderly program ids) (same : s.threads = t.threads) (d : D) :
    (s.combine t d).Orderly program ids :=
  ⟨hs.well.combine ht.well same d, hs.waits, hs.attended⟩

theorem Orderly.step {m : Scheduler D} {index : Nat} {out : List (Scheduled D)}
    (h : s.Orderly m.program ids) (enabled : m.Enabled s index)
    (ran : (m.stepThread s index).run ids = (.ok out, after)) :
    ∀ u ∈ out, u.Orderly m.program after := by
  intro u hu
  have well := Scheduler.stepThread_wellFormed h.well (enabled.turn h.well) ran u hu
  obtain ⟨waits, attended⟩ := Scheduler.stepThread_waits h.well h.waits enabled ran u hu
  exact ⟨well, waits, attended⟩

theorem orderly_invariant (program : Program) (config : ScheduleConfig)
    (key : List Thread → PartitionKey) (inner : DataAnalysis D) (merges widens : Prop) :
    (analysis program config key inner).Invariant program merges widens (Orderly program) := by
  refine threads_invariant config key inner merges widens
    (fun threads => (∀ t ∈ threads, t.Waits program) ∧ Attended threads)
    (fun _ _ => ⟨fun h => ⟨h.well, h.waits, h.attended⟩, fun h => ⟨h.1, h.2.1, h.2.2⟩⟩) ?_ ?_
  · intro first
    have free (t : Thread) (ht : t ∈ threadsFrom first program.scripts) (x : ThreadId) :
        x ∉ t.waitsFor := by
      rw [threadsFrom_free ht]
      exact SortedSet.not_mem_empty x
    exact ⟨fun t ht => Thread.waits_of_free (free t ht), fun t ht x hx => absurd hx (free t ht x)⟩
  · intro ids s i out after well h enabled ran u hu
    exact Scheduler.stepThread_waits well h.1 enabled ran u hu

theorem Orderly.younger (h : s.Orderly program ids) {x y : ThreadId}
    (chain : Relation.TransGen (WaitsOn s.threads) x y) : x < y := by
  induction chain with
  | single step =>
    obtain ⟨t, ht, rfl, hy⟩ := step
    exact (h.waits t ht).younger _ hy
  | tail _ step ih =>
    obtain ⟨t, ht, rfl, hy⟩ := step
    exact Nat.lt_trans ih ((h.waits t ht).younger _ hy)

/-- Going on to those that are waited for, one comes to an unfinished thread that waits for
nobody. -/
theorem Orderly.free (h : s.Orderly program ids) {t : Thread} (ht : t ∈ s.threads)
    (active : t.status.isTerminal = false) :
    ∃ u ∈ s.threads, u.status.isTerminal = false ∧ u.waitsFor.isEmpty = true := by
  cases empty : t.waitsFor.isEmpty with
  | true => exact ⟨t, ht, active, empty⟩
  | false =>
    obtain ⟨x, hx⟩ := SortedSet.exists_mem empty
    obtain ⟨u, hu, rfl, active⟩ := h.attended t ht x hx
    -- the numbers drawn so far bound the chain
    have younger := (h.waits t ht).younger _ hx
    have numbered := h.well.numbered u hu u.id (.inl rfl)
    exact h.free hu active
termination_by ids.threads - t.id
decreasing_by exact Nat.sub_lt_sub_left (Nat.lt_trans younger numbered) younger

end Scheduled

namespace Relay

/-- The sender waits for the receiver, and goes on with `rest`. -/
def actors (rest : List Operation) : List Actor :=
  [⟨"a", [⟨0, .bootstrap, .sequence 0 "send" (.broadcastWait "go" :: rest)⟩,
    ⟨1, .message "go", .sequence 1 "receive" [.skip]⟩], []⟩]

theorem distinct (rest : List Operation) : (relationIds (actors rest)).Nodup := by
  change [0, 1].Nodup
  decide

def program (rest : List Operation) : Program := ⟨actors rest, ∅, distinct rest⟩

abbrev analysis (rest : List Operation) : Analysis (Scheduled DataState) :=
  Scheduled.analysis (program rest) ⟨false, 1000⟩ (fun _ => 0) (DataState.analysis ⟨true, .all⟩)

def before : Scheduled DataState :=
  .start [.start 0 "a" 0 0, (Thread.start 1 "a" 1 0).untriggered] (.known ∅)

/-- Behind the broadcast, which leaves the sender with the given status. -/
def sent (status : Status) : Scheduled DataState where
  threads := [{ Thread.start 0 "a" 0 1 with status := status, waitsFor := .singleton 2 },
    .start 2 "a" 1 0]
  stepped := .singleton 0
  violated := ∅
  data := .known ∅

theorem reaches_waiting :
    (analysis [.skip]).Reachable (program [.skip]) ⟨3, 0⟩ (sent .waiting) := by
  have start : ((analysis [.skip]).initial (program [.skip])).run .start =
      (.ok [before], ⟨2, 0⟩) := rfl
  have step : ((analysis [.skip]).succ before).run ⟨2, 0⟩ = (.ok [sent .waiting], ⟨3, 0⟩) := rfl
  exact .succ (.initial start List.mem_cons_self) step List.mem_cons_self

theorem reaches_done : (analysis []).Reachable (program []) ⟨3, 0⟩ (sent .done) := by
  have start : ((analysis []).initial (program [])).run .start = (.ok [before], ⟨2, 0⟩) := rfl
  have step : ((analysis []).succ before).run ⟨2, 0⟩ = (.ok [sent .done], ⟨3, 0⟩) := rfl
  exact .succ (.initial start List.mem_cons_self) step List.mem_cons_self

end Relay

namespace Scheduled

variable {D : Type} {program : Program} {ids : Ids} {s : Scheduled D}

/-- Whoever waits for others waits for younger, unfinished threads. So nobody waits for themselves,
not even through others, and somebody unfinished waits for nobody. -/
theorem waiting_is_free_of_deadlock (config : ScheduleConfig) (key : List Thread → PartitionKey)
    (inner : DataAnalysis D)
    (reachable : (analysis program config key inner).Reachable program ids s) :
    (∀ t ∈ s.threads, ∀ x ∈ t.waitsFor, t.id < x ∧
      ∃ u ∈ s.threads, u.id = x ∧ u.status ≠ .done ∧ u.status ≠ .failed) ∧
    (∀ x, ¬Relation.TransGen (WaitsOn s.threads) x x) ∧
    ((∃ t ∈ s.threads, t.waitsFor.isEmpty = false) →
      ∃ u ∈ s.threads, u.status ≠ .done ∧ u.status ≠ .failed ∧ u.waitsFor.isEmpty = true) := by
  have h := (orderly_invariant program config key inner True True).reachable reachable
  refine ⟨fun t ht x hx => ?_, fun x chain => Nat.lt_irrefl x (h.younger chain), ?_⟩
  · obtain ⟨u, hu, id, active⟩ := h.attended t ht x hx
    exact ⟨(h.waits t ht).younger x hx, u, hu, id, Status.isTerminal_eq_false.mp active⟩
  · rintro ⟨t, ht, waits⟩
    obtain ⟨x, hx⟩ := SortedSet.exists_mem waits
    obtain ⟨u, hu, -, active⟩ := h.attended t ht x hx
    obtain ⟨v, hv, active, free⟩ := h.free hu active
    obtain ⟨undone, unfailed⟩ := Status.isTerminal_eq_false.mp active
    exact ⟨v, hv, undone, unfailed, free⟩

theorem receiver_may_go_on :
    (∃ t ∈ (Relay.sent .waiting).threads, t.waitsFor.isEmpty = false) ∧
      ∃ u ∈ (Relay.sent .waiting).threads,
        u.status ≠ .done ∧ u.status ≠ .failed ∧ u.waitsFor.isEmpty = true := by
  have waits : ∃ t ∈ (Relay.sent .waiting).threads, t.waitsFor.isEmpty = false := by decide
  exact ⟨waits, (waiting_is_free_of_deadlock _ _ _ Relay.reaches_waiting).2.2 waits⟩

/-- A thread that waits for others is blocked, unless it stands at an exit of its script: then it is
done while it still waits. -/
theorem waiting_thread_is_blocked_or_done (config : ScheduleConfig)
    (key : List Thread → PartitionKey) (inner : DataAnalysis D)
    (reachable : (analysis program config key inner).Reachable program ids s) :
    ∀ t ∈ s.threads, t.waitsFor.isEmpty = false → ∃ script,
      program.scriptAt t.ref = .ok script ∧
        t.status = if script.body.isExit t.location then .done else .waiting := by
  intro t ht waits
  obtain ⟨x, hx⟩ := SortedSet.exists_mem waits
  have h := (orderly_invariant program config key inner True True).reachable reachable
  exact (h.waits t ht).blocked x hx

/-- The sender has more to do, so it is blocked. -/
theorem sender_is_blocked : ∃ t ∈ (Relay.sent .waiting).threads, t.waitsFor.isEmpty = false ∧
    ∃ script, (Relay.program [.skip]).scriptAt t.ref = .ok script ∧
      t.status = if script.body.isExit t.location then .done else .waiting :=
  ⟨_, List.mem_cons_self, by decide, waiting_thread_is_blocked_or_done _ _ _ Relay.reaches_waiting _
    List.mem_cons_self (by decide)⟩

/-- The broadcast is the last thing that the sender does. -/
theorem finished_sender_waits : (Relay.analysis []).Reachable (Relay.program []) ⟨3, 0⟩
      (Relay.sent .done) ∧
    ∃ t ∈ (Relay.sent .done).threads, t.waitsFor.isEmpty = false ∧ t.status ≠ .waiting :=
  ⟨Relay.reaches_done, by decide⟩

end Scheduled
end ActorAnalysis
