import ActorAnalysis.Proofs.Schedule.Resumption
import ActorAnalysis.Proofs.Stack.Deadlock

namespace ActorAnalysis

/-- A run of `n` steps. Numbers may be drawn for something else between them. -/
structure Analysis.Path {S : Type} (A : Analysis S) (program : Program) (n : Nat)
    (ids : Nat → Ids) (state : Nat → S) : Prop where
  start : A.Reachable program (ids 0) (state 0)
  step : ∀ k < n, ∃ out, (A.succ (state k)).Gave (ids k) out (ids (k + 1)) ∧ state (k + 1) ∈ out

theorem Analysis.Path.reachable {S : Type} {A : Analysis S} {program : Program} {n : Nat}
    {ids : Nat → Ids} {state : Nat → S} (path : A.Path program n ids state) {k : Nat}
    (within : k ≤ n) : A.Reachable program (ids k) (state k) := by
  induction k with
  | zero => exact path.start
  | succ k ih =>
    obtain ⟨out, ⟨first, last, before, later, ran⟩, member⟩ := path.step k (by omega)
    exact .later (.succ (.later (ih (by omega)) before) ran member) later

namespace Scheduled

variable {D : Type} {program : Program} {s u : Scheduled D} {ids after : Ids}

theorem untouched_invariant (program : Program) (config : ScheduleConfig)
    (key : List Thread → PartitionKey) (inner : DataAnalysis D) (merges widens : Prop) :
    (analysis program config key inner).Invariant program merges widens
      (fun ids s => s.WellFormed ids ∧ Untouched s.threads) :=
  threads_invariant config key inner merges widens Untouched (fun _ _ => Iff.rfl)
    (fun first => threadsFrom_untouched first program.scripts)
    (fun _ untouched enabled ran _ hu => Scheduler.stepThread_untouched enabled ran hu untouched)

theorem Orderly.awaits (h : s.Orderly program ids) (untouched : Untouched s.threads) {t : Thread}
    (member : t ∈ s.threads) (waiting : t.status = .waiting) (blocked : t.waitsFor.isEmpty = false) :
    t.Awaits t.waitsFor t.location s.threads where
  location := rfl
  triggered := by
    by_contra idle
    have free := (untouched t member (Bool.eq_false_iff.mpr idle)).2
    rw [blocked] at free
    exact nomatch free
  awaits x := ⟨fun hx => ⟨hx, h.attended t member x hx⟩, fun h => h.1⟩
  status := by simp [blocked, waiting]

/-- The steps of a successor are taken by another thread. -/
theorem Orderly.succ_awaits {m : Scheduler D} {config : ScheduleConfig}
    {out : List (Scheduled D)} {awaited : SortedSet ThreadId} {location : Location} {i : Nat}
    {a : Thread} (h : s.Orderly m.program ids) (known : ∀ x ∈ awaited, x < ids.threads)
    (found : s.threads[i]? = some a) (awaits : a.Awaits awaited location s.threads)
    (waiting : a.status = .waiting) (done : (m.successors config s).run ids = (.ok out, after))
    (hu : u ∈ out) :
    i ∉ u.stepped ∧ ∃ b, u.threads[i]? = some b ∧ b.Awaits awaited location u.threads := by
  obtain ⟨index, c, last, enabled, steps, runs, -⟩ := Scheduler.successors_runs done hu
  have other : i ≠ index := by
    rintro rfl
    have free := enabled.free found (h.waits a (List.mem_of_getElem? found))
    have status := awaits.status
    rw [if_pos (SortedSet.isEmpty_iff.mpr free), waiting] at status
    exact nomatch status
  let inv (c : Scheduled D × Ids) : Prop := ids ≤ c.2 ∧ c.1.Orderly m.program c.2 ∧
    ∃ b, c.1.threads[i]? = some b ∧ b.Awaits awaited location c.1.threads
  have one {c e : Scheduled D × Ids} (holds : inv c) (enabled : m.Enabled c.1 index)
      (steps : m.Steps index c e) : inv e := by
    obtain ⟨low, orderly, b, hb, awaits⟩ := holds
    obtain ⟨out, ⟨first, last, before, later, ran⟩, hu⟩ := steps
    have low := Ids.le_trans low before
    have high := Ids.le_trans (Alloc.le_of_run ran) later
    have orderly := (orderly.grows before).step enabled ran e.1 hu
    refine ⟨Ids.le_trans low high, orderly.grows later, ?_⟩
    exact Scheduler.stepThread_awaits enabled ran hu
      (fun x hx => Nat.lt_of_lt_of_le (known x hx) low.1) other hb awaits
  have first : inv c := one ⟨Ids.le_refl ids, h, a, found, awaits⟩ enabled steps
  have all (e : Scheduled D × Ids) (runs : m.Runs index c e) : inv e := by
    induction runs with
    | refl => exact first
    | tail _ next ih => exact one ih (Scheduler.enabled_of_atomic m ih.2.1.well next.1) next.2
  refine ⟨fun stepped => ?_, (all _ runs).2.2⟩
  rw [runs.stepped steps, SortedSet.mem_singleton] at stepped
  exact other stepped

section Path

variable {config : ScheduleConfig} {key : List Thread → PartitionKey} {inner : DataAnalysis D}
  {n : Nat} {ids : Nat → Ids} {state : Nat → Scheduled D}

theorem orderly_path (path : (analysis program config key inner).Path program n ids state) {k : Nat}
    (within : k ≤ n) : (state k).Orderly program (ids k) :=
  (orderly_invariant program config key inner True True).reachable (path.reachable within)

theorem awaits_path (path : (analysis program config key inner).Path program n ids state)
    {i k l : Nat} {t : Thread} (found : (state k).threads[i]? = some t)
    (known : ∀ x ∈ t.waitsFor, x < (ids k).threads)
    (start : t.Awaits t.waitsFor t.location (state k).threads) (later : k ≤ l) (within : l ≤ n)
    (still : ∀ h, k ≤ h → h < l → ∃ u, (state h).threads[i]? = some u ∧ u.status = .waiting) :
    (∀ x ∈ t.waitsFor, x < (ids l).threads) ∧ (k < l → i ∉ (state l).stepped) ∧
      ∃ u, (state l).threads[i]? = some u ∧
        u.Awaits t.waitsFor t.location (state l).threads := by
  induction l, later using Nat.le_induction with
  | base => exact ⟨known, fun less => absurd less (Nat.lt_irrefl k), t, found, start⟩
  | succ l later ih =>
    obtain ⟨known, -, a, ha, awaits⟩ := ih (by omega) fun h low high => still h low (by omega)
    obtain ⟨a', ha', waiting⟩ := still l later (by omega)
    obtain rfl : a = a' := Option.some.inj (ha.symm.trans ha')
    obtain ⟨out, ⟨first, last, before, after, ran⟩, member⟩ := path.step l (by omega)
    have drawn (x : ThreadId) (hx : x ∈ t.waitsFor) : x < first.threads :=
      Nat.lt_of_lt_of_le (known x hx) before.1
    have ends := (Ids.le_trans (Alloc.le_of_run ran) after).1
    have orderly := (orderly_path path (by omega)).grows before
    obtain ⟨unstepped, awaiting⟩ :=
      orderly.succ_awaits (m := ⟨program, inner.succFor⟩) drawn ha awaits waiting ran member
    exact ⟨fun x hx => Nat.lt_of_lt_of_le (drawn x hx) ends, fun _ => unstepped, awaiting⟩

end Path

/-- Along a run, let a thread wait for others in some state. As long as it has been waiting ever
since, it has not been stepped and stands where it stood; it waits exactly for those of the others
that are unfinished, and runs as soon as these are none. -/
theorem sender_resumes_when_receivers_finish (config : ScheduleConfig)
    (key : List Thread → PartitionKey) (inner : DataAnalysis D) {n : Nat} {ids : Nat → Ids}
    {state : Nat → Scheduled D}
    (path : (analysis program config key inner).Path program n ids state) {i k l : Nat} {t : Thread}
    (found : (state k).threads[i]? = some t) (waiting : t.status = .waiting)
    (blocked : t.waitsFor.isEmpty = false) (later : k ≤ l) (within : l ≤ n)
    (still : ∀ h, k ≤ h → h < l → ∃ u, (state h).threads[i]? = some u ∧ u.status = .waiting) :
    (k < l → i ∉ (state l).stepped) ∧
    ∃ u, (state l).threads[i]? = some u ∧ u.location = t.location ∧
      (∀ x, x ∈ u.waitsFor ↔ x ∈ t.waitsFor ∧ Unfinished (state l).threads x) ∧
      (u.status = .waiting ↔ ∃ x ∈ t.waitsFor, Unfinished (state l).threads x) ∧
      (u.status = .running ↔ ∀ x ∈ t.waitsFor, ¬Unfinished (state l).threads x) := by
  have early : k ≤ n := Nat.le_trans later within
  have present := List.mem_of_getElem? found
  have orderly := orderly_path path early
  have untouched := ((untouched_invariant program config key inner True True).reachable
    (path.reachable early)).2
  obtain ⟨-, unstepped, u, hu, awaits⟩ := awaits_path path found
    (fun x hx => orderly.well.numbered t present x (.inr hx))
    (orderly.awaits untouched present waiting blocked) later within still
  exact ⟨unstepped, u, hu, awaits.location, awaits.awaits, awaits.waiting_iff, awaits.running_iff⟩

end Scheduled

namespace Relay

def resumed : Scheduled DataState where
  threads := [.start 0 "a" 0 1, (Thread.start 2 "a" 1 1).withStatus .done]
  stepped := .singleton 1
  violated := ∅
  data := .known ∅

def states (k : Nat) : Scheduled DataState := [before, sent .waiting].getD k resumed

def drawn (k : Nat) : Ids := [⟨2, 0⟩].getD k ⟨3, 0⟩

theorem path : (analysis [.skip]).Path (program [.skip]) 2 drawn states := by
  have start : ((analysis [.skip]).initial (program [.skip])).run .start =
      (.ok [before], ⟨2, 0⟩) := rfl
  have first : ((analysis [.skip]).succ before).run ⟨2, 0⟩ = (.ok [sent .waiting], ⟨3, 0⟩) := rfl
  have second : ((analysis [.skip]).succ (sent .waiting)).run ⟨3, 0⟩ =
      (.ok [resumed], ⟨3, 0⟩) := rfl
  refine ⟨.initial start List.mem_cons_self, fun k within => ?_⟩
  obtain rfl | rfl : k = 0 ∨ k = 1 := by omega
  · exact ⟨_, .of_run first, List.mem_cons_self⟩
  · exact ⟨_, .of_run second, List.mem_cons_self⟩

end Relay

/-- The sender waits behind its broadcast until the receiver is done. -/
theorem Scheduled.sender_resumes_with_receiver_done :
    (Relay.analysis [.skip]).Path (Relay.program [.skip]) 2 Relay.drawn Relay.states ∧
      ∃ t u, (Relay.states 1).threads[0]? = some t ∧ t.status = .waiting ∧
        t.waitsFor.isEmpty = false ∧ (∃ x ∈ t.waitsFor, Unfinished (Relay.states 1).threads x) ∧
        (Relay.states 2).threads[0]? = some u ∧ u.status = .running ∧
        ∀ x ∈ t.waitsFor, ¬Unfinished (Relay.states 2).threads x := by
  let t : Thread := { Thread.start 0 "a" 0 1 with status := .waiting, waitsFor := .singleton 2 }
  have found : (Relay.states 1).threads[0]? = some t := rfl
  have resumed : (Relay.states 2).threads[0]? = some (.start 0 "a" 0 1) := rfl
  obtain ⟨-, v, hv, -, -, waits, -⟩ := sender_resumes_when_receivers_finish _ _ _ Relay.path found
    rfl rfl (Nat.le_refl 1) (Nat.le_succ 1) fun h low high => absurd low (Nat.not_le.mpr high)
  obtain rfl : t = v := Option.some.inj (found.symm.trans hv)
  obtain ⟨-, u, hu, -, -, -, runs⟩ := sender_resumes_when_receivers_finish _ _ _ Relay.path found
    rfl rfl (Nat.le_succ 1) (Nat.le_refl 2) fun h low high => by
      obtain rfl : h = 1 := by omega
      exact ⟨t, found, rfl⟩
  obtain rfl : Thread.start 0 "a" 0 1 = u := Option.some.inj (resumed.symm.trans hu)
  exact ⟨Relay.path, t, .start 0 "a" 0 1, found, rfl, rfl, waits.mp rfl, hu, rfl, runs.mp rfl⟩

end ActorAnalysis
