import ActorAnalysis.Proofs.Schedule.Renewal

/-! The end of a step, exactly. Threads first stop waiting for those that are finished; then, if
nothing runs any more, those that have yielded go on. The first may set a thread running, which
keeps the others asleep. -/
namespace ActorAnalysis

def Unfinished (threads : List Thread) (x : ThreadId) : Prop :=
  ∃ t ∈ threads, t.id = x ∧ t.status.isTerminal = false

def Quiet (threads : List Thread) : Prop := ∀ t ∈ threads, t.status.isRunning = false

namespace Thread

/-- The thread waits only for those that are unfinished among `now`, and it goes on if these were
some and are none any more. -/
structure Relieved (now : List Thread) (a b : Thread) : Prop where
  same : b = { a with status := b.status, waitsFor := b.waitsFor }
  awaits : ∀ x, x ∈ b.waitsFor ↔ x ∈ a.waitsFor ∧ Unfinished now x
  status : b.status =
    if a.status = .waiting ∧ a.waitsFor.isEmpty = false ∧ b.waitsFor.isEmpty = true then .running
    else a.status

namespace Relieved

variable {now : List Thread} {a b : Thread} (relieved : a.Relieved now b)
include relieved

theorem eq_self (free : a.waitsFor.isEmpty = true) : b = a := by
  have waitsFor : b.waitsFor = a.waitsFor := by
    refine SortedSet.ext fun x => (relieved.awaits x).trans ?_
    simp [SortedSet.isEmpty_iff.mp free x]
  have status : b.status = a.status := by simp [relieved.status, free]
  rw [relieved.same, status, waitsFor]

theorem keeps : b.id = a.id ∧ b.location = a.location ∧ b.triggered = a.triggered := by
  rw [relieved.same]
  exact ⟨rfl, rfl, rfl⟩

theorem terminal : b.status.isTerminal = a.status.isTerminal := by
  rw [relieved.status]
  split
  · rename_i resumes
    rw [resumes.1]
    rfl
  · rfl

theorem yielded_iff : b.status = .yielded ↔ a.status = .yielded := by
  rw [relieved.status]
  split
  · rename_i resumes
    simp [resumes.1]
  · rfl

end Relieved

def Rejoins (newRound : Prop) (a b : Thread) : Prop :=
  (a.status = .yielded ∧ newRound) ∧ b = a.withStatus .running ∨
    ¬(a.status = .yielded ∧ newRound) ∧ b = a

theorem Rejoins.keeps {newRound : Prop} {a b : Thread} (rejoins : a.Rejoins newRound b) :
    b.id = a.id ∧ b.triggered = a.triggered ∧ b.status.isTerminal = a.status.isTerminal := by
  rcases rejoins with ⟨⟨yielded, -⟩, rfl⟩ | ⟨-, rfl⟩
  · refine ⟨rfl, rfl, ?_⟩
    rw [yielded]
    rfl
  · exact ⟨rfl, rfl, rfl⟩

theorem Rejoins.eq_self {newRound : Prop} {a b : Thread} (rejoins : a.Rejoins newRound b)
    (active : a.status ≠ .yielded) : b = a := by
  rcases rejoins with ⟨⟨yielded, -⟩, -⟩ | ⟨-, same⟩
  · exact absurd yielded active
  · exact same

end Thread

theorem Threadwise.unfinished_iff {l l' : List Thread}
    (pairs : Threadwise (fun a b => b.id = a.id ∧ b.status.isTerminal = a.status.isTerminal) l l')
    (x : ThreadId) : Unfinished l' x ↔ Unfinished l x := by
  constructor
  · rintro ⟨b, hb, rfl, active⟩
    obtain ⟨j, found⟩ := List.getElem?_of_mem hb
    obtain ⟨a, ha, id, terminal⟩ := pairs.back found
    exact ⟨a, List.mem_of_getElem? ha, id.symm, terminal.symm.trans active⟩
  · rintro ⟨a, ha, rfl, active⟩
    obtain ⟨j, found⟩ := List.getElem?_of_mem ha
    obtain ⟨b, hb, id, terminal⟩ := pairs.forth found
    exact ⟨b, List.mem_of_getElem? hb, id, terminal.trans active⟩

theorem Threadwise.forth_other {r : Thread → Thread → Prop} {l l' : List Thread}
    {f : Thread → Thread} {index j : Nat} {a : Thread}
    (pairs : Threadwise r (l.modify index f) l') (other : j ≠ index) (found : l[j]? = some a) :
    ∃ b, l'[j]? = some b ∧ r a b :=
  pairs.forth ((List.getElem?_modify_ne _ _ (Ne.symm other)).trans found)

namespace Scheduler

theorem wake_relieved {pending : SortedSet ThreadId} {now : List Thread}
    (unfinished : ∀ x, x ∈ pending ↔ Unfinished now x) (t : Thread) :
    t.Relieved now (wake pending t) := by
  unfold wake
  split
  · rename_i free
    have none := SortedSet.isEmpty_iff.mp free
    exact ⟨rfl, fun x => ⟨fun hx => absurd hx (none x), fun h => h.1⟩, by simp [free]⟩
  · rename_i waits
    have awaits (x : ThreadId) : x ∈ t.waitsFor.filter (fun id => decide (id ∈ pending)) ↔
        x ∈ t.waitsFor ∧ Unfinished now x := by
      rw [SortedSet.mem_filter, decide_eq_true_iff, unfinished x]
    dsimp only
    split
    · rename_i resumes
      obtain ⟨free, waiting⟩ := Bool.and_eq_true_iff.mp resumes
      exact ⟨rfl, awaits, by simp [of_decide_eq_true waiting, free, waits]⟩
    · rename_i stays
      refine ⟨rfl, awaits, (if_neg ?_).symm⟩
      rintro ⟨waiting, -, free⟩
      simp [waiting, free] at stays

theorem endRound_rejoins (threads : List Thread) :
    Threadwise (Thread.Rejoins (Quiet threads)) threads (endRound threads) := by
  have quiet : Quiet threads ↔ ¬threads.any (fun t => t.status.isRunning) = true := by
    simp [Quiet]
  unfold endRound
  split
  · rename_i running
    refine .refl (fun a => .inr ⟨fun h => ?_, rfl⟩) threads
    exact quiet.mp h.2 running
  · rename_i none
    refine .of_map fun a _ => ?_
    split
    · rename_i yielded
      exact .inl ⟨⟨yielded, quiet.mpr none⟩, rfl⟩
    · rename_i active
      exact .inr ⟨fun h => active h.1, rfl⟩

/-- The two stages after the thread at `index` may have retired. Which threads are finished is
settled before the first of them. -/
theorem settleThreads_stages (body : Relation) (index : Nat) (threads : List Thread) :
    ∃ woken,
      Threadwise (Thread.Relieved (settleThreads body index threads))
        (threads.modify index (retire body)) woken ∧
      Threadwise (Thread.Rejoins (Quiet woken)) woken (settleThreads body index threads) := by
  let retired := threads.modify index (retire body)
  let woken := retired.map (wake (unfinished retired))
  have rejoins : Threadwise (Thread.Rejoins (Quiet woken)) woken
      (settleThreads body index threads) := endRound_rejoins woken
  have keeps : Threadwise (fun a b => b.id = a.id ∧ b.status.isTerminal = a.status.isTerminal)
      retired (settleThreads body index threads) := by
    have wakes : Threadwise (fun a b => b.id = a.id ∧
        b.status.isTerminal = a.status.isTerminal) retired woken :=
      .of_map fun a _ => ⟨(wake_keeps _ a).1, (wake_keeps _ a).2.2.2⟩
    refine wakes.trans rejoins fun a b c ab bc => ?_
    exact ⟨bc.keeps.1.trans ab.1, bc.keeps.2.2.trans ab.2⟩
  refine ⟨woken, .of_map fun a _ => wake_relieved (fun x => ?_) a, rejoins⟩
  rw [keeps.unfinished_iff x, mem_unfinished]
  simp only [Unfinished, and_comm]

end Scheduler
end ActorAnalysis
