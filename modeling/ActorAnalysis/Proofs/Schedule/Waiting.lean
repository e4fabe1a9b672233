import ActorAnalysis.Proofs.Schedule.Successors

namespace ActorAnalysis

/-- A thread waits for younger ones only, and is blocked while it does, unless its broadcast has
taken it to an exit of its script. -/
structure Thread.Waits (program : Program) (t : Thread) : Prop where
  younger : ∀ x ∈ t.waitsFor, t.id < x
  blocked : ∀ x ∈ t.waitsFor, ∃ script, program.scriptAt t.ref = .ok script ∧
    t.status = if script.body.isExit t.location then .done else .waiting

def Attended (threads : List Thread) : Prop :=
  ∀ t ∈ threads, ∀ x ∈ t.waitsFor, ∃ u ∈ threads, u.id = x ∧ u.status.isTerminal = false

theorem Thread.waits_of_free {program : Program} {t : Thread} (free : ∀ x, x ∉ t.waitsFor) :
    t.Waits program :=
  ⟨fun x hx => absurd hx (free x), fun x hx => absurd hx (free x)⟩

theorem Thread.Waits.status {program : Program} {t : Thread} (waits : t.Waits program)
    {x : ThreadId} (hx : x ∈ t.waitsFor) : t.status = .done ∨ t.status = .waiting := by
  obtain ⟨script, -, status⟩ := waits.blocked x hx
  split at status
  · exact .inl status
  · exact .inr status

structure Move.Keeps (move : Move) (t : Thread) : Prop where
  id : move.thread.id = t.id
  ref : move.thread.ref = t.ref
  waitsFor : move.thread.waitsFor = t.waitsFor

theorem Transition.moves_keep {tr : Transition} {t : Thread} {move : Move}
    (member : move ∈ tr.moves t) : move.Keeps t := by
  rcases mem_moves member with ⟨guard, sends, -, rfl⟩ | ⟨cond, -, rfl⟩ | ⟨cond, property, -, rfl⟩
  · exact ⟨rfl, rfl, rfl⟩
  · exact ⟨rfl, rfl, rfl⟩
  · exact ⟨rfl, rfl, rfl⟩

theorem Script.moves_keep {script : Script} {t : Thread} {move : Move}
    (member : move ∈ script.moves t) : move.Keeps t := by
  rcases mem_moves member with ⟨cond, -, rfl⟩ | rfl | ⟨tr, -, member⟩
  · exact ⟨rfl, rfl, rfl⟩
  · exact ⟨rfl, rfl, rfl⟩
  · exact Transition.moves_keep member

namespace Scheduler

variable {D : Type}

/-- A thread right after its step: if it waits for others, these are younger, and it is waiting
even at an exit. -/
structure Sent (ref : ScriptRef) (t : Thread) : Prop where
  ref : t.ref = ref
  younger : ∀ x ∈ t.waitsFor, t.id < x
  waiting : ∀ x ∈ t.waitsFor, t.status = .waiting

theorem deliver_restarts {m : Scheduler D} {sender : Nat} {op : Operation} {a : Thread}
    {threads threads' : List Thread} {ids after : Ids} (found : threads[sender]? = some a)
    (free : ∀ x, x ∉ a.waitsFor) (numbered : a.id < ids.threads)
    (done : (m.deliver sender op threads).run ids = (.ok threads', after)) :
    ∀ (j : Nat) b, threads'[j]? = some b →
      j = sender ∧ Sent a.ref b ∨ j ≠ sender ∧ (threads[j]? = some b ∨ b.waitsFor = ∅) := by
  have delivered := deliver_delivered done
  intro j b at_
  by_cases here : j = sender
  · subst here
    rcases delivered.sender a b found at_ with rfl | ⟨-, awaited, fresh, rfl⟩
    · exact .inl ⟨rfl, rfl, fun x hx => absurd hx (free x), fun x hx => absurd hx (free x)⟩
    · refine .inl ⟨rfl, rfl, fun x hx => ?_, fun _ _ => rfl⟩
      exact Nat.lt_of_lt_of_le numbered (fresh x hx).1
  · refine .inr ⟨here, ?_⟩
    obtain ⟨c, before⟩ := exists_getElem?_of_length delivered.length at_
    rcases delivered.others j c b here before at_ with rfl | ⟨message, -, revives⟩
    · exact .inl before
    · exact .inr revives.waitsFor

theorem retire_waits {program : Program} {script : Script} {ref : ScriptRef} {t : Thread}
    (found : program.scriptAt ref = .ok script) (sent : Sent ref t) :
    (retire script.body t).Waits program := by
  obtain ⟨rfl, younger, waiting⟩ := sent
  unfold retire
  split
  · rename_i ended
    simp only [Bool.and_eq_true] at ended
    refine ⟨younger, fun x hx => ⟨script, found, ?_⟩⟩
    exact (if_pos ended.2).symm
  · rename_i goesOn
    refine ⟨younger, fun x hx => ⟨script, found, ?_⟩⟩
    have status := waiting x hx
    have inside : ¬script.body.isExit t.location = true := by
      intro exit
      simp [status, exit, Status.isTerminal] at goesOn
    rw [if_neg inside, status]

theorem mem_waitsFor_wake {pending : SortedSet ThreadId} {t : Thread} {x : ThreadId}
    (member : x ∈ (wake pending t).waitsFor) :
    x ∈ t.waitsFor ∧ x ∈ pending ∧ (wake pending t).status = t.status := by
  unfold wake at member ⊢
  split at member
  · rename_i free
    exact absurd member (SortedSet.isEmpty_iff.mp free x)
  · rename_i waits
    rw [if_neg waits]
    dsimp only at member ⊢
    split at member
    · rename_i resumes
      have none := (Bool.and_eq_true_iff.mp resumes).1
      exact absurd member (SortedSet.isEmpty_iff.mp none x)
    · rename_i stays
      rw [if_neg stays]
      obtain ⟨old, unfinished⟩ := SortedSet.mem_filter.mp member
      exact ⟨old, of_decide_eq_true unfinished, rfl⟩

theorem wake_keeps (pending : SortedSet ThreadId) (t : Thread) :
    (wake pending t).id = t.id ∧ (wake pending t).ref = t.ref ∧
      (wake pending t).location = t.location ∧
      (wake pending t).status.isTerminal = t.status.isTerminal := by
  unfold wake
  split
  · exact ⟨rfl, rfl, rfl, rfl⟩
  · dsimp only
    split
    · rename_i resumes
      have waiting : t.status = .waiting := of_decide_eq_true (Bool.and_eq_true_iff.mp resumes).2
      exact ⟨rfl, rfl, rfl, by rw [waiting]; rfl⟩
    · exact ⟨rfl, rfl, rfl, rfl⟩

theorem wake_waits {program : Program} (pending : SortedSet ThreadId) {t : Thread}
    (waits : t.Waits program) : (wake pending t).Waits program := by
  obtain ⟨id, ref, location, -⟩ := wake_keeps pending t
  refine ⟨fun x hx => ?_, fun x hx => ?_⟩
  · rw [id]
    exact waits.younger x (mem_waitsFor_wake hx).1
  · obtain ⟨old, -, status⟩ := mem_waitsFor_wake hx
    rw [ref, location, status]
    exact waits.blocked x old

theorem mem_unfinished {threads : List Thread} {x : ThreadId} :
    x ∈ unfinished threads ↔ ∃ t ∈ threads, t.status.isTerminal = false ∧ t.id = x := by
  simp [unfinished, and_assoc]

/-- What the end of a step makes of a thread: it is woken if its time has come, and it goes on if it
has yielded and a new round begins. -/
def Resumes (pending : SortedSet ThreadId) (t t' : Thread) : Prop :=
  t' = wake pending t ∨
    (wake pending t).status = .yielded ∧ t' = (wake pending t).withStatus .running

theorem endRound_resumes (pending : SortedSet ThreadId) (threads : List Thread) :
    ∃ f, endRound (threads.map (wake pending)) = threads.map f ∧ ∀ t, Resumes pending t (f t) := by
  unfold endRound
  split
  · exact ⟨wake pending, rfl, fun _ => .inl rfl⟩
  · rw [List.map_map]
    refine ⟨_, rfl, fun t => ?_⟩
    rw [Function.comp_apply]
    split
    · rename_i yielded
      exact .inr ⟨yielded, rfl⟩
    · exact .inl rfl

section Resumes

variable {pending : SortedSet ThreadId} {t t' : Thread} (resumes : Resumes pending t t')
include resumes

theorem Resumes.mem_pending {x : ThreadId} (member : x ∈ t'.waitsFor) : x ∈ pending := by
  rcases resumes with rfl | ⟨-, rfl⟩
  · exact (mem_waitsFor_wake member).2.1
  · exact (mem_waitsFor_wake (t := t) member).2.1

theorem Resumes.unfinished (active : t.status.isTerminal = false) :
    t'.id = t.id ∧ t'.status.isTerminal = false := by
  obtain ⟨id, -, -, terminal⟩ := wake_keeps pending t
  rcases resumes with rfl | ⟨-, rfl⟩
  · exact ⟨id, terminal.trans active⟩
  · exact ⟨id, rfl⟩

theorem Resumes.waits {program : Program} (waits : t.Waits program) : t'.Waits program := by
  have woken := wake_waits pending waits
  rcases resumes with rfl | ⟨yielded, rfl⟩
  · exact woken
  · -- a thread that has yielded waits for nobody
    apply Thread.waits_of_free
    intro x hx
    rcases woken.status hx with status | status
    · rw [yielded] at status
      exact nomatch status
    · rw [yielded] at status
      exact nomatch status

end Resumes

theorem settleThreads_attended (body : Relation) (index : Nat) (threads : List Thread) :
    Attended (settleThreads body index threads) := by
  obtain ⟨f, same, resumes⟩ := endRound_resumes (unfinished (threads.modify index (retire body)))
    (threads.modify index (retire body))
  unfold settleThreads
  rw [same]
  intro b hb x hx
  obtain ⟨t, -, rfl⟩ := List.mem_map.mp hb
  obtain ⟨u, hu, active, rfl⟩ := mem_unfinished.mp ((resumes t).mem_pending hx)
  exact ⟨f u, List.mem_map_of_mem hu, (resumes u).unfinished active⟩

theorem settleThreads_waits {program : Program} {body : Relation} {index : Nat}
    {threads : List Thread}
    (retired : ∀ t ∈ threads.modify index (retire body), t.Waits program) :
    ∀ t ∈ settleThreads body index threads, t.Waits program := by
  obtain ⟨f, same, resumes⟩ := endRound_resumes (unfinished (threads.modify index (retire body)))
    (threads.modify index (retire body))
  unfold settleThreads
  rw [same]
  intro b hb
  obtain ⟨t, ht, rfl⟩ := List.mem_map.mp hb
  exact (resumes t).waits (retired t ht)

variable {m : Scheduler D} {s u : Scheduled D} {index : Nat} {ids after : Ids}

theorem Enabled.free (enabled : m.Enabled s index) {t : Thread}
    (found : s.threads[index]? = some t) (waits : t.Waits m.program) : ∀ x, x ∉ t.waitsFor := by
  intro x hx
  have moves : t.status = .runningAtomic ∨ t.status = .running := by
    rcases enabled.cases found with atomic | may
    · exact .inl atomic
    · rcases mayStep_true may with running | ⟨-, free, -⟩
      · exact .inr running
      · exact absurd hx (SortedSet.isEmpty_iff.mp free x)
  rcases waits.status hx with status | status
  · rcases moves with moves | moves <;> simp [moves] at status
  · rcases moves with moves | moves <;> simp [moves] at status

theorem perform_waits {script : Script} {move : Move} {t : Thread} {d : D}
    (found : s.threads[index]? = some t) (scriptIs : m.program.scriptAt t.ref = .ok script)
    (keeps : move.Keeps t) (free : ∀ x, x ∉ t.waitsFor) (numbered : t.id < ids.threads)
    (waits : ∀ t ∈ s.threads, t.Waits m.program)
    (done : (m.perform s index script.body move d).run ids = (.ok u, after)) :
    (∀ t ∈ u.threads, t.Waits m.program) ∧ Attended u.threads := by
  obtain ⟨threads, delivered, rfl⟩ := run_perform_ok.mp done
  have placed : (s.threads.set index move.thread)[index]? = some move.thread := by
    rw [List.getElem?_set_self (List.getElem?_eq_some_iff.mp found).1]
  have restarts := deliver_restarts placed (keeps.waitsFor ▸ free) (keeps.id ▸ numbered) delivered
  refine ⟨settleThreads_waits fun b hb => ?_, settleThreads_attended script.body index threads⟩
  obtain ⟨j, at_⟩ := List.getElem?_of_mem hb
  rw [List.getElem?_modify] at at_
  obtain ⟨c, hc, same⟩ := Option.map_eq_some_iff.mp at_
  rcases restarts j c hc with ⟨here, sent⟩ | ⟨other, old⟩
  · rw [if_pos here.symm] at same
    exact same ▸ retire_waits (keeps.ref ▸ scriptIs) sent
  · rw [if_neg (Ne.symm other)] at same
    subst same
    rcases old with old | new
    · rcases mem_set_cases old with ⟨here, -⟩ | ⟨-, old⟩
      · exact absurd here other
      · exact waits _ (List.mem_of_getElem? old)
    · apply Thread.waits_of_free
      rw [new]
      exact SortedSet.not_mem_empty

theorem stepThread_waits {out : List (Scheduled D)} (well : s.WellFormed ids)
    (waits : ∀ t ∈ s.threads, t.Waits m.program) (enabled : m.Enabled s index)
    (done : (m.stepThread s index).run ids = (.ok out, after)) :
    ∀ u ∈ out, (∀ t ∈ u.threads, t.Waits m.program) ∧ Attended u.threads := by
  intro u hu
  obtain ⟨t, script, found, scriptIs, performed⟩ := stepThread_performed done
  obtain ⟨move, member, ds, -, d, -, first, last, before, -, ran⟩ := performed.only u hu
  have present := List.mem_of_getElem? found
  have numbered := (well.grows before).numbered t present t.id (.inl rfl)
  exact perform_waits found scriptIs (Script.moves_keep member)
    (enabled.free found (waits t present)) numbered waits ran

end Scheduler

theorem threadsFrom_new {first : ThreadId} {l : List (String × Script)} {t : Thread}
    (member : t ∈ threadsFrom first l) : ∃ id actor script entry,
      t = .start id actor script entry ∨ t = (Thread.start id actor script entry).untriggered := by
  obtain ⟨actor, script, -, id, -, -, found⟩ := mem_threadsFrom member
  obtain ⟨entry, -, rfl⟩ := List.mem_map.mp found
  refine ⟨id, actor, script.id, entry, ?_⟩
  dsimp only
  split
  · exact .inl rfl
  · exact .inr rfl

theorem threadsFrom_free {first : ThreadId} {l : List (String × Script)} {t : Thread}
    (member : t ∈ threadsFrom first l) : t.waitsFor = ∅ := by
  obtain ⟨id, actor, script, entry, rfl | rfl⟩ := threadsFrom_new member
  · rfl
  · rfl

end ActorAnalysis
