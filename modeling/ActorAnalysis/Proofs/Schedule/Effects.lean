import ActorAnalysis.Proofs.Schedule.Settling

namespace ActorAnalysis

theorem ScriptRef.heeds_set {p : Program} {message : String} {sender : Nat} {threads : List Thread}
    {t moved : Thread} (found : threads[sender]? = some t) (same : moved.ref = t.ref)
    (ref : ScriptRef) :
    ref.Heeds p message sender (threads.set sender moved) ↔
      ref.Heeds p message sender threads := by
  have placed : (threads.set sender moved)[sender]? = some moved :=
    List.getElem?_set_self (List.getElem?_eq_some_iff.mp found).1
  have others {j : Nat} (other : j ≠ sender) : (threads.set sender moved)[j]? = threads[j]? :=
    List.getElem?_set_ne (Ne.symm other)
  -- a thread of the script stands away from the sender, where nothing has changed
  have elsewhere {l l' : List Thread} {a b : Thread} (heeds : ref.Heeds p message sender l)
      (here : l'[sender]? = some b) (own : l[sender]? = some a) (refs : b.ref = a.ref)
      (rest : ∀ j, j ≠ sender → l'[j]? = l[j]?) : ref.Heeds p message sender l' := by
    have apart : a.ref ≠ ref := heeds.others a own
    refine ⟨?_, fun u hu => ?_, heeds.triggered, fun u hu ours => ?_⟩
    · obtain ⟨u, hu, ours⟩ := heeds.present
      obtain ⟨j, at_⟩ := List.getElem?_of_mem hu
      have other : j ≠ sender := by
        rintro rfl
        exact apart (Option.some.inj (own.symm.trans at_) ▸ ours)
      exact ⟨u, List.mem_of_getElem? ((rest j other).trans at_), ours⟩
    · obtain rfl : b = u := Option.some.inj (here.symm.trans hu)
      exact refs ▸ apart
    · obtain ⟨j, at_⟩ := List.getElem?_of_mem hu
      have other : j ≠ sender := by
        rintro rfl
        obtain rfl : b = u := Option.some.inj (here.symm.trans at_)
        exact apart (refs.symm.trans ours)
      exact heeds.idle u (List.mem_of_getElem? ((rest j other).symm.trans at_)) ours
  constructor
  · intro heeds
    exact elsewhere heeds found placed same.symm fun j other => (others other).symm
  · intro heeds
    exact elsewhere heeds placed found same fun j other => others other

namespace Scheduler

variable {D : Type} {m : Scheduler D} {s u : Scheduled D} {index : Nat} {ids after : Ids}

def Takes (m : Scheduler D) (index : Nat) (tr : Transition) (c e : Scheduled D × Ids) : Prop :=
  ∃ t script, c.1.threads[index]? = some t ∧ m.program.scriptAt t.ref = .ok script ∧
    tr ∈ script.body.outgoing t.location ∧
      ∃ out, (m.stepTransition c.1 index t script.body tr).Gave c.2 out e.2 ∧ e.1 ∈ out

/-- The thread at `index` waits for a condition to trigger it, or no transition leaves its
location. -/
def Rests (m : Scheduler D) (index : Nat) (s : Scheduled D) : Prop :=
  ∃ t script, s.threads[index]? = some t ∧ m.program.scriptAt t.ref = .ok script ∧
    ((∃ cond, script.Asleep t cond) ∨ script.body.outgoing t.location = [])

/-- The operation that the thread at `index` executes between two states. It executes none if it
only wakes up or ends. -/
inductive Executes (m : Scheduler D) (index : Nat) (c e : Scheduled D × Ids) :
    Option Operation → Prop where
  | along {tr : Transition} : m.Takes index tr c e → Executes m index c e (some tr.op)
  | still : m.Rests index c.1 → m.Steps index c e → Executes m index c e none

/-- The move belongs to the operation: it sends what the operation sends, and yields if that is the
operation. -/
structure Carries (move : Move) (op? : Option Operation) : Prop where
  sends : ∀ message, move.sends.Sends message ↔ ∃ op ∈ op?, op.Sends message
  yields : move.thread.status = .yielded ↔ op? = some .yield

theorem carries_of_mem_moves {tr : Transition} {t : Thread} {move : Move}
    (member : move ∈ tr.moves t) : Carries move (some tr.op) := by
  rcases Transition.mem_moves member with ⟨guard, sends, sent, rfl⟩ | ⟨cond, waits, rfl⟩ |
    ⟨cond, property, asserts, rfl⟩
  · refine ⟨fun message => ?_, by simp [Thread.withStatus, statusAfter_yielded]⟩
    rcases sent with rfl | ⟨⟨cond, stalls⟩ | ⟨cond, property, stalls⟩, rfl⟩
    · simp
    · simp [stalls, Operation.Sends]
    · simp [stalls, Operation.Sends]
  · exact ⟨by simp [waits, Operation.Sends], by simp [waits, Thread.withStatus]⟩
  · exact ⟨by simp [asserts, Operation.Sends], by simp [asserts]⟩

theorem Steps.executes {c e : Scheduled D × Ids} (steps : m.Steps index c e) :
    ∃ op?, m.Executes index c e op? := by
  have whole := steps
  obtain ⟨out, ⟨first, last, before, later, ran⟩, hu⟩ := steps
  obtain ⟨t, script, found, hscript⟩ := stepThread_found ran
  by_cases rests : (∃ cond, script.Asleep t cond) ∨ script.body.outgoing t.location = []
  · exact ⟨none, .still ⟨t, script, found, hscript, rests⟩ whole⟩
  · obtain ⟨awake, leaves⟩ := not_or.mp rests
    rw [stepThread_of_awake found hscript (not_exists.mp awake) leaves, Alloc.run_bind_ok] at ran
    obtain ⟨outs, mid, ran, done⟩ := ran
    obtain ⟨rfl, rfl⟩ := Alloc.run_pure_ok.mp done
    obtain ⟨out, hout, hu⟩ := List.mem_flatten.mp hu
    obtain ⟨tr, member, gave⟩ := (Alloc.mapM_gave ran).1 out hout
    exact ⟨some tr.op, .along ⟨t, script, found, hscript, member, out,
      gave.within before later, hu⟩⟩

theorem Takes.performed {tr : Transition} {c e : Scheduled D × Ids} (takes : m.Takes index tr c e) :
    ∃ t script move d, c.1.threads[index]? = some t ∧ m.program.scriptAt t.ref = .ok script ∧
      tr ∈ script.body.outgoing t.location ∧ move ∈ tr.moves t ∧
        (m.perform c.1 index script.body move d).Gave c.2 e.1 e.2 := by
  obtain ⟨t, script, found, hscript, outgoing, out, ⟨first, last, before, later, ran⟩, hu⟩ := takes
  rw [stepTransition_eq] at ran
  obtain ⟨move, member, ds, -, d, -, gave⟩ := (makeAll_performed ran).only e.1 hu
  exact ⟨t, script, move, d, found, hscript, outgoing, member, gave.within before later⟩

theorem Executes.performed {c e : Scheduled D × Ids} {op? : Option Operation}
    (executes : m.Executes index c e op?) :
    ∃ t script move d, c.1.threads[index]? = some t ∧ m.program.scriptAt t.ref = .ok script ∧
      move.Keeps t ∧ Carries move op? ∧
        (m.perform c.1 index script.body move d).Gave c.2 e.1 e.2 := by
  cases executes with
  | along takes =>
    obtain ⟨t, script, move, d, found, hscript, -, member, gave⟩ := takes.performed
    exact ⟨t, script, move, d, found, hscript, Transition.moves_keep member,
      carries_of_mem_moves member, gave⟩
  | still rests steps =>
    obtain ⟨t, script, found, hscript, rests⟩ := rests
    obtain ⟨out, ⟨first, last, before, later, ran⟩, hu⟩ := steps
    rw [stepThread_eq found hscript] at ran
    obtain ⟨move, member, ds, -, d, -, gave⟩ := (makeAll_performed ran).only e.1 hu
    refine ⟨t, script, move, d, found, hscript, Script.moves_keep member, ?_,
      gave.within before later⟩
    rcases rests with ⟨cond, asleep⟩ | none
    · rw [Script.moves_of_asleep asleep] at member
      rw [List.mem_singleton.mp member]
      exact ⟨by simp [Operation.Sends], by simp⟩
    · rcases Script.mem_moves member with ⟨cond, -, rfl⟩ | rfl | ⟨tr, outgoing, -⟩
      · exact ⟨by simp [Operation.Sends], by simp⟩
      · exact ⟨by simp [Operation.Sends], by simp [Thread.withStatus]⟩
      · rw [none] at outgoing
        exact absurd outgoing List.not_mem_nil

/-- What the step of the thread at `index` does to the others. The scripts for which `renew` has a
number are restarted under it; `woken` are the threads before a new round may begin. -/
structure StepFrame (p : Program) (index : Nat) (op? : Option Operation) (ids after : Ids)
    (renew : ScriptRef → Option ThreadId) (before woken now : List Thread) : Prop where
  length : woken.length = before.length
  heard : ∀ ref, (renew ref).isSome = true ↔
    ∃ message, (∃ op ∈ op?, op.Sends message) ∧ ref.Heeds p message index before
  fresh : ∀ ref x, renew ref = some x → ids.threads ≤ x ∧ x < after.threads
  apart : ∀ ref ref' x, renew ref = some x → renew ref' = some x → ref = ref'
  restarted : ∀ (j : Nat) a x, j ≠ index → before[j]? = some a → renew a.ref = some x →
    ∃ home, p.entryOf? before j = some home ∧ woken[j]? = some (.start x a.actor a.script home)
  relieved : ∀ (j : Nat) a, j ≠ index → before[j]? = some a → renew a.ref = none →
    ∃ b, woken[j]? = some b ∧ a.Relieved now b
  yielded : ∀ a b script, before[index]? = some a → woken[index]? = some b →
    p.scriptAt a.ref = .ok script →
      (b.status = .yielded ↔ op? = some .yield ∧ script.body.isExit b.location = false)
  rejoined : Threadwise (Thread.Rejoins (Quiet woken)) woken now

theorem StepFrame.within {p : Program} {op? : Option Operation} {ids' after' : Ids}
    {renew : ScriptRef → Option ThreadId} {before woken now : List Thread}
    (frame : StepFrame p index op? ids after renew before woken now) (start : ids' ≤ ids)
    (ends : after ≤ after') : StepFrame p index op? ids' after' renew before woken now :=
  { frame with
    fresh := fun ref x drawn =>
      ⟨Nat.le_trans start.1 (frame.fresh ref x drawn).1,
        Nat.lt_of_lt_of_le (frame.fresh ref x drawn).2 ends.1⟩ }

theorem retire_yielded (body : Relation) (t : Thread) :
    (retire body t).status = .yielded ↔
      t.status = .yielded ∧ body.isExit t.location = false := by
  unfold retire
  split
  · rename_i ends
    obtain ⟨-, exit⟩ := Bool.and_eq_true_iff.mp ends
    simp [Thread.withStatus, exit]
  · rename_i stays
    refine ⟨fun yielded => ⟨yielded, ?_⟩, fun h => h.1⟩
    simpa [yielded, Status.isTerminal] using stays

/-- The sender has yielded after its step just if it executed that, short of an exit. -/
theorem yielded_of_delivered {op? : Option Operation} {move : Move} {body : Relation}
    {now before threads : List Thread} {a b : Thread} (carries : Carries move op?)
    (delivered : Delivered m.program move.sends index ids after before threads)
    (placed : before[index]? = some move.thread) (found : threads[index]? = some a)
    (relieved : (retire body a).Relieved now b) :
    b.status = .yielded ↔ op? = some .yield ∧ body.isExit b.location = false := by
  rw [relieved.yielded_iff, relieved.keeps.2.1, (retire_keeps body a).2.2.2, retire_yielded,
    ← carries.yields]
  rcases delivered.sender _ a placed found with rfl | ⟨⟨message, waits⟩, awaited, -, rfl⟩
  · rfl
  · -- a sender that is put to wait has executed a broadcast
    obtain ⟨op, executed, sends⟩ := (carries.sends message).mp (waits ▸ .inr rfl)
    have other : move.thread.status ≠ .yielded := by
      rw [Ne, carries.yields, executed]
      rintro ⟨⟩
      exact sends.elim nofun nofun
    simp [other]

theorem perform_stepFrame {script : Script} {op? : Option Operation} {move : Move} {t : Thread}
    {d : D} (unambiguous : m.program.Unambiguous)
    (refs : s.threads.map Thread.ref = m.program.homes.map Prod.fst)
    (found : s.threads[index]? = some t) (hscript : m.program.scriptAt t.ref = .ok script)
    (keeps : move.Keeps t) (carries : Carries move op?)
    (done : (m.perform s index script.body move d).run ids = (.ok u, after)) :
    ∃ renew woken, StepFrame m.program index op? ids after renew s.threads woken u.threads := by
  obtain ⟨threads, delivered, rfl⟩ := run_perform_ok.mp done
  have placed : (s.threads.set index move.thread)[index]? = some move.thread :=
    List.getElem?_set_self (List.getElem?_eq_some_iff.mp found).1
  have others {j : Nat} (other : j ≠ index) :
      (s.threads.set index move.thread)[j]? = s.threads[j]? :=
    List.getElem?_set_ne (Ne.symm other)
  have refs' := (map_ref_set found keeps.ref).trans refs
  obtain ⟨renew, renewed, heard⟩ := deliver_renewed unambiguous refs' delivered
  have shape := deliver_delivered delivered
  obtain ⟨woken, relieved, rejoined⟩ := settleThreads_stages script.body index threads
  -- another thread, after the message is delivered and again at the end of the step
  have settled {j : Nat} {a : Thread} (other : j ≠ index) (ha : s.threads[j]? = some a) :
      ∃ b c, threads[j]? = some b ∧ woken[j]? = some c ∧
        b.Relieved (settleThreads script.body index threads) c := by
    obtain ⟨b, hb, -⟩ := shape.threadwise.forth ((others other).trans ha)
    obtain ⟨c, hc, bc⟩ := relieved.forth_other other hb
    exact ⟨b, c, hb, hc, bc⟩
  refine ⟨renew, woken, ?_, fun ref => ?_, renewed.fresh, renewed.apart,
    fun j a x other ha drawn => ?_, fun j a other ha drawn => ?_,
    fun a b known ha hb hknown => ?_, rejoined⟩
  · rw [relieved.length, List.length_modify, shape.length, List.length_set]
  · rw [heard ref]
    simp only [carries.sends, ScriptRef.heeds_set found keeps.ref]
  · obtain ⟨b, c, hb, hc, bc⟩ := settled other ha
    obtain ⟨home, at_, rfl⟩ := renewed.placed j a b x other ((others other).trans ha) hb drawn
    exact ⟨home, unambiguous.entryOf? refs ha at_, bc.eq_self rfl ▸ hc⟩
  · obtain ⟨b, c, hb, hc, bc⟩ := settled other ha
    obtain rfl := renewed.kept j a b other ((others other).trans ha) hb drawn
    exact ⟨c, hc, bc⟩
  · obtain rfl : t = a := Option.some.inj (found.symm.trans ha)
    obtain rfl : script = known := Except.ok.inj (hscript.symm.trans hknown)
    obtain ⟨c, hc, cb⟩ := relieved.back hb
    rw [List.getElem?_modify_eq] at hc
    obtain ⟨sent, hsent, rfl⟩ := Option.map_eq_some_iff.mp hc
    exact yielded_of_delivered carries shape placed hsent cb

theorem Executes.stepFrame {c e : Scheduled D × Ids} {op? : Option Operation}
    (unambiguous : m.program.Unambiguous)
    (refs : c.1.threads.map Thread.ref = m.program.homes.map Prod.fst)
    (executes : m.Executes index c e op?) :
    ∃ renew woken, StepFrame m.program index op? c.2 e.2 renew c.1.threads woken e.1.threads := by
  obtain ⟨t, script, move, d, found, hscript, keeps, carries, first, last, before, later, done⟩ :=
    executes.performed
  obtain ⟨renew, woken, frame⟩ :=
    perform_stepFrame unambiguous refs found hscript keeps carries done
  exact ⟨renew, woken, frame.within before later⟩

end Scheduler
end ActorAnalysis
