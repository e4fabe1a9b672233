import ActorAnalysis.Proofs.Schedule.Waiting

namespace ActorAnalysis

/-- The thread is the same, but may have gone from waiting or yielding to running. -/
structure Thread.Resumed (a b : Thread) : Prop where
  same : b = { a with status := b.status, waitsFor := b.waitsFor }
  status : b.status = a.status ∨ (a.status = .waiting ∨ a.status = .yielded) ∧ b.status = .running
  free : a.waitsFor.isEmpty = true → b.waitsFor = a.waitsFor

namespace Thread.Resumed

theorem refl (a : Thread) : a.Resumed a := ⟨rfl, .inl rfl, fun _ => rfl⟩

theorem trans {a b c : Thread} (first : a.Resumed b) (second : b.Resumed c) : a.Resumed c where
  same := by rw [second.same, first.same]
  status := by
    rcases second.status with same | ⟨idle, running⟩
    · exact same ▸ first.status
    · rcases first.status with same | ⟨-, running'⟩
      · exact .inr ⟨same ▸ idle, running⟩
      · rw [running'] at idle
        exact idle.elim nofun nofun
  free h := by
    have kept := first.free h
    rw [second.free (kept ▸ h), kept]

variable {a b : Thread} (resumed : a.Resumed b)
include resumed

theorem id : b.id = a.id := by rw [resumed.same]

theorem ref : b.ref = a.ref := by
  rw [resumed.same]
  rfl

theorem location : b.location = a.location := by rw [resumed.same]

theorem triggered : b.triggered = a.triggered := by rw [resumed.same]

theorem failedFor : b.failedFor = a.failedFor := by rw [resumed.same]

theorem status_of_failed (failed : b.status = .failed) : a.status = .failed := by
  rcases resumed.status with same | ⟨-, running⟩
  · rw [← same, failed]
  · rw [running] at failed
    exact nomatch failed

theorem isIdle (idle : b.isIdle = true) : a.isIdle = true := by
  rcases resumed.status with same | ⟨-, running⟩
  · simpa only [Thread.isIdle, same, resumed.triggered] using idle
  · simp [Thread.isIdle, running] at idle

theorem eq_self (waits : a.status ≠ .waiting) (yielded : a.status ≠ .yielded)
    (free : a.waitsFor.isEmpty = true) : b = a := by
  have status : b.status = a.status := by
    rcases resumed.status with same | ⟨moved, -⟩
    · exact same
    · exact absurd moved (not_or.mpr ⟨waits, yielded⟩)
  rw [resumed.same, status, resumed.free free]

end Thread.Resumed

theorem Thread.Revives.resumed {p : Program} {message : String} {ids after : Ids} {a b c : Thread}
    (revives : a.Revives p message ids after b) (resumed : b.Resumed c) : c = b := by
  obtain ⟨-, script, -, -, entry, -, id, -, -, rfl⟩ := revives
  exact resumed.eq_self nofun nofun rfl

theorem Transition.sends_of_mem_moves {tr : Transition} {t : Thread} {move : Move}
    (member : move ∈ tr.moves t) : move.sends = .skip ∨ move.sends = tr.op := by
  rcases mem_moves member with ⟨guard, sends, sent, rfl⟩ | ⟨cond, -, rfl⟩ | ⟨cond, property, -, rfl⟩
  · exact sent.symm.imp_left fun h => h.2
  · exact .inl rfl
  · exact .inl rfl

namespace Scheduler

variable {D : Type} {m : Scheduler D} {s u : Scheduled D} {index : Nat} {ids after : Ids}

theorem wake_resumed (pending : SortedSet ThreadId) (t : Thread) : t.Resumed (wake pending t) := by
  unfold wake
  split
  · exact .refl t
  · rename_i waits
    dsimp only
    split
    · rename_i resumes
      have waiting : t.status = .waiting := of_decide_eq_true (Bool.and_eq_true_iff.mp resumes).2
      exact ⟨rfl, .inr ⟨.inl waiting, rfl⟩, fun free => absurd free waits⟩
    · exact ⟨rfl, .inl rfl, fun free => absurd free waits⟩

theorem Resumes.resumed {pending : SortedSet ThreadId} {t t' : Thread}
    (resumes : Resumes pending t t') : t.Resumed t' := by
  have woken := wake_resumed pending t
  rcases resumes with rfl | ⟨yielded, rfl⟩
  · exact woken
  · exact woken.trans ⟨rfl, .inr ⟨.inr yielded, rfl⟩, fun _ => rfl⟩

/-- A move is delivered, its thread may retire, and then all threads may resume. -/
theorem perform_frame {body : Relation} {move : Move} {d : D}
    (gave : (m.perform s index body move d).Gave ids u after) : ∃ threads f,
      Delivered m.program move.sends index ids after (s.threads.set index move.thread) threads ∧
      u.threads = (threads.modify index (retire body)).map f ∧ ∀ t : Thread, t.Resumed (f t) := by
  obtain ⟨first, last, before, later, done⟩ := gave
  obtain ⟨threads, delivered, rfl⟩ := run_perform_ok.mp done
  obtain ⟨f, same, resumes⟩ := endRound_resumes (unfinished (threads.modify index (retire body)))
    (threads.modify index (retire body))
  exact ⟨threads, f, (deliver_delivered delivered).within before later, same,
    fun t => (resumes t).resumed⟩

theorem retire_keeps (body : Relation) (t : Thread) :
    (retire body t).id = t.id ∧ (retire body t).ref = t.ref ∧
      (retire body t).triggered = t.triggered ∧ (retire body t).location = t.location := by
  unfold retire
  split
  · exact ⟨rfl, rfl, rfl, rfl⟩
  · exact ⟨rfl, rfl, rfl, rfl⟩

theorem map_ref_set {threads : List Thread} {t moved : Thread} (found : threads[index]? = some t)
    (same : moved.ref = t.ref) :
    (threads.set index moved).map Thread.ref = threads.map Thread.ref := by
  refine Threadwise.refs ⟨List.length_set, fun j a b ha hb => ?_⟩
  rcases mem_set_cases hb with ⟨rfl, rfl⟩ | ⟨-, old⟩
  · rw [same, Option.some.inj (found.symm.trans ha)]
  · rw [Option.some.inj (old.symm.trans ha)]

theorem perform_refs {body : Relation} {move : Move} {t : Thread} {d : D}
    (found : s.threads[index]? = some t) (keeps : move.Keeps t)
    (gave : (m.perform s index body move d).Gave ids u after) :
    u.threads.map Thread.ref = s.threads.map Thread.ref := by
  obtain ⟨threads, f, delivered, same, resumed⟩ := perform_frame gave
  have retired : Threadwise (fun a b => b.ref = a.ref) (s.threads.set index move.thread)
      (threads.modify index (retire body)) :=
    delivered.threadwise.modify fun a b _ ref => (retire_keeps body b).2.1.trans ref
  have resumes : Threadwise (fun a b => b.ref = a.ref) (threads.modify index (retire body))
      u.threads := same ▸ .of_map fun b _ => (resumed b).ref
  rw [resumes.refs, retired.refs, map_ref_set found keeps.ref]

structure Spared (m : Scheduler D) (sends : Operation) (index : Nat) (ids after : Ids)
    (before now : List Thread) : Prop where
  length : now.length = before.length
  others : ∀ (j : Nat) a b, j ≠ index → before[j]? = some a → now[j]? = some b →
    a.Resumed b ∨ ∃ message, sends.Sends message ∧ a.Revives m.program message ids after b

theorem perform_spares {body : Relation} {move : Move} {d : D}
    (gave : (m.perform s index body move d).Gave ids u after) :
    m.Spared move.sends index ids after s.threads u.threads := by
  obtain ⟨threads, f, delivered, same, resumed⟩ := perform_frame gave
  rw [same]
  refine ⟨?_, fun j a b other ha hb => ?_⟩
  · rw [List.length_map, List.length_modify, delivered.length, List.length_set]
  · rw [List.getElem?_map] at hb
    obtain ⟨c, hc, rfl⟩ := Option.map_eq_some_iff.mp hb
    rw [List.getElem?_modify_ne _ _ (Ne.symm other)] at hc
    have old : (s.threads.set index move.thread)[j]? = some a := by
      rw [List.getElem?_set_ne (Ne.symm other), ha]
    rcases delivered.others j a c other old hc with rfl | ⟨message, sends, revives⟩
    · exact .inl (resumed c)
    · refine .inr ⟨message, sends, ?_⟩
      rwa [revives.resumed (resumed c)]

/-- The thread that moves may be put to wait by its own message; then it may retire or resume. -/
theorem perform_own {body : Relation} {move : Move} {d : D} {b : Thread}
    (gave : (m.perform s index body move d).Gave ids u after) (hb : u.threads[index]? = some b) :
    ∃ c, (c = move.thread ∨
        ∃ awaited, c = { move.thread with status := .waiting, waitsFor := awaited }) ∧
      (retire body c).Resumed b := by
  obtain ⟨threads, f, delivered, same, resumed⟩ := perform_frame gave
  rw [same, List.getElem?_map] at hb
  obtain ⟨c, hc, rfl⟩ := Option.map_eq_some_iff.mp hb
  rw [List.getElem?_modify_eq] at hc
  obtain ⟨a, ha, rfl⟩ := Option.map_eq_some_iff.mp hc
  have inside : index < (s.threads.set index move.thread).length :=
    delivered.length ▸ (List.getElem?_eq_some_iff.mp ha).1
  have placed : (s.threads.set index move.thread)[index]? = some move.thread := by
    rw [List.getElem?_set_self (by simpa using inside)]
  refine ⟨a, ?_, resumed _⟩
  rcases delivered.sender _ a placed ha with same | ⟨-, awaited, -, same⟩
  · exact .inl same
  · exact .inr ⟨awaited, same⟩

theorem perform_keeps {body : Relation} {move : Move} {d : D} {t b : Thread}
    (keeps : move.Keeps t) (gave : (m.perform s index body move d).Gave ids u after)
    (hb : u.threads[index]? = some b) :
    b.id = t.id ∧ b.ref = t.ref ∧ b.triggered = move.thread.triggered ∧
      b.location = move.thread.location := by
  obtain ⟨c, sent, resumed⟩ := perform_own gave hb
  obtain ⟨id, ref, triggered, location⟩ := retire_keeps body c
  rw [resumed.id, resumed.ref, resumed.triggered, resumed.location, id, ref, triggered, location]
  rcases sent with rfl | ⟨awaited, rfl⟩
  · exact ⟨keeps.id, keeps.ref, rfl, rfl⟩
  · exact ⟨keeps.id, keeps.ref, rfl, rfl⟩

theorem perform_failed {body : Relation} {move : Move} {d : D} {b : Thread}
    (gave : (m.perform s index body move d).Gave ids u after) (hb : u.threads[index]? = some b)
    (failed : b.status = .failed) :
    move.thread.status = .failed ∧ b.failedFor = move.thread.failedFor := by
  obtain ⟨c, sent, resumed⟩ := perform_own gave hb
  have unmoved := resumed.status_of_failed failed
  have kept : retire body c = c := by
    unfold retire at unmoved ⊢
    split at unmoved
    · exact nomatch unmoved
    · rename_i stays
      rw [if_neg stays]
  rw [kept] at unmoved
  rcases sent with rfl | ⟨awaited, rfl⟩
  · refine ⟨unmoved, ?_⟩
    rw [resumed.failedFor, kept]
  · exact nomatch unmoved

def Broadcasts (m : Scheduler D) (sender : Nat) (message : String) (c e : Scheduled D × Ids) :
    Prop :=
  ∃ t script, c.1.threads[sender]? = some t ∧ m.program.scriptAt t.ref = .ok script ∧
    ∃ tr ∈ script.body.outgoing t.location, tr.op.Sends message ∧
      ∃ out, (m.stepTransition c.1 sender t script.body tr).Gave c.2 out e.2 ∧ e.1 ∈ out

/-- By a broadcast of the thread at `sender`, the thread at `j` gives way to a new one. -/
def Restarts (m : Scheduler D) (sender j : Nat) (c e : Scheduled D × Ids) : Prop :=
  ∃ message, m.Broadcasts sender message c e ∧ ∃ a b, c.1.threads[j]? = some a ∧
    e.1.threads[j]? = some b ∧ a.Revives m.program message c.2 e.2 b

/-- On the way from `c` to `e` through its atomic section, the thread at `sender` restarts the one
at `j`, which stays where it starts. -/
def RestartsWithin (m : Scheduler D) (sender j : Nat) (c e : Scheduled D × Ids) : Prop :=
  ∃ x y, m.Runs sender c x ∧ x.1.isAtomic sender = true ∧ m.Restarts sender j x y ∧
    m.Runs sender y e ∧ ∃ t b, y.1.threads[j]? = some t ∧ e.1.threads[j]? = some b ∧ t.Resumed b

theorem mem_stepThread {out : List (Scheduled D)}
    (done : (m.stepThread s index).run ids = (.ok out, after)) (hu : u ∈ out) :
    (∃ body move d, move.sends = .skip ∧ (m.perform s index body move d).Gave ids u after) ∨
      ∃ t script, s.threads[index]? = some t ∧ m.program.scriptAt t.ref = .ok script ∧
        ∃ tr ∈ script.body.outgoing t.location,
          ∃ out, (m.stepTransition s index t script.body tr).Gave ids out after ∧ u ∈ out := by
  obtain ⟨t, script, found, hscript⟩ := stepThread_found done
  rw [stepThread_eq found hscript] at done
  have quiet {move : Move} (silent : move.sends = .skip)
      (done : (m.makeAll s index script.body [move]).run ids = (.ok out, after)) :
      ∃ body move d, move.sends = .skip ∧ (m.perform s index body move d).Gave ids u after := by
    obtain ⟨move', member, ds, -, d, -, gave⟩ := (makeAll_performed done).only u hu
    rw [List.mem_singleton.mp member] at gave
    exact ⟨script.body, move, d, silent, gave⟩
  by_cases waits : ∃ cond, script.Asleep t cond
  · obtain ⟨cond, asleep⟩ := waits
    rw [Script.moves_of_asleep asleep] at done
    exact .inl (quiet rfl done)
  · rw [Script.moves_of_awake (not_exists.mp waits)] at done
    split at done
    · split at done
      · exact .inl (quiet rfl done)
      · obtain ⟨rfl, -⟩ := Alloc.run_pure_ok.mp done
        exact nomatch hu
    · rw [← mapM_stepTransition_eq, Alloc.run_bind_ok] at done
      obtain ⟨outs, last, ran, done⟩ := done
      obtain ⟨rfl, rfl⟩ := Alloc.run_pure_ok.mp done
      obtain ⟨out, hout, hu⟩ := List.mem_flatten.mp hu
      obtain ⟨tr, member, gave⟩ := (Alloc.mapM_gave ran).1 out hout
      exact .inr ⟨t, script, found, hscript, tr, member, out, gave, hu⟩

/-- While a thread steps, another one stays, resumes or is restarted. -/
theorem Steps.others {c e : Scheduled D × Ids} (steps : m.Steps index c e) :
    e.1.threads.length = c.1.threads.length ∧
      ∀ (j : Nat) a b, j ≠ index → c.1.threads[j]? = some a → e.1.threads[j]? = some b →
        a.Resumed b ∨ b.isIdle = false ∧ m.Restarts index j c e := by
  obtain ⟨out, ⟨first, last, before, later, ran⟩, hu⟩ := steps
  rcases mem_stepThread ran hu with ⟨body, move, d, silent, gave⟩ |
    ⟨t, script, found, hscript, tr, member, out', gave, hu'⟩
  · have spared := perform_spares gave
    refine ⟨spared.length, fun j a b other ha hb => ?_⟩
    rcases spared.others j a b other ha hb with resumed | ⟨message, sends, -⟩
    · exact .inl resumed
    · rw [silent] at sends
      exact sends.elim nofun nofun
  · obtain ⟨start, ends, low, high, done⟩ := gave
    rw [stepTransition_eq] at done
    obtain ⟨move, moves, ds, -, d, -, performed⟩ := (makeAll_performed done).only e.1 hu'
    have spared := perform_spares performed
    refine ⟨spared.length, fun j a b other ha hb => ?_⟩
    rcases spared.others j a b other ha hb with resumed | ⟨message, sends, revives⟩
    · exact .inl resumed
    · have op : tr.op.Sends message := by
        rcases Transition.sends_of_mem_moves moves with silent | same
        · rw [silent] at sends
          exact sends.elim nofun nofun
        · exact same ▸ sends
      have low := Ids.le_trans before low
      have high := Ids.le_trans high later
      rw [← stepTransition_eq] at done
      exact .inr ⟨revives.not_idle, message,
        ⟨t, script, found, hscript, tr, member, op, out', ⟨start, ends, low, high, done⟩, hu'⟩,
        a, b, ha, hb, revives.within low high⟩

/-- While a thread runs through its atomic section, another one stays or resumes, unless it was idle
and is restarted on the way. -/
theorem Runs.others {c e : Scheduled D × Ids} (runs : m.Runs index c e) :
    e.1.threads.length = c.1.threads.length ∧
      ∀ (j : Nat) a b, j ≠ index → c.1.threads[j]? = some a → e.1.threads[j]? = some b →
        a.Resumed b ∨ a.isIdle = true ∧ b.isIdle = false ∧ m.RestartsWithin index j c e := by
  induction runs with
  | refl =>
    refine ⟨rfl, fun j a b _ ha hb => .inl ?_⟩
    rw [ha] at hb
    exact Option.some.inj hb ▸ .refl a
  | @tail y z runs next ih =>
    obtain ⟨length, before⟩ := ih
    obtain ⟨length', now⟩ := next.2.others
    refine ⟨length'.trans length, fun j a b other ha hb => ?_⟩
    obtain ⟨t, ht⟩ := exists_getElem?_of_length length' hb
    rcases now j t b other ht hb with resumed | ⟨awake, restarts⟩
    · rcases before j a t other ha ht with resumed' | ⟨idle, awake, x, w, start, within⟩
      · exact .inl (resumed'.trans resumed)
      · obtain ⟨atomic, restarts, rest, t', b', ht', hb', resumed'⟩ := within
        have same : b' = t := Option.some.inj (hb'.symm.trans ht)
        refine .inr ⟨idle, ?_, x, w, start, atomic, restarts, rest.tail next, t', b, ht', hb,
          (same ▸ resumed').trans resumed⟩
        exact Bool.eq_false_iff.mpr fun idle => absurd (resumed.isIdle idle) (by simp [awake])
    · -- a thread is restarted from idleness, which it has kept from the start
      have idle : t.isIdle = true := by
        obtain ⟨message, -, a', b', ha', -, revives⟩ := restarts
        exact Option.some.inj (ha'.symm.trans ht) ▸ revives.idle
      rcases before j a t other ha ht with resumed | ⟨-, awake, -⟩
      · exact .inr ⟨resumed.isIdle idle, awake, y, z, runs, next.1, restarts, .refl, b, b, hb, hb,
          .refl b⟩
      · simp [idle] at awake

theorem Steps.stepped {c e : Scheduled D × Ids} (steps : m.Steps index c e) :
    e.1.stepped = .singleton index := by
  obtain ⟨out, ⟨first, last, -, -, ran⟩, hu⟩ := steps
  obtain ⟨t, script, -, -, performed⟩ := stepThread_performed ran
  obtain ⟨move, -, ds, -, d, -, start, ends, -, -, done⟩ := performed.only e.1 hu
  obtain ⟨threads, -, settled⟩ := run_perform_ok.mp done
  rw [settled]
  rfl

theorem Runs.stepped {c x e : Scheduled D × Ids} (steps : m.Steps index c x)
    (runs : m.Runs index x e) : e.1.stepped = .singleton index := by
  rcases Relation.ReflTransGen.cases_tail runs with rfl | ⟨y, -, next⟩
  · exact steps.stepped
  · exact next.2.stepped

end Scheduler
end ActorAnalysis
