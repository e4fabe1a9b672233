import ActorAnalysis.Proofs.Alloc
import ActorAnalysis.Schedule.Atomic

/-! A step of a thread, taken apart. What a thread may do depends on its script alone: a list of
moves. The data decides which of them it can take; a move that is taken is then performed on all
threads. -/
namespace ActorAnalysis

structure Move where
  /-- The operation that the data takes; none if the data stays as it is. -/
  guard : Option Operation
  /-- The thread after the move. -/
  thread : Thread
  /-- The operation whose message is delivered. -/
  sends : Operation
  violated : Option Property

def Operation.Stalls (op : Operation) : Prop :=
  (∃ cond, op = .waitUntil cond) ∨ ∃ cond property, op = .assert cond property

namespace Scheduler

theorem statusAfter_yielded (status : Status) (op : Operation) :
    statusAfter status op = .yielded ↔ op = .yield := by
  cases op <;> cases status <;> simp [statusAfter, runOn]

theorem statusAfter_ne {status other : Status} (op : Operation) (stopped : other.isRunning = false)
    (unlike : other ≠ .yielded) : statusAfter status op ≠ other := by
  rintro rfl
  cases op <;> cases status <;> simp_all [statusAfter, runOn, Status.isRunning]

end Scheduler

namespace Transition

/-- The moves along a transition. Waiting and asserting branch on their condition. -/
def moves (tr : Transition) (t : Thread) : List Move :=
  let advanced := (t.moveTo tr.target).withStatus (Scheduler.runOn t.status)
  match tr.op with
  | .waitUntil cond =>
    [⟨some (.assume cond), advanced, .skip, none⟩,
      ⟨some (.assume cond.negate), t.withStatus .waiting, .skip, none⟩]
  | .assert cond property =>
    [⟨some (.assume cond), advanced, .skip, none⟩,
      ⟨some (.assume cond.negate),
        { t with status := .failed, failedFor := t.failedFor.insert property }, .skip,
        some property⟩]
  | op => [⟨some op, advanced.withStatus (Scheduler.statusAfter t.status op), op, none⟩]

theorem mem_moves {tr : Transition} {t : Thread} {move : Move} (member : move ∈ tr.moves t) :
    (∃ guard sends, (sends = tr.op ∨ tr.op.Stalls ∧ sends = .skip) ∧ move = ⟨some guard,
      (t.moveTo tr.target).withStatus (Scheduler.statusAfter t.status tr.op), sends, none⟩) ∨
    (∃ cond, tr.op = .waitUntil cond ∧
      move = ⟨some (.assume cond.negate), t.withStatus .waiting, .skip, none⟩) ∨
    ∃ cond property, tr.op = .assert cond property ∧ move = ⟨some (.assume cond.negate),
      { t with status := .failed, failedFor := t.failedFor.insert property }, .skip,
      some property⟩ := by
  obtain ⟨source, op, target⟩ := tr
  cases op with
  | waitUntil cond =>
    rcases List.mem_cons.mp member with rfl | member
    · exact .inl ⟨_, .skip, .inr ⟨.inl ⟨cond, rfl⟩, rfl⟩, rfl⟩
    · exact .inr (.inl ⟨cond, rfl, List.mem_singleton.mp member⟩)
  | assert cond property =>
    rcases List.mem_cons.mp member with rfl | member
    · exact .inl ⟨_, .skip, .inr ⟨.inr ⟨cond, property, rfl⟩, rfl⟩, rfl⟩
    · exact .inr (.inr ⟨cond, property, rfl, List.mem_singleton.mp member⟩)
  | _ => exact .inl ⟨_, _, .inl rfl, List.mem_singleton.mp member⟩

end Transition

namespace Script

def moves (script : Script) (t : Thread) : List Move :=
  match t.triggered, script.event with
  | false, .condition cond =>
    [⟨some (.assume cond), { t with status := .running, triggered := true }, .skip, none⟩]
  | _, _ =>
    let outgoing := script.body.outgoing t.location
    if outgoing.isEmpty then
      if script.body.isExit t.location then [⟨none, t.withStatus .done, .skip, none⟩] else []
    else outgoing.flatMap (Transition.moves · t)

def Asleep (script : Script) (t : Thread) (cond : Cond) : Prop :=
  t.triggered = false ∧ script.event = .condition cond

theorem moves_of_asleep {script : Script} {t : Thread} {cond : Cond}
    (asleep : script.Asleep t cond) : script.moves t =
      [⟨some (.assume cond), { t with status := .running, triggered := true }, .skip, none⟩] := by
  simp only [moves, asleep.1, asleep.2]

theorem moves_of_awake {script : Script} {t : Thread} (awake : ∀ cond, ¬script.Asleep t cond) :
    script.moves t =
      if (script.body.outgoing t.location).isEmpty then
        if script.body.isExit t.location then [⟨none, t.withStatus .done, .skip, none⟩] else []
      else (script.body.outgoing t.location).flatMap (Transition.moves · t) := by
  unfold moves
  split
  · exact absurd ⟨by assumption, by assumption⟩ (awake _)
  · rfl

/-- A thread wakes up, ends, or takes a transition. -/
theorem mem_moves {script : Script} {t : Thread} {move : Move} (member : move ∈ script.moves t) :
    (∃ cond, script.Asleep t cond ∧ move =
      ⟨some (.assume cond), { t with status := .running, triggered := true }, .skip, none⟩) ∨
    move = ⟨none, t.withStatus .done, .skip, none⟩ ∨
    ∃ tr ∈ script.body.outgoing t.location, move ∈ tr.moves t := by
  by_cases waits : ∃ cond, script.Asleep t cond
  · obtain ⟨cond, asleep⟩ := waits
    rw [moves_of_asleep asleep] at member
    exact .inl ⟨cond, asleep, List.mem_singleton.mp member⟩
  · rw [moves_of_awake (not_exists.mp waits)] at member
    split at member
    · split at member
      · exact .inr (.inl (List.mem_singleton.mp member))
      · exact nomatch member
    · exact .inr (.inr (List.mem_flatMap.mp member))

end Script

namespace Scheduler

variable {D : Type}

def pass (m : Scheduler D) (data : D) : Option Operation → Except Error (List D)
  | none => .ok [data]
  | some op => m.step data op

def perform (m : Scheduler D) (s : Scheduled D) (index : Nat) (body : Relation) (move : Move)
    (data : D) : Alloc (Scheduled D) := do
  let threads ← m.deliver index move.sends (s.threads.set index move.thread)
  return settle body s index move.violated threads data

def make (m : Scheduler D) (s : Scheduled D) (index : Nat) (body : Relation) (move : Move) :
    Alloc (List (Scheduled D)) := do
  let ds ← m.pass s.data move.guard
  ds.mapM (m.perform s index body move)

def makeAll (m : Scheduler D) (s : Scheduled D) (index : Nat) (body : Relation)
    (moves : List Move) : Alloc (List (Scheduled D)) := do
  let outs ← moves.mapM (m.make s index body)
  return outs.flatten

section Make

variable {m : Scheduler D} {s : Scheduled D} {index : Nat} {body : Relation}

theorem makeAll_nil : m.makeAll s index body [] = pure [] := rfl

theorem makeAll_cons (move : Move) (moves : List Move) :
    m.makeAll s index body (move :: moves) = (do
      let out ← m.make s index body move
      let outs ← m.makeAll s index body moves
      return out ++ outs) := by
  simp [makeAll]

theorem makeAll_append (moves moves' : List Move) :
    m.makeAll s index body (moves ++ moves') = (do
      let out ← m.makeAll s index body moves
      let out' ← m.makeAll s index body moves'
      return out ++ out') := by
  induction moves with
  | nil => simp [makeAll_nil]
  | cons move moves ih =>
    simp only [List.cons_append, makeAll_cons, ih, bind_assoc, pure_bind, List.append_assoc]

theorem makeAll_singleton (move : Move) :
    m.makeAll s index body [move] = m.make s index body move := by
  simp [makeAll_cons, makeAll_nil]

theorem make_quiet (guard : Option Operation) (t : Thread) (violated : Option Property) :
    m.make s index body ⟨guard, t, .skip, violated⟩ = (do
      let ds ← m.pass s.data guard
      return ds.map (settle body s index violated (s.threads.set index t))) := by
  have quiet : m.perform s index body ⟨guard, t, .skip, violated⟩ =
      fun d => pure (settle body s index violated (s.threads.set index t) d) := rfl
  unfold make
  rw [quiet]
  simp only [List.mapM_pure]

theorem stepTransition_eq (t : Thread) (tr : Transition) :
    m.stepTransition s index t body tr = m.makeAll s index body (tr.moves t) := by
  obtain ⟨source, op, target⟩ := tr
  cases op with
  | waitUntil cond | assert cond property =>
    simp [stepTransition, Transition.moves, makeAll_cons, makeAll_nil, make_quiet, pass]
  | _ =>
    change _ = m.makeAll s index body [_]
    rw [makeAll_singleton]
    rfl

theorem mapM_stepTransition_eq (t : Thread) (l : List Transition) :
    (do
      let outs ← l.mapM (m.stepTransition s index t body)
      return outs.flatten) = m.makeAll s index body (l.flatMap (Transition.moves · t)) := by
  induction l with
  | nil => rfl
  | cons tr rest ih =>
    rw [List.flatMap_cons, makeAll_append, ← ih, ← stepTransition_eq]
    simp

/-- The step of a thread makes all moves that its script gives it. -/
theorem stepThread_eq {t : Thread} {script : Script} (found : s.threads[index]? = some t)
    (hscript : m.program.scriptAt t.ref = .ok script) :
    m.stepThread s index = m.makeAll s index script.body (script.moves t) := by
  have lifted : (liftM (m.program.scriptAt t.ref) : Alloc Script) = pure script := by
    rw [hscript]
    rfl
  unfold stepThread
  simp only [found, lifted, pure_bind]
  by_cases waits : ∃ cond, script.Asleep t cond
  · obtain ⟨cond, asleep⟩ := waits
    rw [Script.moves_of_asleep asleep, makeAll_singleton, make_quiet]
    simp only [asleep.1, asleep.2]
    rfl
  · have awake := not_exists.mp waits
    rw [Script.moves_of_awake awake]
    split
    · exact absurd ⟨by assumption, by assumption⟩ (awake _)
    · split
      · split
        · rw [makeAll_singleton, make_quiet]
          rfl
        · rfl
      · exact mapM_stepTransition_eq t _

/-- A thread that is awake goes along all transitions that leave its location. -/
theorem stepThread_of_awake {t : Thread} {script : Script} (found : s.threads[index]? = some t)
    (hscript : m.program.scriptAt t.ref = .ok script) (awake : ∀ cond, ¬script.Asleep t cond)
    (leaves : script.body.outgoing t.location ≠ []) :
    m.stepThread s index = (do
      let outs ← (script.body.outgoing t.location).mapM (m.stepTransition s index t script.body)
      return outs.flatten) := by
  have some : ¬(script.body.outgoing t.location).isEmpty = true :=
    fun none => leaves (List.isEmpty_iff.mp none)
  rw [stepThread_eq found hscript, Script.moves_of_awake awake, if_neg some,
    mapM_stepTransition_eq]

end Make

/-- The states `out` are those after the moves, each performed between `ids` and `after`. -/
structure Performed (m : Scheduler D) (s : Scheduled D) (index : Nat) (body : Relation)
    (moves : List Move) (ids : Ids) (out : List (Scheduled D)) (after : Ids) : Prop where
  passed : ∀ move ∈ moves, ∃ ds, m.pass s.data move.guard = .ok ds ∧
    ∀ d ∈ ds, ∃ u ∈ out, (m.perform s index body move d).Gave ids u after
  only : ∀ u ∈ out, ∃ move ∈ moves, ∃ ds, m.pass s.data move.guard = .ok ds ∧
    ∃ d ∈ ds, (m.perform s index body move d).Gave ids u after

def CanPerform (m : Scheduler D) (s : Scheduled D) (index : Nat) (body : Relation)
    (moves : List Move) (ids : Ids) : Prop :=
  ∀ move ∈ moves, ∃ ds, m.pass s.data move.guard = .ok ds ∧ ∀ d ∈ ds, ∀ first, ids ≤ first →
    ∃ u last, (m.perform s index body move d).run first = (.ok u, last)

section Performed

variable {m : Scheduler D} {s : Scheduled D} {index : Nat} {body : Relation} {ids after : Ids}
  {moves : List Move} {out : List (Scheduled D)}

theorem make_gave {move : Move} (gave : (m.make s index body move).Gave ids out after) :
    ∃ ds, m.pass s.data move.guard = .ok ds ∧
      (∀ d ∈ ds, ∃ u ∈ out, (m.perform s index body move d).Gave ids u after) ∧
      ∀ u ∈ out, ∃ d ∈ ds, (m.perform s index body move d).Gave ids u after := by
  obtain ⟨first, last, before, later, ran⟩ := gave
  rw [make, Alloc.run_bind_ok] at ran
  obtain ⟨ds, mid, hds, ran⟩ := ran
  obtain ⟨passed, rfl⟩ := Alloc.run_liftM_ok.mp hds
  obtain ⟨only, each⟩ := Alloc.mapM_gave ran
  refine ⟨ds, passed, fun d hd => ?_, fun u hu => ?_⟩
  · obtain ⟨u, hu, gave⟩ := each d hd
    exact ⟨u, hu, gave.within before later⟩
  · obtain ⟨d, hd, gave⟩ := only u hu
    exact ⟨d, hd, gave.within before later⟩

theorem makeAll_performed (done : (m.makeAll s index body moves).run ids = (.ok out, after)) :
    m.Performed s index body moves ids out after := by
  obtain ⟨outs, last, ran, done⟩ := Alloc.run_bind_ok.mp done
  obtain ⟨rfl, rfl⟩ := Alloc.run_pure_ok.mp done
  obtain ⟨only, each⟩ := Alloc.mapM_gave ran
  refine ⟨fun move member => ?_, fun u hu => ?_⟩
  · obtain ⟨out, hout, gave⟩ := each move member
    obtain ⟨ds, passed, each, -⟩ := make_gave gave
    refine ⟨ds, passed, fun d hd => ?_⟩
    obtain ⟨u, hu, gave⟩ := each d hd
    exact ⟨u, List.mem_flatten.mpr ⟨out, hout, hu⟩, gave⟩
  · obtain ⟨out, hout, hu⟩ := List.mem_flatten.mp hu
    obtain ⟨move, member, gave⟩ := only out hout
    obtain ⟨ds, passed, -, only⟩ := make_gave gave
    exact ⟨move, member, ds, passed, only u hu⟩

theorem makeAll_succeeds (can : m.CanPerform s index body moves ids) :
    ∃ out after, (m.makeAll s index body moves).run ids = (.ok out, after) := by
  have each : ∀ move ∈ moves, ∀ first, ids ≤ first →
      ∃ out last, (m.make s index body move).run first = (.ok out, last) := by
    intro move member first later
    obtain ⟨ds, passed, each⟩ := can move member
    obtain ⟨out, last, ran⟩ := Alloc.mapM_succeeds
      fun d hd now le => each d hd now (Ids.le_trans later le)
    exact ⟨out, last, Alloc.run_bind_ok.mpr
      ⟨ds, first, Alloc.run_liftM_ok.mpr ⟨passed, rfl⟩, ran⟩⟩
  obtain ⟨outs, after, ran⟩ := Alloc.mapM_succeeds each
  exact ⟨outs.flatten, after, Alloc.run_bind_ok.mpr ⟨outs, after, ran, rfl⟩⟩

theorem stepThread_found (done : (m.stepThread s index).run ids = (.ok out, after)) :
    ∃ t script, s.threads[index]? = some t ∧ m.program.scriptAt t.ref = .ok script := by
  unfold stepThread at done
  split at done
  · exact nomatch done
  · rename_i t found
    obtain ⟨script, mid, ran, -⟩ := Alloc.run_bind_ok.mp done
    exact ⟨t, script, found, (Alloc.run_liftM_ok.mp ran).1⟩

theorem stepThread_performed (done : (m.stepThread s index).run ids = (.ok out, after)) :
    ∃ t script, s.threads[index]? = some t ∧ m.program.scriptAt t.ref = .ok script ∧
      m.Performed s index script.body (script.moves t) ids out after := by
  obtain ⟨t, script, found, hscript⟩ := stepThread_found done
  rw [stepThread_eq found hscript] at done
  exact ⟨t, script, found, hscript, makeAll_performed done⟩

theorem stepThread_succeeds {t : Thread} {script : Script} (found : s.threads[index]? = some t)
    (hscript : m.program.scriptAt t.ref = .ok script)
    (can : m.CanPerform s index script.body (script.moves t) ids) :
    ∃ out after, (m.stepThread s index).run ids = (.ok out, after) := by
  rw [stepThread_eq found hscript]
  exact makeAll_succeeds can

end Performed
end Scheduler
end ActorAnalysis
