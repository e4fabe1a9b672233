import ActorAnalysis.Proofs.Stack.Scheduling

namespace ActorAnalysis

def Transition.wait? (tr : Transition) : Option Cond :=
  match tr.op with
  | .waitUntil cond => some cond
  | _ => none

/-- The conditions that are waited for at a location, in the order of their transitions. -/
def Script.waitsAt (script : Script) (location : Location) : List Cond :=
  (script.body.outgoing location).filterMap Transition.wait?

namespace Scheduler

variable {D : Type} {m : Scheduler D} {data : D} {t : Thread}

def MayHold (m : Scheduler D) (data : D) (cond : Cond) : Prop :=
  ∃ held, m.step data (.assume cond) = .ok held ∧ held ≠ []

theorem mayHold_iff {cond : Cond} : m.mayHold data cond = .ok true ↔ m.MayHold data cond := by
  rw [run_mayHold_ok]
  simp [MayHold]

theorem wakeCondition_eq (triggered : t.triggered = true) {script : Script}
    (found : m.program.scriptAt t.ref = .ok script) :
    m.wakeCondition t = .ok (script.waitsAt t.location).head? := by
  unfold wakeCondition Script.waitsAt
  rw [found, triggered, List.head?_filterMap]
  rfl

theorem scriptAt_of_mayStep (waiting : t.status = .waiting) (free : t.waitsFor.isEmpty = true)
    {b : Bool} (may : m.mayStep data t = .ok b) :
    ∃ script, m.program.scriptAt t.ref = .ok script := by
  cases found : m.program.scriptAt t.ref with
  | ok script => exact ⟨script, rfl⟩
  | error e =>
    have fails : m.mayStep data t = .error e := by
      unfold mayStep wakeCondition
      rw [waiting, free, found]
      rfl
    rw [fails] at may
    exact nomatch may

theorem mayStep_iff (triggered : t.triggered = true) (waiting : t.status = .waiting)
    (free : t.waitsFor.isEmpty = true) {script : Script}
    (found : m.program.scriptAt t.ref = .ok script) :
    m.mayStep data t = .ok true ↔
      ∃ cond, (script.waitsAt t.location).head? = some cond ∧ m.MayHold data cond := by
  have wake := wakeCondition_eq (m := m) triggered found
  constructor
  · intro may
    rcases mayStep_true may with running | ⟨-, -, cond, woken, holds⟩
    · rw [waiting] at running
      exact nomatch running
    · rw [wake] at woken
      exact ⟨cond, Except.ok.inj woken, mayHold_iff.mp holds⟩
  · rintro ⟨cond, first, holds⟩
    unfold mayStep
    rw [waiting, free, wake, first]
    exact mayHold_iff.mpr holds

end Scheduler

namespace Choice

def body : Relation where
  id := 0
  name := "choose"
  entry := .singleton 0
  exit := .singleton 1
  transitions := [⟨0, .waitUntil (.eq (.var "x") (.const 1)), 1⟩,
    ⟨0, .waitUntil (.eq (.var "x") (.const 2)), 1⟩]

def vars : SortedMap String Int64 := (∅ : SortedMap String Int64).insert "x" 2

def actors : List Actor := [⟨"a", [⟨0, .bootstrap, body⟩], []⟩]

theorem distinct : (relationIds actors).Nodup := by decide

def program : Program := ⟨actors, vars, distinct⟩

abbrev data : DataAnalysis DataState := DataState.analysis ⟨true, .all⟩

abbrev scheduler : Scheduler DataState := ⟨program, data.succFor⟩

abbrev analysis : Analysis (Scheduled DataState) :=
  Scheduled.analysis program ⟨false, 1000⟩ (fun _ => 0) data

def before : Scheduled DataState := .start [.start 0 "a" 0 0] (.known vars)

def blocked : Scheduled DataState :=
  ⟨[(Thread.start 0 "a" 0 0).withStatus .waiting], .singleton 0, ∅, .known vars⟩

def passed : Scheduled DataState :=
  ⟨[(Thread.start 0 "a" 0 1).withStatus .done], .singleton 0, ∅, .known vars⟩

theorem reaches_blocked : analysis.Reachable program ⟨1, 0⟩ blocked := by
  have start : (analysis.initial program).run .start = (.ok [before], ⟨1, 0⟩) := rfl
  have step : (analysis.succ before).run ⟨1, 0⟩ = (.ok [blocked, passed], ⟨1, 0⟩) := rfl
  exact .succ (.initial start List.mem_cons_self) step List.mem_cons_self

theorem second_may_hold :
    scheduler.MayHold (.known vars) (.eq (.var "x") (.const 2)) :=
  ⟨[.known vars], rfl, List.cons_ne_nil _ _⟩

end Choice

namespace Scheduler

variable {D : Type} {m : Scheduler D} {t : Thread}

/-- A waiting thread is eligible if and only if the first condition that it waits for may hold. It
is missed exactly if that one cannot hold while a later one may. -/
theorem only_first_wait_wakes {s : Scheduled D} {index : Nat} {l : List Nat}
    (eligible : m.eligible s = .ok l) (calm : s.atomicThread? = none)
    (found : s.threads[index]? = some t) (triggered : t.triggered = true)
    (waiting : t.status = .waiting) (free : t.waitsFor.isEmpty = true) :
    ∃ script, m.program.scriptAt t.ref = .ok script ∧
      (index ∈ l ↔
        ∃ cond, (script.waitsAt t.location).head? = some cond ∧ m.MayHold s.data cond) ∧
      ((index ∉ l ∧ ∃ cond ∈ script.waitsAt t.location, m.MayHold s.data cond) ↔
        ∃ first rest, script.waitsAt t.location = first :: rest ∧ ¬m.MayHold s.data first ∧
          ∃ cond ∈ rest, m.MayHold s.data cond) := by
  obtain ⟨b, may⟩ := mayStep_of_eligible eligible calm (List.mem_of_getElem? found)
  obtain ⟨script, scriptIs⟩ := scriptAt_of_mayStep waiting free may
  have first : index ∈ l ↔
      ∃ cond, (script.waitsAt t.location).head? = some cond ∧ m.MayHold s.data cond := by
    rw [mem_eligible eligible, ← mayStep_iff triggered waiting free scriptIs]
    simp [calm, found]
  refine ⟨script, scriptIs, first, ?_⟩
  rw [first]
  cases script.waitsAt t.location with
  | nil => simp
  | cons cond rest => grind

/-- The thread is missed at its second wait. -/
theorem second_wait_is_missed : ∃ script,
    Choice.program.scriptAt ⟨"a", 0⟩ = .ok script ∧
      ∃ first rest, script.waitsAt 0 = first :: rest ∧
        ¬Choice.scheduler.MayHold Choice.blocked.data first ∧
          ∃ cond ∈ rest, Choice.scheduler.MayHold Choice.blocked.data cond := by
  have nobody : Choice.scheduler.eligible Choice.blocked = .ok [] := rfl
  have found : Choice.blocked.threads[0]? =
      some ((Thread.start 0 "a" 0 0).withStatus .waiting) := rfl
  obtain ⟨script, scriptIs, -, missed⟩ := only_first_wait_wakes nobody rfl found rfl rfl rfl
  refine ⟨script, scriptIs, missed.mp ⟨List.not_mem_nil, _, ?_, Choice.second_may_hold⟩⟩
  cases scriptIs
  exact List.mem_cons_of_mem _ List.mem_cons_self

/-- No thread of the blocked state is eligible, although the second wait may go on. -/
theorem later_wait_is_lost : Choice.analysis.Reachable Choice.program ⟨1, 0⟩ Choice.blocked ∧
    Choice.blocked.atomicThread? = none ∧ Choice.scheduler.eligible Choice.blocked = .ok [] ∧
    ∃ t ∈ Choice.blocked.threads,
      t.triggered = true ∧ t.status = .waiting ∧ t.waitsFor.isEmpty = true ∧
        ∃ script, Choice.program.scriptAt t.ref = .ok script ∧
          ∃ cond ∈ script.waitsAt t.location, Choice.scheduler.MayHold Choice.blocked.data cond :=
  ⟨Choice.reaches_blocked, rfl, rfl, _, List.mem_cons_self, rfl, rfl, rfl,
    ⟨0, .bootstrap, Choice.body⟩, rfl, _, List.mem_cons_of_mem _ List.mem_cons_self,
    Choice.second_may_hold⟩

end Scheduler
end ActorAnalysis
