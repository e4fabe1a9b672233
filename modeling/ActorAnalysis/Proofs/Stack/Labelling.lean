import ActorAnalysis.Proofs.Schedule.Effects
import ActorAnalysis.Proofs.Stack.Scheduling

/-! Labels of steps. A label is read off the locations before and after: it holds what leads from
the one to the other, and only if there is nothing, what may hold a thread up. So a thread that is
held up at a location with a way back to itself seems to have gone that way. -/
namespace ActorAnalysis

namespace Relation

variable {r : Relation}

theorem mem_outgoing {loc : Location} {tr : Transition} :
    tr ∈ r.outgoing loc ↔ tr ∈ r.transitions ∧ tr.source = loc := by
  simp [outgoing]

theorem mem_between {a b : Location} {op : Operation} :
    op ∈ r.between a b ↔ ∃ tr ∈ r.outgoing a, tr.target = b ∧ tr.op = op := by
  simp [between, mem_outgoing, and_assoc]

end Relation

theorem Transition.location_of_mem_moves {tr : Transition} {t : Thread} {move : Move}
    (member : move ∈ tr.moves t) :
    move.thread.location = tr.target ∨ move.thread.location = t.location ∧ tr.op.Stalls := by
  rcases mem_moves member with ⟨guard, sends, -, rfl⟩ | ⟨cond, waits, rfl⟩ |
    ⟨cond, property, asserts, rfl⟩
  · exact .inl rfl
  · exact .inr ⟨rfl, .inl ⟨cond, waits⟩⟩
  · exact .inr ⟨rfl, .inr ⟨cond, property, asserts⟩⟩

theorem Scheduler.Takes.place {D : Type} {m : Scheduler D} {index : Nat} {tr : Transition}
    {c e : Scheduled D × Ids} (takes : m.Takes index tr c e) :
    ∃ t script b, c.1.threads[index]? = some t ∧ m.program.scriptAt t.ref = .ok script ∧
      tr ∈ script.body.outgoing t.location ∧ e.1.threads[index]? = some b ∧ b.ref = t.ref ∧
      (b.location = tr.target ∨ b.location = t.location ∧ tr.op.Stalls) ∧
      e.1.stepped = .singleton index := by
  obtain ⟨t, script, move, d, found, hscript, outgoing, member, gave⟩ := takes.performed
  obtain ⟨b, hb⟩ := exists_getElem?_of_length (perform_spares gave).length.symm found
  obtain ⟨-, ref, -, location⟩ := perform_keeps (Transition.moves_keep member) gave hb
  refine ⟨t, script, b, found, hscript, outgoing, hb, ref, ?_, ?_⟩
  · rw [location]
    exact Transition.location_of_mem_moves member
  · obtain ⟨first, last, -, -, done⟩ := gave
    obtain ⟨threads, -, settled⟩ := run_perform_ok.mp done
    rw [settled]
    rfl

namespace Scheduled

variable {D : Type} {program : Program} {s u : Scheduled D} {ids after : Ids} {index : Nat}

theorem mem_executed {t b : Thread} {script : Script} (found : s.threads[index]? = some t)
    (known : program.scriptAt t.ref = .ok script) (hb : u.threads[index]? = some b)
    (ref : b.ref = t.ref) (op : Operation) :
    op ∈ executed program s u index ↔
      op ∈ script.body.between t.location b.location ∨
        script.body.between t.location b.location = [] ∧ t.location = b.location ∧ op.Stalls ∧
          ∃ tr ∈ script.body.outgoing t.location, tr.op = op := by
  have scriptIs : program.script? b.actor b.script = some script :=
    Program.scriptAt_eq_ok.mp (ref ▸ known)
  unfold executed
  simp only [found, hb, scriptIs]
  split
  · rename_i stays
    obtain ⟨none, same⟩ := Bool.and_eq_true_iff.mp stays
    rw [List.mem_filter, List.mem_map, List.isEmpty_iff.mp none]
    cases op <;> simp [Operation.Stalls, of_decide_eq_true same]
  · rename_i moves
    simp only [Bool.and_eq_true, List.isEmpty_iff, decide_eq_true_eq, not_and] at moves
    constructor
    · exact .inl
    · rintro (taken | ⟨none, same, -⟩)
      · exact taken
      · exact absurd same (moves none)

/-- A transition ends at its target, unless its operation holds the thread up where it stands. Its
operation is in the label of the step, but for one case: the thread is held up at a location that
other transitions lead back to, and none of them has the same operation. -/
theorem label_misses_operation_beside_loop (config : ScheduleConfig)
    (key : List Thread → PartitionKey) (inner : DataAnalysis D) {tr : Transition}
    (takes : Scheduler.Takes ⟨program, inner.succFor⟩ index tr (s, ids) (u, after)) :
    ∃ t script b, s.threads[index]? = some t ∧ program.scriptAt t.ref = .ok script ∧
      tr ∈ script.body.outgoing t.location ∧ u.threads[index]? = some b ∧
      (b.location = tr.target ∨ b.location = t.location ∧ tr.op.Stalls) ∧
      (tr.op ∉ (analysis program config key inner).label s u ↔
        b.location ≠ tr.target ∧ script.body.between t.location t.location ≠ [] ∧
          tr.op ∉ script.body.between t.location t.location) := by
  obtain ⟨t, script, b, found, known, outgoing, hb, ref, place, stepped⟩ := takes.place
  refine ⟨t, script, b, found, known, outgoing, hb, place, ?_⟩
  have label : (analysis program config key inner).label s u = executed program s u index := by
    show u.stepped.toList.flatMap (executed program s u) = _
    rw [stepped]
    exact List.flatMap_singleton _ _
  rw [label, mem_executed found known hb ref]
  by_cases moved : b.location = tr.target
  · have taken : tr.op ∈ script.body.between t.location b.location :=
      Relation.mem_between.mpr ⟨tr, outgoing, moved.symm, rfl⟩
    exact ⟨fun missing => absurd (.inl taken) missing, fun h => absurd moved h.1⟩
  · obtain ⟨stays, stalls⟩ := place.resolve_left moved
    rw [stays] at moved ⊢
    constructor
    · intro missing
      obtain ⟨absent, rest⟩ := not_or.mp missing
      exact ⟨moved, fun none => rest ⟨none, rfl, stalls, tr, outgoing, rfl⟩, absent⟩
    · rintro ⟨-, loop, absent⟩ (taken | ⟨none, -⟩)
      · exact absent taken
      · exact loop none

end Scheduled

namespace Poll

def wait : Transition := ⟨0, .waitUntil (.eq (.var "x") (.const 1)), 1⟩

def body : Relation where
  id := 0
  name := "poll"
  entry := .singleton 0
  exit := .singleton 1
  transitions := [⟨0, .skip, 0⟩, wait]

def vars : SortedMap String Int64 := (∅ : SortedMap String Int64).insert "x" 0

def actors : List Actor := [⟨"a", [⟨0, .bootstrap, body⟩], []⟩]

theorem distinct : (relationIds actors).Nodup := by decide

def program : Program := ⟨actors, vars, distinct⟩

abbrev data : DataAnalysis DataState := DataState.analysis ⟨true, .all⟩

abbrev scheduler : Scheduler DataState := ⟨program, data.succFor⟩

abbrev analysis : Analysis (Scheduled DataState) :=
  Scheduled.analysis program ⟨false, 1000⟩ (fun _ => 0) data

def before : Scheduled DataState := .start [.start 0 "a" 0 0] (.known vars)

def looped : Scheduled DataState := ⟨[.start 0 "a" 0 0], .singleton 0, ∅, .known vars⟩

def blocked : Scheduled DataState :=
  ⟨[(Thread.start 0 "a" 0 0).withStatus .waiting], .singleton 0, ∅, .known vars⟩

theorem takes_wait : scheduler.Takes 0 wait (before, ⟨1, 0⟩) (blocked, ⟨1, 0⟩) := by
  have ran : (scheduler.stepTransition before 0 (.start 0 "a" 0 0) body wait).run ⟨1, 0⟩ =
      (.ok [blocked], ⟨1, 0⟩) := rfl
  exact ⟨.start 0 "a" 0 0, ⟨0, .bootstrap, body⟩, rfl, rfl, by decide, [blocked], .of_run ran,
    List.mem_cons_self⟩

end Poll

/-- The step is labelled with the loop that the thread has not gone. -/
theorem Scheduled.wait_is_labelled_as_loop :
    Poll.scheduler.Takes 0 Poll.wait (Poll.before, ⟨1, 0⟩) (Poll.blocked, ⟨1, 0⟩) ∧
      ∃ t script b, Poll.before.threads[0]? = some t ∧ Poll.program.scriptAt t.ref = .ok script ∧
        Poll.blocked.threads[0]? = some b ∧
        Poll.wait.op ∉ Poll.analysis.label Poll.before Poll.blocked ∧
        b.location ≠ Poll.wait.target ∧ script.body.between t.location t.location ≠ [] ∧
        Poll.wait.op ∉ script.body.between t.location t.location := by
  have unlabelled : Poll.wait.op ∉ Poll.analysis.label Poll.before Poll.blocked := by decide
  obtain ⟨t, script, b, found, known, -, hb, -, missed⟩ :=
    label_misses_operation_beside_loop _ _ _ Poll.takes_wait
  exact ⟨Poll.takes_wait, t, script, b, found, known, hb, unlabelled, missed.mp unlabelled⟩

/-- The thread is blocked in a wait, which its label does not name. -/
theorem Scheduled.blocking_wait_is_not_labelled :
    Poll.analysis.Reachable Poll.program ⟨1, 0⟩ Poll.before ∧
      (Poll.analysis.succ Poll.before).run ⟨1, 0⟩ = (.ok [Poll.looped, Poll.blocked], ⟨1, 0⟩) ∧
      Poll.scheduler.Takes 0 Poll.wait (Poll.before, ⟨1, 0⟩) (Poll.blocked, ⟨1, 0⟩) ∧
      Poll.analysis.label Poll.before Poll.blocked = [.skip] ∧
      Poll.wait.op ∉ Poll.analysis.label Poll.before Poll.blocked := by
  have start : (Poll.analysis.initial Poll.program).run .start = (.ok [Poll.before], ⟨1, 0⟩) := rfl
  exact ⟨.initial start List.mem_cons_self, rfl, Poll.takes_wait, rfl, by decide⟩

end ActorAnalysis
