import ActorAnalysis.Proofs.Run.Trace
import ActorAnalysis.Proofs.Stack.Layers
import ActorAnalysis.Proofs.Stack.Scheduling
import ActorAnalysis.Settings

namespace ActorAnalysis

namespace Settings

def Sound (ids : Ids) (o : DefaultState) : Prop :=
  o.inner.Numbered ids ∧ o.inner.inner.Possible ids

/-- A state of the stack stands for the executions that its scheduling state stands for. -/
def Stands (o : DefaultState) (c : Scheduled Valuation × Ids) : Prop :=
  Scheduler.Covers Scheduled.Described o.inner.inner c

def Apart (o r : DefaultState) : Prop := o.inner.Apart r.inner

variable (settings : Settings) (key : List Thread → PartitionKey) (program : Program)

theorem target_eq (o : DefaultState) :
    (settings.analysis key program).target o = o.inner.inner.violated := by
  refine SortedSet.ext fun p => ?_
  show p ∈ o.inner.inner.violated.union ∅ ↔ _
  rw [SortedSet.mem_union, or_iff_left (SortedSet.not_mem_empty p)]

theorem sound_invariant : (settings.analysis key program).Invariant program True True Sound := by
  have scheduled := Scheduled.possible_invariant program settings.schedule key
    settings.data True True
  have nodes := Node.numbered_invariant settings.graph (Scheduled.analysis program
    settings.schedule key (DataState.analysis settings.data)) program True True
  exact (Timed.lifts settings.time _).invariant
    (nodes.and ((Node.lifts settings.graph _).invariant scheduled))

theorem sound_separates : (settings.analysis key program).Separates Sound Apart := by
  have nodes := Node.separates settings.graph (Scheduled.analysis program
    settings.schedule key (DataState.analysis settings.data))
  have timed := (Timed.lifts settings.time _).separates nodes
  exact ⟨fun h done => timed.succ h.1 done, fun done => timed.distinct done,
    fun h => timed.merge h.1, timed.widen⟩

theorem sound_covering :
    (settings.analysis key program).Covering program program.executions Sound Apart Stands := by
  have scheduled := Scheduled.covering program settings.schedule key settings.data
  have nodes := (Node.lifts settings.graph _).covering scheduled
    (fun ids (n : Node (Scheduled DataState)) (h : n.Numbered ids ∧ n.inner.Possible ids) => h.2.1)
    (fun _ _ new stop => ⟨Node.stop_of_apart new stop, fun _ _ => trivial⟩)
  exact (Timed.lifts settings.time _).covering nodes (fun _ _ h => h)
    (fun _ _ new stop => ⟨stop, new⟩)

/-- Only a state that is merged of a given one, or that has its threads, can cover it. -/
theorem stop_of_new {o : DefaultState} {l : List DefaultState}
    (new : ∀ r ∈ l, o.inner.id ∉ r.inner.mergeOf ∧
      r.inner.inner.threads ≠ o.inner.inner.threads) :
    (settings.analysis key program).stop o l = false := by
  refine Bool.or_eq_false_iff.mpr ⟨List.any_eq_false.mpr fun n hn => ?_, ?_⟩
  · obtain ⟨r, hr, rfl⟩ := List.mem_map.mp hn
    simpa using (new r hr).1
  · have nobody : ((l.map Timed.inner).map Node.inner).filter
        (fun s => decide (s.threads = o.inner.inner.threads)) = [] := by
      refine List.filter_eq_nil_iff.mpr fun s hs => ?_
      obtain ⟨n, hn, rfl⟩ := List.mem_map.mp hs
      obtain ⟨r, hr, rfl⟩ := List.mem_map.mp hn
      simpa using (new r hr).2
    show (!(List.map Scheduled.data (List.filter _ _)).isEmpty && _) = false
    rw [nobody]
    rfl

end Settings

namespace Alarm

def property : Property := ⟨"alarm", by decide⟩

/-- What a program starts with whose one script asserts something else. -/
def vars : SortedMap String Int64 := (∅ : SortedMap String Int64).insert "x" 1

def program : Program where
  actors := [⟨"a", [⟨0, .bootstrap, .sequence 0 "main"
    [.assert (.eq (.var "x") (.const 2)) property]⟩], []⟩]
  vars := vars
  distinct := by decide

def running : Thread := .start 0 "a" 0 0

def failed : Thread :=
  { running with status := .failed, failedFor := (∅ : SortedSet Property).insert property }

def before {D : Type} (d : D) : Scheduled D := .start [running] d

def after {D : Type} (d : D) : Scheduled D :=
  ⟨[failed], .singleton 0, (∅ : SortedSet Property).insert property, d⟩

theorem violation : ∃ c, program.executions.Reaches c ∧ property ∈ c.1.violated := by
  have agrees (x : String) (v : Int64) (bound : vars.get? x = some v) : (1 : Int64) = v := by
    simp [vars] at bound
    exact bound.2
  have start : program.executions.Reaches (before fun _ => 1, ⟨1, 0⟩) :=
    .start ⟨[running], fun _ => 1, rfl, agrees, rfl⟩
  have step : program.executions.next (before fun _ => 1, ⟨1, 0⟩) (after fun _ => 1, ⟨1, 0⟩) :=
    ⟨0, [after fun _ => 1], ⟨[0], rfl, List.mem_cons_self⟩, rfl, List.mem_cons_self⟩
  exact ⟨_, .next start step, by decide⟩

def keys (s : Scheduled DataState) : SortedSet PartitionKey :=
  (Scheduled.analysis program Settings.default.schedule List.length
    (DataState.analysis Settings.default.data)).keys s

def root : Settings.DefaultState :=
  ⟨[], 0, ∅, .singleton 0, before (.known vars), keys (before (.known vars))⟩

def leaf : Settings.DefaultState :=
  ⟨[1], 1, .singleton 0, .singleton 1, after (.known vars), keys (after (.known vars))⟩

abbrev stack : Analysis Settings.DefaultState := Settings.default.analysis List.length program

theorem stop_leaf {l : List Settings.DefaultState} (only : ∀ r ∈ l, r = root) :
    stack.stop leaf l = false := by
  refine Settings.stop_of_new Settings.default List.length program fun r hr => ?_
  rw [only r hr]
  decide

def seeded : Space Settings.DefaultState :=
  (⟨⟨1, 1⟩, ∅, ∅⟩ : Space Settings.DefaultState).add root (stack.keys root)

theorem valid_seeded : seeded.Valid := (Space.valid_empty _).add root (stack.keys root)

theorem queue_seeded : seeded.frontier.queue = [root] :=
  Analysis.queue_add (Space.valid_empty _) rfl (stack.keys root)

theorem seed_on : ∃ count, (stack.seed program).on ⟨.start, ∅, ∅⟩ = (.ok count, seeded) :=
  Analysis.seed_one (show (stack.initial program).run .start = (.ok [root], ⟨1, 1⟩) from rfl)

theorem new_leaf (l : List Settings.DefaultState) (inside : ∀ r ∈ l, r ∈ seeded.reached.toList) :
    stack.stop leaf l = false := by
  refine stop_leaf fun r hr => ?_
  have reached := inside r hr
  unfold seeded at reached
  rw [Space.mem_reached_add (Space.valid_empty _)] at reached
  simpa [Reached.toList_empty] using reached

theorem completes : ∃ statistics space, (do
    let _ ← stack.seed program
    stack.run Settings.default.run 3 : Explore Settings.DefaultState _).on ⟨.start, ∅, ∅⟩ =
      (.ok (some ⟨.completed, statistics⟩), space) ∧ leaf ∈ space.reached.toList := by
  obtain ⟨count, starts⟩ := seed_on
  obtain ⟨statistics, space, ends, found⟩ := Analysis.runFrom_chain Settings.default.run 0 {}
    valid_seeded queue_seeded rfl rfl rfl rfl rfl new_leaf rfl
  refine ⟨statistics, space, ?_, found⟩
  rw [Explore.on_bind, starts]
  exact ends

end Alarm

namespace Settings

variable (settings : Settings) (key : List Thread → PartitionKey) (program : Program)

/-- A completed run has found every property that an execution violates. -/
theorem completed_run_finds_every_violation {config : RunConfig} {fuel : Nat} {ids : Ids}
    {statistics : Statistics} {space : Space DefaultState}
    (completed : (do
      let _ ← (settings.analysis key program).seed program
      (settings.analysis key program).run config fuel : Explore DefaultState _).on ⟨ids, ∅, ∅⟩ =
        (.ok (some ⟨.completed, statistics⟩), space))
    {c : Scheduled Valuation × Ids} (reaches : program.executions.Reaches c) {p : Property}
    (violated : p ∈ c.1.violated) :
    p ∈ (settings.analysis key program).violatedProperties space.reached := by
  have keeps := settings.sound_invariant key program
  have covering := settings.sound_covering key program
  have explored := (covering.seed keeps ids).bind fun _ =>
    covering.run keeps (settings.sound_separates key program) config fuel
  obtain ⟨accounts, exhausted⟩ := explored.ok rfl completed
  exact covering.complete accounts exhausted reaches violated

theorem alarm_is_found : ∃ statistics space, (do
    let _ ← Alarm.stack.seed Alarm.program
    Alarm.stack.run default.run 3 : Explore DefaultState _).on
      ⟨.start, ∅, ∅⟩ = (.ok (some ⟨.completed, statistics⟩), space) ∧
    Alarm.property ∈ Alarm.stack.violatedProperties space.reached := by
  obtain ⟨statistics, space, completed, -⟩ := Alarm.completes
  obtain ⟨c, reaches, violated⟩ := Alarm.violation
  exact ⟨statistics, space, completed, completed_run_finds_every_violation default List.length
    Alarm.program completed reaches violated⟩

end Settings
end ActorAnalysis
