import ActorAnalysis.Proofs.Schedule.Home
import ActorAnalysis.Proofs.Stack.Soundness

/-! No false alarms. If a program reads declared variables only, these stay bound to constants, and
each step of the scheduler over constants is one over exact memories. Without merging and widening,
all that the default stack reaches is then reached by an execution of the program. -/
namespace ActorAnalysis

def Event.reads : Event → List String
  | condition cond => cond.reads
  | _ => []

def Script.reads (script : Script) : List String :=
  script.event.reads ++ script.body.transitions.flatMap fun tr => tr.op.reads

/-- The variables that the scripts of a program read, also in the conditions that trigger them. -/
def Program.reads (p : Program) : List String := p.scripts.flatMap fun script => script.2.reads

theorem Transition.reads_of_mem_moves {tr : Transition} {t : Thread} {move : Move} {op : Operation}
    (member : move ∈ tr.moves t) (guard : move.guard = some op) : op.reads = tr.op.reads := by
  obtain ⟨source, op', target⟩ := tr
  cases op' with
  | waitUntil cond | assert cond p =>
    obtain rfl | rfl : move = _ ∨ move = _ := by simpa [moves] using member
    · cases guard
      rfl
    · cases guard
      exact cond.reads_negate
  | _ =>
    obtain rfl : move = _ := by simpa [moves] using member
    cases guard
    rfl

theorem Script.reads_of_mem_moves {script : Script} {t : Thread} {move : Move} {op : Operation}
    (member : move ∈ script.moves t) (guard : move.guard = some op) :
    ∀ x ∈ op.reads, x ∈ script.reads := by
  intro x hx
  rcases mem_moves member with ⟨cond, asleep, rfl⟩ | rfl | ⟨tr, leaves, member⟩
  · cases guard
    refine List.mem_append_left _ ?_
    rw [asleep.2]
    exact hx
  · exact nomatch guard
  · rw [Transition.reads_of_mem_moves member guard] at hx
    exact List.mem_append_right _ (List.mem_flatMap.mpr ⟨tr, (List.mem_filter.mp leaves).1, hx⟩)

theorem Program.Hands.reads {p : Program} {op : Operation} (hands : p.Hands op) :
    ∀ x ∈ op.reads, x ∈ p.reads := by
  obtain ⟨ref, script, t, found, move, member, guard⟩ := hands
  obtain ⟨e, listed, -, rfl⟩ := mem_of_scriptAt found
  intro x hx
  exact List.mem_flatMap.mpr ⟨e, listed, Script.reads_of_mem_moves member guard x hx⟩

namespace DataState

/-- The one memory that a state describes, as far as the given variables go. -/
def Pins (names : List String) (d : DataState) (σ : Valuation) : Prop :=
  d.Describes σ ∧ d.Binds names

def initially (vars : SortedMap String Int64) : Valuation := fun x => (vars.get? x).getD 0

theorem pins_initially (vars : SortedMap String Int64) :
    (known vars).Pins vars.keys (initially vars) := by
  constructor
  · intro x v bound
    simp [initially, bound]
  · intro x member
    obtain ⟨v, found⟩ := vars.get?_of_mem_keys member
    exact ⟨v, by simp [get, found]⟩

end DataState

namespace Scheduled

variable {program : Program} (declared : ∀ x ∈ program.reads, x ∈ program.vars.keys)
  (config : ScheduleConfig) (key : List Thread → PartitionKey) (data : DataConfig)
include declared

theorem mirrors_exact : Scheduler.Mirrors ⟨program, (DataState.analysis data).succFor⟩
    program.exact (DataState.Pins program.vars.keys) where
  program := rfl
  step hands pins steps steps' d' hd' := by
    cases steps
    cases steps'
    obtain ⟨binds, τ, hτ, describes⟩ :=
      pins.2.step pins.1 (fun x hx => declared x (hands.reads x hx)) hd'
    exact ⟨τ, hτ, describes, binds⟩
  total _ pins steps := by
    cases steps
    refine ⟨_, rfl, fun some => ?_⟩
    obtain ⟨τ, hτ⟩ := List.exists_mem_of_ne_nil _ some
    obtain ⟨d, hd, -⟩ := pins.1.step hτ
    exact List.ne_nil_of_mem hd

omit declared in
/-- An execution comes to the same threads up to their names, with the memory that the data pins. -/
def Realised (program : Program) (ids : Ids) (s : Scheduled DataState) : Prop :=
  s.WellFormed ids ∧
    ∃ c, program.executions.Reaches c ∧ s.Alike (DataState.Pins program.vars.keys) c.1

theorem realised_step {ids after : Ids} {s u : Scheduled DataState} {index : Nat}
    {out : List (Scheduled DataState)} (realised : Realised program ids s)
    (enabled : Scheduler.Enabled ⟨program, (DataState.analysis data).succFor⟩ s index)
    (ran : (Scheduler.stepThread ⟨program, (DataState.analysis data).succFor⟩ s index).run ids =
      (.ok out, after)) (member : u ∈ out) : Realised program after u := by
  obtain ⟨well, c, reaches, alike⟩ := realised
  have mirrors := mirrors_exact declared data
  have well' := Scheduler.wellFormed_of_reaches reaches
  obtain ⟨out', after', ran'⟩ := mirrors.stepThread_succeeds alike well well' ran
  obtain ⟨u', member', alike'⟩ := mirrors.toSimulates.stepThread alike well well' ran ran' u member
  have step : program.executions.next c (u', after') :=
    ⟨index, out', mirrors.enabled alike enabled, ran', member'⟩
  exact ⟨Scheduler.stepThread_wellFormed well (enabled.turn well) ran u member, _,
    .next reaches step, alike'⟩

theorem realised_invariant :
    (analysis program config key (DataState.analysis data)).Invariant program False False
      (Realised program) where
  grows h later := ⟨h.1.grows later, h.2⟩
  initial done s hs := by
    have well := (wellFormed_invariant program config key (DataState.analysis data) False
      False).initial done s hs
    obtain ⟨ds, ran, rfl⟩ := run_initial_ok done
    obtain ⟨rfl, -⟩ := Alloc.run_pure_ok.mp ran
    obtain rfl := List.mem_singleton.mp hs
    have pins := DataState.pins_initially program.vars
    have started := Scheduler.run_initialThreads program .start
    refine ⟨well, (_, _), .start ⟨_, _, started, pins.1, rfl⟩, ?_⟩
    exact alike_start _ _ program.scripts pins
  succ h done := Scheduler.successors_keep (fun _ _ h => h.1)
    (fun _ _ _ h later => ⟨h.1.grows later, h.2⟩)
    (fun _ _ _ _ _ h enabled ran u hu => realised_step declared data h enabled ran hu) h done
  merge := nofun
  widen := nofun

end Scheduled

namespace Settings

variable (settings : Settings) (key : List Thread → PartitionKey) (program : Program)

theorem widen_passThrough (off : settings.graph.widening = .passThrough) (o : DefaultState) :
    (settings.analysis key program).widen o = .ok o := by
  have graph (A : Analysis (Scheduled DataState)) (n : Node (Scheduled DataState)) :
      (Node.analysis settings.graph A).widen n = .ok n := by
    simp only [Node.analysis, off]
  show Except.map _ _ = _
  rw [graph]
  rfl

theorem realised_invariant (declared : ∀ x ∈ program.reads, x ∈ program.vars.keys) :
    (settings.analysis key program).Invariant program False (settings.graph.widening = .passThrough)
      (fun ids o => Scheduled.Realised program ids o.inner.inner) := by
  have plain := (Timed.lifts settings.time _).invariant ((Node.lifts settings.graph _).invariant
    (Scheduled.realised_invariant declared settings.schedule key settings.data))
  exact {
    grows := plain.grows
    initial := plain.initial
    succ := plain.succ
    merge := plain.merge
    widen := fun off _ o _ h done => by
      rw [settings.widen_passThrough key program off o] at done
      exact Except.ok.inj done ▸ h }

/-- An execution ends with the threads of the state, up to their names, and with a memory that
agrees with it on every declared variable. -/
def Ends (program : Program) (o : DefaultState) (c : Scheduled Valuation × Ids) : Prop :=
  (∃ ρ, Set.InjOn ρ (mentioned o.inner.inner.threads) ∧
    c.1.threads = o.inner.inner.threads.map (Thread.rename ρ)) ∧
  ∀ x ∈ program.vars.keys, o.inner.inner.data.get x = .value (c.1.data x)

/-- Without merging and widening, each reached state is one that an execution ends in. -/
theorem every_reached_state_is_executed (declared : ∀ x ∈ program.reads, x ∈ program.vars.keys)
    (unmerged : settings.graph.policy = .never) {space : Space DefaultState}
    (point : (settings.analysis key program).Point program (fun config =>
      config.widenSuccessors = false ∨ settings.graph.widening = .passThrough) space) :
    (∀ o ∈ space.reached.toList, ∃ c, program.executions.Reaches c ∧ Ends program o c ∧
      c.1.violated = (settings.analysis key program).target o) ∧
    ∀ p ∈ (settings.analysis key program).violatedProperties space.reached,
      ∃ c, program.executions.Reaches c ∧ p ∈ c.1.violated := by
  have holds := (settings.realised_invariant key program declared).point
    (fun standard => nomatch unmerged.symm.trans standard)
    (fun config allowed on => allowed.resolve_left (by simp [on])) point
  have real : ∀ o ∈ space.reached.toList, ∃ c, program.executions.Reaches c ∧ Ends program o c ∧
      c.1.violated = (settings.analysis key program).target o := by
    intro o ho
    obtain ⟨well, c, reaches, alike⟩ := holds.reached o ho
    have same := alike.violated well (Scheduler.wellFormed_of_reaches reaches)
    obtain ⟨ρ, inj, renamed, describes, binds⟩ := alike
    refine ⟨c, reaches, ⟨⟨ρ, inj, renamed⟩, fun x hx => binds.get describes hx⟩, ?_⟩
    rw [same, settings.target_eq key program]
  refine ⟨real, fun p violated => ?_⟩
  obtain ⟨o, ho, violated⟩ :=
    ((settings.analysis key program).mem_violatedProperties _ p).mp violated
  obtain ⟨c, reaches, -, same⟩ := real o ho
  exact ⟨c, reaches, same ▸ violated⟩

theorem alarm_is_real : ∃ space, Alarm.stack.Point Alarm.program (fun config =>
      config.widenSuccessors = false ∨ default.graph.widening = .passThrough) space ∧
    Alarm.leaf ∈ space.reached.toList ∧ ∃ c, Alarm.program.executions.Reaches c ∧
      Ends Alarm.program Alarm.leaf c ∧ Alarm.property ∈ c.1.violated := by
  obtain ⟨statistics, space, done, found⟩ := Alarm.completes
  have point : Alarm.stack.Point Alarm.program (fun config =>
      config.widenSuccessors = false ∨ default.graph.widening = .passThrough) space :=
    .first_run (.inl rfl) done
  have real :=
    every_reached_state_is_executed default List.length Alarm.program (by decide) rfl point
  obtain ⟨c, reaches, ends, same⟩ := real.1 Alarm.leaf found
  exact ⟨space, point, found, c, reaches, ends, same ▸ by decide⟩

end Settings
end ActorAnalysis
