import ActorAnalysis.Proofs.Bounded
import ActorAnalysis.Proofs.Run.Targets
import ActorAnalysis.Proofs.Stack.Soundness

namespace ActorAnalysis

namespace Settings

variable (settings : Settings) (key : List Thread → PartitionKey) (program : Program)

def Quiet (o : DefaultState) : Prop := o.inner.inner.violated.isEmpty = true

theorem initial_quiet {ids after : Ids} {out : List DefaultState}
    (done : ((settings.analysis key program).initial program).run ids = (.ok out, after)) :
    ∀ o ∈ out, Quiet o := by
  intro o ho
  obtain ⟨_, nodes, -⟩ := (Timed.lifts settings.time _).initial done
  obtain ⟨_, states, -⟩ := (Node.lifts settings.graph _).initial nodes
  obtain ⟨data, -, started⟩ := Scheduled.run_initial_ok states
  have member : o.inner.inner ∈ (out.map Timed.inner).map Node.inner :=
    List.mem_map_of_mem (List.mem_map_of_mem ho)
  rw [started] at member
  obtain ⟨d, -, same⟩ := List.mem_map.mp member
  unfold Quiet
  rw [← same]
  rfl

theorem overlooks_quiet : (settings.analysis key program).Overlooks Quiet where
  quiet none := by
    rw [settings.target_eq key program] at none
    exact none
  merge _ _ _ _ _ _ hs ht _ done := by
    obtain ⟨_, nodes, -⟩ := (Timed.lifts settings.time _).merge done
    obtain ⟨_, states, -⟩ := (Node.lifts settings.graph _).merge nodes
    obtain ⟨-, d, -, same⟩ := Scheduled.run_merge_ok states
    unfold Quiet
    rw [same, SortedSet.isEmpty_iff]
    intro p violated
    rcases SortedSet.mem_union.mp violated with violated | violated
    · exact SortedSet.isEmpty_iff.mp hs p violated
    · exact SortedSet.isEmpty_iff.mp ht p violated

/-- What holds between the rounds of a check. The states in `targets` are reported. -/
def Checked (refinements : Nat) (targets : List DefaultState) (space : Space DefaultState) : Prop :=
  refinements = 0 ∧ space.Accounts program.executions Sound Apart Stands [] ∧
    space.Reported (settings.analysis key program) Quiet targets

theorem Checked.possible {settings : Settings} {key : List Thread → PartitionKey}
    {program : Program} {refinements : Nat} {targets : List DefaultState}
    {space : Space DefaultState}
    (checked : settings.Checked key program refinements targets space) :
    ∀ o ∈ space.reached.toList, o.inner.inner.data.isInfeasible = false :=
  fun o ho => (checked.2.1.holds.reached o ho).2.2

theorem run_checked (config : RunConfig) (halts : config.stopOnFirstTarget = true)
    (fuel refinements : Nat) :
    Explore.Contract (settings.Checked key program refinements [])
      ((settings.analysis key program).run config fuel)
      (Analysis.Ended (settings.Checked key program refinements [])
        (settings.Checked key program refinements)) (fun _ => True) := by
  rintro space ⟨rfl, explored, clean⟩
  have accounts := (settings.sound_covering key program).run (settings.sound_invariant key program)
    (settings.sound_separates key program) config fuel
  have reported := (settings.overlooks_quiet key program).run halts fuel
  have explored := accounts space explored
  have clean := reported space clean
  cases ran : ((settings.analysis key program).run config fuel).on space with | mk r after =>
  rw [ran] at explored clean
  cases r with
  | error => trivial
  | ok outcome =>
    exact explored.map₂ (fun _ h h' => ⟨rfl, h, h'⟩) (fun _ _ h h' => ⟨rfl, h, h'⟩) clean

/-- The first reported violation is taken for genuine. -/
theorem examine_checked (refinements : Nat) (targets : List DefaultState) (reports : targets ≠ []) :
    Explore.Contract (settings.Checked key program refinements targets)
      ((settings.analysis key program).examine refinements targets) (fun r space => match r with
        | (none, k) => settings.Checked key program k [] space
        | (some o, k) => settings.Checked key program k targets space ∧ o ∈ targets)
      (fun _ => True) := by
  intro space checked
  cases targets with
  | nil => exact absurd rfl reports
  | cons o rest =>
    obtain ⟨-, reached, -⟩ := checked.2.2.waiting o List.mem_cons_self
    have feasible : (settings.analysis key program).refiner.feasible o = .ok true := by
      show Except.ok (AbstractLattice.feasible o.inner.inner.data) = _
      rw [DataState.feasible_eq, checked.possible o reached]
      rfl
    unfold Analysis.examine
    rw [Explore.on_bind, feasible]
    exact ⟨checked, List.mem_cons_self⟩

theorem check_checked (config : RunConfig) (bounded : BoundedConfig) (fuel : Nat) (ids : Ids) :
    Explore.Contract (fun space => space = ⟨ids, ∅, ∅⟩) (do
        let _ ← (settings.analysis key program).seed program
        (settings.analysis key program).check config bounded fuel)
      ((settings.analysis key program).Judged (fun n => settings.Checked key program n [])
        (fun n o space => ∃ targets, settings.Checked key program n targets space ∧ o ∈ targets)
        bounded.maxRounds) (fun _ => True) := by
  have accounts := (settings.sound_covering key program).seed
    (settings.sound_invariant key program) ids
  have quiet : ∀ out after, ((settings.analysis key program).initial program).run ids =
      (.ok out, after) → ∀ o ∈ out, Quiet o := fun _ _ ran => settings.initial_quiet key program ran
  have reported := Analysis.seed_reported quiet
  refine (accounts.and reported).bind fun _ => ?_
  have rounds := Analysis.checkRounds_contract (fun n => settings.Checked key program n [])
    (settings.Checked key program)
    (fun n o space => ∃ targets, settings.Checked key program n targets space ∧ o ∈ targets)
    (settings.run_checked key program (Analysis.halting bounded config) rfl fuel)
    (fun n targets reports => (settings.examine_checked key program n targets reports).weaken ?_)
    bounded.maxRounds ⟨0, 0, {}⟩
  · rw [Nat.zero_add] at rounds
    exact fun space h => rounds space ⟨rfl, h⟩
  · rintro ⟨found, k⟩ space h
    cases found with
    | none => exact h
    | some o => exact ⟨targets, h⟩

end Settings

theorem Alarm.reports : ∃ report space, (do
    let _ ← stack.seed program
    stack.check Settings.default.run ⟨1, none⟩ 1 :
      Explore Settings.DefaultState _).on ⟨.start, ∅, ∅⟩ = (.ok (some report), space) ∧
    report.verdict = .violation leaf (.singleton property) := by
  obtain ⟨count, starts⟩ := seed_on
  obtain ⟨statistics, space, ends, -⟩ := Analysis.runFrom_target
    (Analysis.halting ⟨1, none⟩ Settings.default.run) 0 {} valid_seeded queue_seeded
    rfl rfl rfl rfl rfl new_leaf (by decide)
  have waits : seeded.frontier.isEmpty = false := by simp [Frontier.isEmpty, queue_seeded]
  have genuine : stack.refiner.feasible leaf = .ok true := rfl
  have violates : stack.target leaf = .singleton property := rfl
  have checked := Analysis.checkRounds_found 0 ⟨0, 0, {}⟩ waits ends genuine
  rw [violates] at checked
  refine ⟨_, space, Eq.trans ?_ checked, rfl⟩
  rw [Explore.on_bind, starts, Explore.next_ok, Analysis.check]

namespace Settings

variable (settings : Settings) (key : List Thread → PartitionKey) (program : Program)

/-- What a check answers is right: it has refined nothing, since no infeasible data state is
reached; safe means that no execution violates anything, and a violation is a feasible state in both
sets. -/
theorem check_answers_right {config : RunConfig} {bounded : BoundedConfig} {fuel : Nat} {ids : Ids}
    {report : BoundedReport DefaultState} {space : Space DefaultState} (done : (do
      let _ ← (settings.analysis key program).seed program
      (settings.analysis key program).check config bounded fuel : Explore DefaultState _).on
        ⟨ids, ∅, ∅⟩ = (.ok (some report), space)) :
    report.refinements = 0 ∧
    (∀ o ∈ space.reached.toList, o.inner.inner.data.isInfeasible = false) ∧
    match report.verdict with
    | .safe => (∀ c, program.executions.Reaches c → ∀ p, p ∉ c.1.violated) ∧
        (settings.analysis key program).violatedProperties space.reached = ∅
    | .boundReached => space.frontier.queue ≠ [] ∧ report.rounds = bounded.maxRounds
    | .violation o properties => o ∈ space.frontier.queue ∧ o ∈ space.reached.toList ∧
        properties = (settings.analysis key program).target o ∧ properties.isEmpty = false ∧
        o.inner.inner.data.isInfeasible = false := by
  have judged := (settings.check_checked key program config bounded fuel ids).ok rfl done
  obtain ⟨verdict, rounds, refinements, statistics⟩ := report
  cases verdict with
  | safe =>
    obtain ⟨checked, exhausted⟩ := judged
    have reported := checked.2.2
    have clean : (settings.analysis key program).violatedProperties space.reached = ∅ := by
      refine SortedSet.ext fun p => ⟨fun found => ?_, fun found => absurd found (by simp)⟩
      obtain ⟨o, ho, violated⟩ :=
        ((settings.analysis key program).mem_violatedProperties _ p).mp found
      rw [settings.target_eq key program] at violated
      have quiet := (reported.reached o ho).resolve_right List.not_mem_nil
      exact absurd violated (SortedSet.isEmpty_iff.mp quiet p)
    refine ⟨checked.1, checked.possible, fun c reaches p violated => ?_, clean⟩
    have found :=
      (settings.sound_covering key program).complete checked.2.1 exhausted reaches violated
    rw [clean] at found
    exact SortedSet.not_mem_empty p found
  | boundReached =>
    obtain ⟨checked, waits, same⟩ := judged
    exact ⟨checked.1, checked.possible, waits, same⟩
  | violation o properties =>
    obtain ⟨⟨targets, checked, member⟩, rfl⟩ := judged
    obtain ⟨waits, reached, violates⟩ := checked.2.2.waiting o member
    exact ⟨checked.1, checked.possible, waits, reached, rfl, violates, checked.possible o reached⟩

theorem alarm_is_reported : ∃ report space, (do
    let _ ← Alarm.stack.seed Alarm.program
    Alarm.stack.check default.run ⟨1, none⟩ 1 :
      Explore DefaultState _).on ⟨.start, ∅, ∅⟩ = (.ok (some report), space) ∧
    report.verdict = .violation Alarm.leaf (.singleton Alarm.property) ∧
    report.refinements = 0 ∧ Alarm.leaf ∈ space.frontier.queue ∧
    Alarm.leaf ∈ space.reached.toList := by
  obtain ⟨report, space, done, verdict⟩ := Alarm.reports
  have right := check_answers_right default List.length Alarm.program done
  rw [verdict] at right
  obtain ⟨none, -, waits, reached, -⟩ := right
  exact ⟨report, space, done, verdict, none, waits, reached⟩

end Settings
end ActorAnalysis
