import ActorAnalysis.Proofs.Run.Trace

/-! Interrupted runs. A run with a bound stops at a point that the run without it comes by, so that
it ends in the same way once it goes on from there. The counters of both parts add up. -/
namespace ActorAnalysis

variable {S : Type} [DecidableEq S] [Hashable S]

abbrev RunConfig.under (config : RunConfig) (bound : Option Nat) : RunConfig :=
  { config with maxIterations := bound }

namespace Statistics

theorem zero_plus (a : Statistics) : plus {} a = a := by
  simp only [plus, Nat.zero_add]

theorem plus_assoc (a b c : Statistics) : (a.plus b).plus c = a.plus (b.plus c) := by
  simp only [plus, Nat.add_assoc]

end Statistics

def Progress.since (earlier : Statistics) (p : Progress S) : Progress S :=
  { p with statistics := earlier.plus p.statistics }

namespace RunOutcome

def since (earlier : Statistics) (outcome : RunOutcome S) : RunOutcome S :=
  { outcome with statistics := earlier.plus outcome.statistics }

abbrev resultSince (earlier : Statistics) (result : Except Error (Option (RunOutcome S))) :
    Except Error (Option (RunOutcome S)) :=
  result.map (Option.map (since earlier))

omit [DecidableEq S] [Hashable S] in
theorem resultSince_zero (result : Except Error (Option (RunOutcome S))) :
    resultSince {} result = result := by
  cases result with
  | error e => rfl
  | ok outcome =>
    cases outcome with
    | none => rfl
    | some outcome => simp only [resultSince, Except.map, Option.map, since, Statistics.zero_plus]

omit [DecidableEq S] [Hashable S] in
theorem resultSince_plus (a b : Statistics) (result : Except Error (Option (RunOutcome S))) :
    resultSince (a.plus b) result = resultSince a (resultSince b result) := by
  cases result with
  | error e => rfl
  | ok outcome =>
    cases outcome with
    | none => rfl
    | some outcome => simp only [resultSince, Except.map, Option.map, since, Statistics.plus_assoc]

end RunOutcome

namespace Analysis

section Since

variable (A : Analysis S) (config : RunConfig) (earlier : Statistics)

theorem accept_since (p : Progress S) (s : S) :
    A.accept config (p.since earlier) s = Progress.since earlier <$> A.accept config p s := by
  unfold accept
  simp only [map_bind]
  congr 1; funext _
  congr 1; funext _
  cases (A.target s).isEmpty <;> cases config.stopOnFirstTarget <;> cases h : p.targets.isEmpty <;>
    simp [Progress.since, Statistics.plus, h, Nat.add_assoc]

theorem visit_since (p : Progress S) (t : S) :
    A.visit config (p.since earlier) t = Progress.since earlier <$> A.visit config p t := by
  unfold visit
  split
  all_goals
    simp only [map_bind]
    congr 1; funext s
    congr 1; funext reached
    split
    · rw [map_pure]
      rfl
    · rw [← accept_since]
      rfl

theorem foldlM_visit_since (l : List S) (p : Progress S) :
    l.foldlM (A.visit config) (p.since earlier) =
      Progress.since earlier <$> l.foldlM (A.visit config) p := by
  induction l generalizing p with
  | nil => rw [List.foldlM_nil, List.foldlM_nil, map_pure]
  | cons t rest ih =>
    rw [List.foldlM_cons, List.foldlM_cons, visit_since, bind_map_left, map_bind]
    simp only [ih]

theorem expand_since (statistics : Statistics) (s : S) :
    A.expand config (earlier.plus statistics) s =
      Progress.since earlier <$> A.expand config statistics s := by
  unfold expand
  rw [map_bind]
  congr 1; funext successors
  exact A.foldlM_visit_since config earlier successors ⟨statistics, []⟩

/-- Without a bound, a run does not look at its counters. -/
theorem runFrom_since (within : config.maxIterations = none) (fuel : Nat)
    (statistics : Statistics) :
    A.runFrom config fuel (earlier.plus statistics) =
      Option.map (RunOutcome.since earlier) <$> A.runFrom config fuel statistics := by
  induction fuel generalizing statistics with
  | zero =>
    rw [runFrom, runFrom, map_pure]
    rfl
  | succ fuel ih =>
    simp only [runFrom, atBound_none _ within, Bool.false_and, if_neg Bool.false_ne_true, map_bind]
    congr 1; funext _
    congr 1; funext next
    cases next with
    | none =>
      rw [map_pure]
      rfl
    | some s =>
      have counted : ({ earlier.plus statistics with
          iterations := (earlier.plus statistics).iterations + 1 } : Statistics) =
          earlier.plus { statistics with iterations := statistics.iterations + 1 } := rfl
      simp only [map_bind]
      rw [counted, expand_since, bind_map_left]
      congr 1; funext p
      change (if p.targets.isEmpty then A.runFrom config fuel (earlier.plus p.statistics) else _) = _
      split
      · exact ih p.statistics
      · rw [map_pure]
        rfl

theorem runFrom_eq_run (within : config.maxIterations = none) (fuel : Nat) :
    A.runFrom config fuel earlier =
      Option.map (RunOutcome.since earlier) <$> A.run config fuel := by
  exact A.runFrom_since config earlier within fuel {}

end Since

theorem runFrom_step (A : Analysis S) (config : RunConfig) (statistics : Statistics)
    (space : Space S) :
    (∃ ended, (∀ reported, ended.1 ≠ .ok (some ⟨.iterationBound, reported⟩)) ∧
      ∀ bound fuel, (atBound (config.under bound) statistics && !space.frontier.isEmpty) = false →
        (A.runFrom (config.under bound) (fuel + 1) statistics).on space = ended) ∨
    ∃ counted mid, ∀ bound fuel,
      (atBound (config.under bound) statistics && !space.frontier.isEmpty) = false →
        (A.runFrom (config.under bound) (fuel + 1) statistics).on space =
          (A.runFrom (config.under bound) fuel counted).on mid := by
  rcases A.popNext_on config.order space with pops | ⟨s, popped, pops⟩
  · exact .inl ⟨(.ok (some ⟨.completed, statistics⟩), space), by simp,
      fun _ fuel goesOn => runFrom_done statistics fuel goesOn pops⟩
  · have step (bound : Option Nat) (fuel : Nat)
        (goesOn : (atBound (config.under bound) statistics && !space.frontier.isEmpty) = false) :=
      runFrom_next (A := A) statistics fuel goesOn pops
    -- an expansion does not know of the bound
    change ∀ bound fuel, _ → _ = Explore.next _ ((A.expand config _ s).on popped) at step
    cases expands : (A.expand config
      { statistics with iterations := statistics.iterations + 1 } s).on popped with
    | mk result after =>
    rw [expands] at step
    cases result with
    | error e => exact .inl ⟨(.error e, after), by simp, step⟩
    | ok p =>
      by_cases quiet : p.targets.isEmpty = true
      · simp only [Explore.next_ok, if_pos quiet] at step
        exact .inr ⟨p.statistics, after, step⟩
      · simp only [Explore.next_ok, if_neg quiet] at step
        exact .inl ⟨(.ok (some ⟨.targetsFound p.targets, p.statistics⟩), after), by simp, step⟩

section Pause

variable {A : Analysis S} {config : RunConfig} {fuel more : Nat} {statistics : Statistics}
  {space : Space S} {ended : Except Error (Option (RunOutcome S)) × Space S}

theorem runFrom_more (ends : (A.runFrom config fuel statistics).on space = ended)
    (finished : ended.1 ≠ .ok none) (enough : fuel ≤ more) :
    (A.runFrom config more statistics).on space = ended := by
  induction fuel generalizing statistics space more with
  | zero =>
    subst ends
    exact absurd rfl finished
  | succ fuel ih =>
    obtain ⟨more, rfl⟩ : ∃ n, more = n + 1 := ⟨more - 1, by omega⟩
    cases goesOn : atBound config statistics && !space.frontier.isEmpty with
    | true =>
      simp only [Bool.and_eq_true, Bool.not_eq_true'] at goesOn
      rw [runFrom_bound statistics fuel goesOn.1 goesOn.2] at ends
      rwa [runFrom_bound statistics more goesOn.1 goesOn.2]
    | false =>
      rcases A.runFrom_step config statistics space with ⟨_, -, step⟩ | ⟨counted, mid, step⟩
      · exact (step config.maxIterations more goesOn).trans
          ((step config.maxIterations fuel goesOn).symm.trans ends)
      · have ends := (step config.maxIterations fuel goesOn).symm.trans ends
        exact (step config.maxIterations more goesOn).trans (ih ends (by omega))

theorem runFrom_ne_bound (reported : Statistics) :
    ((A.runFrom (config.under none) fuel statistics).on space).1 ≠
      .ok (some ⟨.iterationBound, reported⟩) := by
  induction fuel generalizing statistics space with
  | zero => nofun
  | succ fuel ih =>
    rcases A.runFrom_step config statistics space with ⟨ended, other, step⟩ | ⟨_, mid, step⟩
    · rw [step none fuel rfl]
      exact other reported
    · rw [step none fuel rfl]
      exact ih

/-- The bound `m` makes no difference, or it interrupts the run. What is left takes less fuel if
the run has made a step. -/
theorem runFrom_interrupted (m : Nat)
    (ends : (A.runFrom (config.under none) fuel statistics).on space = ended)
    (finished : ended.1 ≠ .ok none) :
    (A.runFrom (config.under (some m)) fuel statistics).on space = ended ∨
      ∃ first mid left, (A.runFrom (config.under (some m)) fuel statistics).on space =
          (.ok (some ⟨.iterationBound, first⟩), mid) ∧ mid.frontier.isEmpty = false ∧
        left ≤ fuel ∧ (statistics.iterations < m → left < fuel) ∧
        (A.runFrom (config.under none) left first).on mid = ended := by
  induction fuel generalizing statistics space with
  | zero =>
    subst ends
    exact absurd rfl finished
  | succ fuel ih =>
    cases goesOn : atBound (config.under (some m)) statistics && !space.frontier.isEmpty with
    | true =>
      simp only [Bool.and_eq_true, Bool.not_eq_true'] at goesOn
      have bounded : m ≤ statistics.iterations := of_decide_eq_true goesOn.1
      exact .inr ⟨statistics, space, fuel + 1, runFrom_bound statistics fuel goesOn.1 goesOn.2,
        goesOn.2, Nat.le_refl _, by omega, ends⟩
    | false =>
      rcases A.runFrom_step config statistics space with ⟨_, -, step⟩ | ⟨counted, mid, step⟩
      · exact .inl ((step (some m) fuel goesOn).trans ((step none fuel rfl).symm.trans ends))
      · have paused := step (some m) fuel goesOn
        rcases ih ((step none fuel rfl).symm.trans ends) with
          same | ⟨first, mid, left, stops, waits, less, -, rest⟩
        · exact .inl (paused.trans same)
        · exact .inr ⟨first, mid, left, paused.trans stops, waits, by omega, by omega, rest⟩

end Pause

/-- A run that stops after `m` expansions, and goes on without a bound if states are left. -/
def runPaused (A : Analysis S) (config : RunConfig) (m fuel : Nat) :
    Explore S (Option (RunOutcome S)) := do
  match ← A.run (config.under (some m)) fuel with
  | some ⟨.iterationBound, first⟩ =>
    return (← A.run (config.under none) fuel).map (RunOutcome.since first)
  | outcome => return outcome

theorem runPaused_eq {A : Analysis S} {config : RunConfig} (m : Nat) {fuel : Nat} {space : Space S}
    (finished : ((A.run (config.under none) fuel).on space).1 ≠ .ok none) :
    (A.runPaused config m fuel).on space = (A.run (config.under none) fuel).on space := by
  unfold runPaused
  rw [Explore.on_bind]
  rcases runFrom_interrupted m (rfl : (A.run (config.under none) fuel).on space = _) finished with
    same | ⟨first, mid, left, stops, -, less, -, rest⟩
  · have same : (A.run (config.under (some m)) fuel).on space = _ := same
    rw [same]
    cases ends : (A.run (config.under none) fuel).on space with | mk result after =>
    cases result with
    | error e => rfl
    | ok outcome =>
      rw [Explore.next_ok]
      split
      · exact absurd (congrArg Prod.fst ends) (runFrom_ne_bound _)
      · rfl
  · have stops : (A.run (config.under (some m)) fuel).on space = _ := stops
    have rest := runFrom_more rest finished less
    rw [stops, Explore.next_ok, ← rest, runFrom_eq_run A (config.under none) first rfl,
      map_eq_pure_bind]

end Analysis
end ActorAnalysis
