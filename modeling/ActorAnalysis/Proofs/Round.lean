import ActorAnalysis.Bounded
import ActorAnalysis.Proofs.Space.Update

namespace ActorAnalysis

variable {S : Type} [DecidableEq S] [Hashable S]

inductive RoundEnd (S : Type) where
  | ended (result : Except Error (Option (BoundedReport S)))
  | goesOn (t : Tally)

def Conclusive (result : Except Error (Option (BoundedReport S))) : Prop :=
  ∀ report, result = .ok (some report) → report.verdict ≠ .boundReached

namespace Analysis

def goOn (A : Analysis S) (config : RunConfig) (fuel rounds : Nat) (left : RoundEnd S)
    (space : Space S) : Except Error (Option (BoundedReport S)) × Space S :=
  match left with
  | .ended result => (result, space)
  | .goesOn t => (A.checkRounds config fuel rounds t).on space

/-- A round counts its run, and examines the violations that the run reports. -/
inductive Settles (A : Analysis S) (t : Tally) (mid : Space S) :
    Except Error (Option (RunOutcome S)) → RoundEnd S → Space S → Prop where
  | failed {e : Error} : Settles A t mid (.error e) (.ended (.error e)) mid
  | unfinished : Settles A t mid (.ok none) (.ended (.ok none)) mid
  | completed {statistics : Statistics} :
      Settles A t mid (.ok (some ⟨.completed, statistics⟩))
        (.ended (.ok (some ⟨verdictAtEnd mid.frontier, t.rounds + 1, t.refinements,
          t.statistics.plus statistics⟩))) mid
  | paused {statistics : Statistics} :
      Settles A t mid (.ok (some ⟨.iterationBound, statistics⟩))
        (.goesOn ⟨t.rounds + 1, t.refinements, t.statistics.plus statistics⟩) mid
  | unexamined {statistics : Statistics} {targets : List S} {e : Error} {after : Space S} :
      (A.examine t.refinements targets).on mid = (.error e, after) →
      Settles A t mid (.ok (some ⟨.targetsFound targets, statistics⟩)) (.ended (.error e)) after
  | genuine {statistics : Statistics} {targets : List S} {s : S} {n : Nat} {after : Space S} :
      (A.examine t.refinements targets).on mid = (.ok (some s, n), after) →
      Settles A t mid (.ok (some ⟨.targetsFound targets, statistics⟩))
        (.ended (.ok (some ⟨.violation s (A.target s), t.rounds + 1, n,
          t.statistics.plus statistics⟩))) after
  | spurious {statistics : Statistics} {targets : List S} {n : Nat} {after : Space S} :
      (A.examine t.refinements targets).on mid = (.ok (none, n), after) →
      Settles A t mid (.ok (some ⟨.targetsFound targets, statistics⟩))
        (.goesOn ⟨t.rounds + 1, n, t.statistics.plus statistics⟩) after

section Round

variable {A : Analysis S} {config : RunConfig} {fuel : Nat} {t : Tally} {space mid after : Space S}

theorem exists_settles (A : Analysis S) (t : Tally) (mid : Space S)
    (result : Except Error (Option (RunOutcome S))) :
    ∃ left after, A.Settles t mid result left after := by
  cases result with
  | error e => exact ⟨_, _, .failed⟩
  | ok outcome =>
    cases outcome with
    | none => exact ⟨_, _, .unfinished⟩
    | some outcome =>
      cases outcome with | mk status statistics =>
      cases status with
      | completed => exact ⟨_, _, .completed⟩
      | iterationBound => exact ⟨_, _, .paused⟩
      | targetsFound targets =>
        cases examined : (A.examine t.refinements targets).on mid with | mk judged after =>
        cases judged with
        | error e => exact ⟨_, _, .unexamined examined⟩
        | ok judged =>
          cases judged with | mk found n =>
          cases found with
          | none => exact ⟨_, _, .spurious examined⟩
          | some s => exact ⟨_, _, .genuine examined⟩

theorem checkRounds_settles (rounds : Nat) {result : Except Error (Option (RunOutcome S))}
    {left : RoundEnd S} (waits : space.frontier.isEmpty = false)
    (ends : (A.run config fuel).on space = (result, mid))
    (settles : A.Settles t mid result left after) :
    (A.checkRounds config fuel (rounds + 1) t).on space =
      A.goOn config fuel rounds left after := by
  cases settles with
  | failed | unfinished | completed | paused => simp [checkRounds, goOn, waits, ends, Except.map]
  | unexamined examined | genuine examined | spurious examined =>
    simp [checkRounds, goOn, waits, ends, examined]

theorem checkRounds_empty (rounds : Nat) (empty : space.frontier.isEmpty = true) :
    (A.checkRounds config fuel rounds t).on space =
      (.ok (some ⟨.safe, t.rounds, t.refinements, t.statistics⟩), space) := by
  cases rounds with
  | zero => simp [checkRounds, verdictAtEnd, empty, Except.map]
  | succ rounds => simp [checkRounds, empty]

theorem checkRounds_step (A : Analysis S) (config : RunConfig) (fuel : Nat) (t : Tally)
    (space : Space S) : ∃ left after, ∀ rounds,
      (A.checkRounds config fuel (rounds + 1) t).on space =
        A.goOn config fuel rounds left after := by
  cases empty : space.frontier.isEmpty with
  | true => exact ⟨.ended _, space, fun rounds => checkRounds_empty (rounds + 1) empty⟩
  | false =>
    obtain ⟨left, after, settles⟩ := A.exists_settles t ((A.run config fuel).on space).2
      ((A.run config fuel).on space).1
    exact ⟨left, after, fun rounds => checkRounds_settles rounds empty rfl settles⟩

theorem checkRounds_more {rounds more : Nat} {result : Except Error (Option (BoundedReport S))}
    (ends : (A.checkRounds config fuel rounds t).on space = (result, after))
    (conclusive : Conclusive result) (enough : rounds ≤ more) :
    (A.checkRounds config fuel more t).on space = (result, after) := by
  induction rounds generalizing t space more with
  | zero =>
    cases empty : space.frontier.isEmpty with
    | true =>
      rw [checkRounds_empty 0 empty] at ends
      rwa [checkRounds_empty more empty]
    | false =>
      simp only [checkRounds, Explore.on_bind, Explore.on_frontier, Explore.next_ok,
        Explore.on_pure, verdictAtEnd, empty, Prod.mk.injEq] at ends
      exact absurd rfl (conclusive _ ends.1.symm)
  | succ rounds ih =>
    obtain ⟨more, rfl⟩ : ∃ n, more = n + 1 := ⟨more - 1, by omega⟩
    obtain ⟨left, mid, step⟩ := A.checkRounds_step config fuel t space
    rw [step rounds] at ends
    rw [step more]
    cases left with
    | ended result => exact ends
    | goesOn t => exact ih ends (by omega)

end Round
end Analysis
end ActorAnalysis
