import ActorAnalysis.Proofs.Round
import ActorAnalysis.Proofs.Run.Loop

namespace ActorAnalysis

variable {S : Type} [DecidableEq S] [Hashable S]

namespace Analysis

abbrev halting (bounded : BoundedConfig) (config : RunConfig) : RunConfig :=
  { config with stopOnFirstTarget := true, maxIterations := bounded.iterationsPerRound }

/-- How a check ends: with `inv`, or with a genuine violation and `caught`. Both depend on the
number of refinements. -/
def Judged (A : Analysis S) (inv : Nat → Space S → Prop) (caught : Nat → S → Space S → Prop)
    (rounds : Nat) : Option (BoundedReport S) → Space S → Prop
  | none, _ => True
  | some report, space => match report.verdict with
    | .safe => inv report.refinements space ∧ space.frontier.queue = []
    | .boundReached =>
      inv report.refinements space ∧ space.frontier.queue ≠ [] ∧ report.rounds = rounds
    | .violation s properties => caught report.refinements s space ∧ properties = A.target s

theorem judged_atEnd {A : Analysis S} {inv : Nat → Space S → Prop}
    {caught : Nat → S → Space S → Prop} {rounds refinements : Nat} {statistics : Statistics}
    {space : Space S} (h : inv refinements space) : A.Judged inv caught rounds
      (some ⟨verdictAtEnd space.frontier, rounds, refinements, statistics⟩) space := by
  unfold verdictAtEnd
  split
  · rename_i empty
    exact ⟨h, List.isEmpty_iff.mp empty⟩
  · rename_i waits
    exact ⟨h, fun empty => waits (List.isEmpty_iff.mpr empty), rfl⟩

/-- A check keeps what its runs and the examinations of their reports keep. -/
theorem checkRounds_contract {A : Analysis S} {config : RunConfig} {fuel : Nat}
    (inv : Nat → Space S → Prop) (found : Nat → List S → Space S → Prop)
    (caught : Nat → S → Space S → Prop) {fault : Space S → Prop}
    (run : ∀ n, Explore.Contract (inv n) (A.run config fuel) (Ended (inv n) (found n)) fault)
    (examine : ∀ n targets, targets ≠ [] →
      Explore.Contract (found n targets) (A.examine n targets) (fun r space => match r with
        | (none, k) => inv k space
        | (some s, k) => caught k s space) fault)
    (rounds : Nat) (t : Tally) :
    Explore.Contract (inv t.refinements) (A.checkRounds config fuel rounds t)
      (A.Judged inv caught (t.rounds + rounds)) fault := by
  induction rounds generalizing t with
  | zero => exact fun space h => judged_atEnd h
  | succ rounds ih =>
    have look : Explore.Contract (inv t.refinements) Explore.frontier
        (fun frontier space => inv t.refinements space ∧ frontier = space.frontier) fault :=
      fun _ h => ⟨h, rfl⟩
    refine look.bind fun frontier => ?_
    split
    · rename_i empty
      rintro space ⟨h, rfl⟩
      exact ⟨h, List.isEmpty_iff.mp empty⟩
    · refine Explore.Contract.bind (fun space h => run t.refinements space h.1) fun outcome => ?_
      match outcome with
      | none => exact fun _ _ => trivial
      | some ⟨.completed, statistics⟩ =>
        rintro space ⟨h, empty⟩
        have safe : verdictAtEnd space.frontier = .safe := if_pos (List.isEmpty_iff.mpr empty)
        show A.Judged inv caught _ (some ⟨verdictAtEnd space.frontier, _, _, _⟩) space
        rw [safe]
        exact ⟨h, empty⟩
      | some ⟨.iterationBound, statistics⟩ =>
        have next := ih { t with
          rounds := t.rounds + 1, statistics := t.statistics.plus statistics }
        rw [Nat.add_assoc, Nat.add_comm 1] at next
        exact fun space h => next space h.1
      | some ⟨.targetsFound targets, statistics⟩ =>
        rintro space ⟨reports, h⟩
        refine ((examine t.refinements targets reports).bind fun r => ?_) space h
        match r with
        | (none, k) =>
          have next := ih { t with
            rounds := t.rounds + 1, statistics := t.statistics.plus statistics, refinements := k }
          rw [Nat.add_assoc, Nat.add_comm 1] at next
          exact next
        | (some s, k) => exact fun space h => ⟨h, rfl⟩

def Reports (found : List S → Space S → Prop) (outcome : Option (RunOutcome S))
    (space : Space S) : Prop :=
  ∀ targets statistics, outcome = some ⟨.targetsFound targets, statistics⟩ → found targets space

theorem Ended.reports {inv : Space S → Prop} {found : List S → Space S → Prop}
    (stronger : ∀ targets space, found targets space → inv space)
    {outcome : Option (RunOutcome S)} {space : Space S} (ended : Ended inv found outcome space) :
    inv space ∧ Reports found outcome space := by
  refine ⟨(ended.map₂ (fun _ h _ => h) (fun targets space h _ => stronger targets space h)
    ended).kept, fun targets statistics same => ?_⟩
  subst same
  exact ended.2

theorem Settles.keeps {A : Analysis S} {inv : Space S → Prop} {found : List S → Space S → Prop}
    {t : Tally} {left : RoundEnd S} {result : Except Error (Option (RunOutcome S))}
    {mid after : Space S}
    (examine : ∀ n targets,
      Explore.Contract (found targets) (A.examine n targets) (fun _ => inv) inv)
    (settles : A.Settles t mid result left after) (h : inv mid)
    (reports : ∀ outcome, result = .ok outcome → Reports found outcome mid) : inv after := by
  have examined {targets : List S} {statistics : Statistics}
      (same : result = .ok (some ⟨.targetsFound targets, statistics⟩)) :
      inv ((A.examine t.refinements targets).on mid).2 :=
    (examine t.refinements targets).always (reports _ same targets statistics rfl)
  cases settles with
  | failed | unfinished | completed | paused => exact h
  | unexamined done | genuine done | spurious done =>
    have kept := examined rfl
    rwa [done] at kept

/-- A whole check keeps what each run keeps, and what the examination of its targets restores. -/
theorem checkRounds_restores {A : Analysis S} {config : RunConfig} {fuel : Nat}
    {inv : Space S → Prop} {found : List S → Space S → Prop}
    (run : Explore.Contract inv (A.run config fuel)
      (fun outcome space => inv space ∧ Reports found outcome space) inv)
    (examine : ∀ n targets,
      Explore.Contract (found targets) (A.examine n targets) (fun _ => inv) inv)
    (rounds : Nat) (t : Tally) {space : Space S} (h : inv space) :
    inv ((A.checkRounds config fuel rounds t).on space).2 := by
  induction rounds generalizing t space with
  | zero => exact h
  | succ rounds ih =>
    cases empty : space.frontier.isEmpty with
    | true =>
      rw [checkRounds_empty (rounds + 1) empty]
      exact h
    | false =>
      obtain ⟨left, after, settles⟩ := A.exists_settles t ((A.run config fuel).on space).2
        ((A.run config fuel).on space).1
      have ran : inv ((A.run config fuel).on space).2 :=
        (run.weaken fun _ _ ended => ended.1).always h
      have kept := settles.keeps examine ran fun outcome ended =>
        (run.ok h (Prod.ext ended rfl)).2
      rw [checkRounds_settles rounds empty rfl settles]
      cases left with
      | ended result => exact kept
      | goesOn t => exact ih t kept

theorem checkRounds_keeps {A : Analysis S} {config : RunConfig} {fuel : Nat}
    {inv : Space S → Prop} (run : Explore.Contract inv (A.run config fuel) (fun _ => inv) inv)
    (examine : ∀ n targets, Explore.Contract inv (A.examine n targets) (fun _ => inv) inv)
    (rounds : Nat) (t : Tally) {space : Space S} (h : inv space) :
    inv ((A.checkRounds config fuel rounds t).on space).2 :=
  checkRounds_restores (run.weaken fun _ _ kept => ⟨kept, fun _ _ _ => kept⟩) examine rounds t h

theorem retract_cases (A : Analysis S) (s : S) (space : Space S) :
    (∃ e, (A.retract s).on space = (.error e, space.drop s)) ∨
      (A.retract s).on space = (.ok (), space.drop s) ∨
      ∃ r, A.refiner.refine s = .ok (some r) ∧ (space.drop s).reached.contains r = false ∧
        (A.retract s).on space = (.ok (), (space.drop s).add r (A.keys r)) := by
  unfold retract
  rw [Explore.on_bind, Explore.on_retract, Explore.next_ok, Explore.on_bind]
  cases refines : A.refiner.refine s with
  | error e => exact .inl ⟨e, rfl⟩
  | ok refined =>
    rw [Explore.ofExcept, Explore.next_ok]
    cases refined with
    | none => exact .inr (.inl rfl)
    | some r =>
      dsimp only
      rw [Explore.on_addNew]
      split
      · exact .inr (.inl rfl)
      · rename_i new
        exact .inr (.inr ⟨r, rfl, Bool.eq_false_iff.mpr new, rfl⟩)

theorem checkRounds_found {A : Analysis S} {config : RunConfig} {fuel : Nat} (rounds : Nat)
    (t : Tally) {statistics : Statistics} {s : S} {rest : List S} {space after : Space S}
    (waits : space.frontier.isEmpty = false)
    (ends : (A.run config fuel).on space =
      (.ok (some ⟨.targetsFound (s :: rest), statistics⟩), after))
    (genuine : A.refiner.feasible s = .ok true) :
    (A.checkRounds config fuel (rounds + 1) t).on space = (.ok (some ⟨.violation s (A.target s),
      t.rounds + 1, t.refinements, t.statistics.plus statistics⟩), after) := by
  have examined : (A.examine t.refinements (s :: rest)).on after =
      (.ok (some s, t.refinements), after) := by
    unfold examine
    rw [Explore.on_bind, genuine]
    rfl
  exact checkRounds_settles rounds waits ends (.genuine examined)

end Analysis
end ActorAnalysis
