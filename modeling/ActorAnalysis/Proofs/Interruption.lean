import ActorAnalysis.Proofs.Bounded
import ActorAnalysis.Proofs.Run.Pause
import ActorAnalysis.Proofs.Space.Order

namespace ActorAnalysis

variable {S : Type} [DecidableEq S] [Hashable S]

def BoundedReport.findings (report : BoundedReport S) : Verdict S × Nat × Statistics :=
  (report.verdict, report.refinements, report.statistics)

def SameFindings (r r' : Except Error (Option (BoundedReport S))) : Prop :=
  r.map (Option.map BoundedReport.findings) = r'.map (Option.map BoundedReport.findings)

namespace SameFindings

variable {r r' : Except Error (Option (BoundedReport S))} {report : BoundedReport S}

omit [DecidableEq S] [Hashable S]

theorem exists_report (same : SameFindings r (.ok (some report))) :
    ∃ report', r = .ok (some report') ∧ report'.findings = report.findings := by
  cases r with
  | error e => simp [SameFindings, Except.map] at same
  | ok found =>
    cases found with
    | none => simp [SameFindings, Except.map] at same
    | some report' => exact ⟨report', rfl, by simpa [SameFindings, Except.map] using same⟩

theorem conclusive (same : SameFindings r r') (conclusive : Conclusive r) : Conclusive r' := by
  rintro report' rfl bounded
  obtain ⟨report, rfl, findings⟩ := same.exists_report
  exact conclusive report rfl ((congrArg Prod.fst findings).trans bounded)

end SameFindings

structure Tally.Alike (t t' : Tally) : Prop where
  refinements : t.refinements = t'.refinements
  statistics : t.statistics = t'.statistics

inductive RoundEnd.Alike : RoundEnd S → RoundEnd S → Prop where
  | ended {r r' : Except Error (Option (BoundedReport S))} :
      SameFindings r r' → Alike (.ended r) (.ended r')
  | goesOn {t t' : Tally} : t.Alike t' → Alike (.goesOn t) (.goesOn t')

namespace Analysis

variable {A : Analysis S} {config : RunConfig} {fuel : Nat} {space mid after : Space S}

/-- A round whose run has counted on from `first` ends as one in which `first` is counted
already. -/
theorem Settles.since {t t' : Tally} {first : Statistics} {left' : RoundEnd S}
    {result : Except Error (Option (RunOutcome S))} (settles : A.Settles t' mid result left' after)
    (same : t.refinements = t'.refinements) (sum : t.statistics.plus first = t'.statistics) :
    ∃ left, A.Settles t mid (RunOutcome.resultSince first result) left after ∧
      left.Alike left' := by
  have total (statistics : Statistics) :
      t.statistics.plus (first.plus statistics) = t'.statistics.plus statistics := by
    rw [← sum, Statistics.plus_assoc]
  cases settles with
  | failed => exact ⟨_, .failed, .ended rfl⟩
  | unfinished => exact ⟨_, .unfinished, .ended rfl⟩
  | completed =>
    refine ⟨_, .completed, .ended ?_⟩
    simp [SameFindings, Except.map, BoundedReport.findings, total, same]
  | paused => exact ⟨_, .paused, .goesOn ⟨same, total _⟩⟩
  | unexamined examined => exact ⟨_, .unexamined (same ▸ examined), .ended rfl⟩
  | genuine examined =>
    refine ⟨_, .genuine (same ▸ examined), .ended ?_⟩
    simp [SameFindings, Except.map, BoundedReport.findings, total]
  | spurious examined => exact ⟨_, .spurious (same ▸ examined), .goesOn ⟨rfl, total _⟩⟩

/-- A run without a bound is played in `j` rounds that stop at theirs, and one more. -/
theorem run_in_rounds {k : Nat} (positive : 0 < k) {left : Nat} (less : left ≤ fuel)
    {result : Except Error (Option (RunOutcome S))} (waits : space.frontier.isEmpty = false)
    (ends : (A.run (config.under none) left).on space = (result, after))
    (finished : result ≠ .ok none) :
    ∃ j first last mid, mid.frontier.isEmpty = false ∧
      (A.run (config.under (some k)) fuel).on mid = (last, after) ∧
      RunOutcome.resultSince first last = result ∧
      ∀ rounds t, (A.checkRounds (config.under (some k)) fuel (rounds + j) t).on space =
        (A.checkRounds (config.under (some k)) fuel rounds
          ⟨t.rounds + j, t.refinements, t.statistics.plus first⟩).on mid := by
  -- each round makes a step, so less is left after it
  induction left using Nat.strongRecOn generalizing space result with
  | ind left ih =>
  rcases runFrom_interrupted k ends finished with
    same | ⟨first, mid, rest, stops, waits', -, fewer, goes⟩
  · exact ⟨0, {}, result, space, waits, runFrom_more same finished less,
      RunOutcome.resultSince_zero result, fun _ _ => rfl⟩
  · have fewer : rest < left := fewer positive
    have stops : (A.run (config.under (some k)) fuel).on space = _ := runFrom_more stops nofun less
    rw [runFrom_eq_run A (config.under none) first rfl, Explore.on_map, Prod.mk.injEq] at goes
    obtain ⟨rfl, rfl⟩ := goes
    have finished : ((A.run (config.under none) rest).on mid).1 ≠ .ok none := by
      intro unfinished
      exact finished (by rw [unfinished]; rfl)
    obtain ⟨j, second, last, final, waits'', ends, sum, rounds⟩ :=
      ih rest fewer (by omega) waits' rfl finished
    refine ⟨j + 1, first.plus second, last, final, waits'', ends, ?_, ?_⟩
    · rw [RunOutcome.resultSince_plus, sum]
    · intro n t
      rw [← Nat.add_assoc, checkRounds_settles (n + j) waits stops .paused]
      simp only [goOn, rounds, Statistics.plus_assoc, Nat.add_assoc, Nat.add_comm 1]

theorem checkRounds_interrupted {k : Nat} (positive : 0 < k) {rounds : Nat} {t t' : Tally}
    {result : Except Error (Option (BoundedReport S))} (alike : t.Alike t')
    (ends : (A.checkRounds (config.under none) fuel rounds t).on space = (result, after))
    (finished : result ≠ .ok none) :
    ∃ enough result', SameFindings result result' ∧
      (A.checkRounds (config.under (some k)) fuel enough t').on space = (result', after) := by
  induction rounds generalizing t t' space with
  | zero =>
    cases ends
    refine ⟨0, _, ?_, rfl⟩
    simp [SameFindings, Except.map, BoundedReport.findings, alike.refinements, alike.statistics]
  | succ rounds ih =>
    cases empty : space.frontier.isEmpty with
    | true =>
      rw [checkRounds_empty (rounds + 1) empty] at ends
      cases ends
      refine ⟨0, _, ?_, checkRounds_empty 0 empty⟩
      simp [SameFindings, Except.map, BoundedReport.findings, alike.refinements, alike.statistics]
    | false =>
      cases ran : (A.run (config.under none) fuel).on space with | mk outcome final =>
      have finishes : outcome ≠ .ok none := by
        rintro rfl
        rw [checkRounds_settles rounds empty ran .unfinished] at ends
        cases ends
        exact finished rfl
      obtain ⟨j, first, last, mid, waits, ran', sum, played⟩ :=
        run_in_rounds positive (Nat.le_refl fuel) empty ran finishes
      obtain ⟨left', after', settles'⟩ := A.exists_settles
        ⟨t'.rounds + j, t'.refinements, t'.statistics.plus first⟩ final last
      have counted : t.statistics.plus first = t'.statistics.plus first := by
        rw [alike.statistics]
      obtain ⟨left, settles, same⟩ := settles'.since alike.refinements counted
      rw [sum] at settles
      rw [checkRounds_settles rounds empty ran settles] at ends
      have step (n : Nat) : (A.checkRounds (config.under (some k)) fuel (n + 1 + j) t').on space =
          A.goOn (config.under (some k)) fuel n left' after' := by
        rw [played, checkRounds_settles n waits ran' settles']
      cases same with
      | ended same =>
        cases ends
        exact ⟨0 + 1 + j, _, same, step 0⟩
      | goesOn alike =>
        obtain ⟨enough, result', same, rest⟩ := ih alike ends
        exact ⟨enough + 1 + j, result', same, (step enough).trans rest⟩

/-- A run that is interrupted and taken up again ends as it would have without a break: with the
same status, counters and sets. A check that breaks off its rounds finds the same, given enough
rounds; and a definite result stays the same in any larger number of rounds. -/
theorem interruptions_change_nothing (A : Analysis S) (config : RunConfig) (fuel : Nat)
    (space : Space S) :
    (((A.run (config.under none) fuel).on space).1 ≠ .ok none → ∀ m,
      (A.runPaused config m fuel).on space = (A.run (config.under none) fuel).on space) ∧
    ∀ rounds result after, (A.check config ⟨rounds, none⟩ fuel).on space = (result, after) →
      result ≠ .ok none → ∀ k, 0 < k → ∃ enough result', SameFindings result result' ∧
        (A.check config ⟨enough, some k⟩ fuel).on space = (result', after) ∧
        (Conclusive result → ∀ more, enough ≤ more →
          (A.check config ⟨more, some k⟩ fuel).on space = (result', after)) := by
  constructor
  · exact fun finished m => runPaused_eq m finished
  · intro rounds result after ends finished k positive
    have nothing : Tally.Alike ⟨0, 0, {}⟩ ⟨0, 0, {}⟩ := ⟨rfl, rfl⟩
    have ends : (A.checkRounds (RunConfig.under { config with stopOnFirstTarget := true } none) fuel
      rounds ⟨0, 0, {}⟩).on space = (result, after) := ends
    obtain ⟨enough, result', same, checks⟩ :=
      checkRounds_interrupted positive nothing ends finished
    exact ⟨enough, result', same, checks,
      fun conclusive _ more => checkRounds_more checks (same.conclusive conclusive) more⟩

end Analysis

namespace Chain

def delayed : Space Table.State := ((⟨.start, ∅, ∅⟩ : Space Table.State).add other ∅).add first ∅

theorem valid_delayed : delayed.Valid := ((Space.valid_empty _).add other ∅).add first ∅

theorem queue_delayed : delayed.frontier.queue = [other, first] := by
  have alone := Analysis.queue_add (s := other) (Space.valid_empty .start) rfl ∅
  change (Frontier.push _ first).2.queue = _
  rw [Frontier.queue_push ((Space.valid_empty .start).add other ∅).1, alone]
  decide

theorem new_delayed (l : List Table.State) (inside : ∀ r ∈ l, r ∈ delayed.reached.toList) :
    analysis.stop last l = false := by
  apply stop_last
  intro r hr
  have reached := inside r hr
  have valid := Space.valid_empty (S := Table.State) .start
  unfold delayed at reached
  rw [Space.mem_reached_add (valid.add other ∅), Space.mem_reached_add valid,
    Reached.toList_empty] at reached
  rcases reached with rfl | rfl | none
  · decide
  · decide
  · exact absurd none List.not_mem_nil

theorem run_delayed (config : RunConfig) (fuel : Nat) (fifo : config.order = .fifo)
    (within : config.maxIterations = none) :
    ∃ space, space.Valid ∧ space.ids = .start ∧ space.frontier.queue = [first] ∧
      space.reached = delayed.reached ∧ (analysis.run config (fuel + 1)).on delayed =
        (analysis.runFrom config fuel { iterations := 1 }).on space := by
  obtain ⟨popped, pops, taken, left⟩ :=
    Analysis.popNext_fifo (A := analysis) valid_delayed queue_delayed
  rw [← fifo] at pops
  have leaf : (analysis.succ other).run popped.ids = (.ok [], .start) := by
    rw [taken.ids]
    rfl
  exact ⟨popped.withIds .start, taken.valid, rfl, left, taken.reached,
    Analysis.runFrom_pop {} fuel within pops (Analysis.expand_leaf leaf)⟩

/-- The run breaks off behind two of its three expansions. The check breaks off behind each one and
still finds the violation. -/
theorem interrupted_run_completes :
    (∃ statistics after, (analysis.runPaused ⟨.fifo, none, false, false⟩ 2 4).on delayed =
      (.ok (some ⟨.completed, statistics⟩), after)) ∧
    ∃ enough report after,
      (analysis.check ⟨.fifo, none, false, false⟩ ⟨enough, some 1⟩ 4).on delayed =
        (.ok (some report), after) ∧ report.verdict = .violation last (analysis.target last) := by
  obtain ⟨unpaused, rounds⟩ :=
    analysis.interruptions_change_nothing ⟨.fifo, none, false, false⟩ 4 delayed
  constructor
  · obtain ⟨space, valid, ids, alone, same, starts⟩ :=
      run_delayed ⟨.fifo, none, false, false⟩ 3 rfl rfl
    obtain ⟨statistics, after, ends, -⟩ := Analysis.runFrom_chain (A := analysis)
      ⟨.fifo, none, false, false⟩ 0 { iterations := 1 } valid alone rfl rfl rfl rfl
      (ids ▸ succ_first) (same ▸ new_delayed) succ_last
    have completes := starts.trans ends
    exact ⟨statistics, after, (unpaused (by simp [completes]) 2).trans completes⟩
  · obtain ⟨space, valid, ids, alone, same, starts⟩ :=
      run_delayed ⟨.fifo, none, true, false⟩ 3 rfl rfl
    obtain ⟨statistics, after, ends, -⟩ := Analysis.runFrom_target (A := analysis)
      ⟨.fifo, none, true, false⟩ 2 { iterations := 1 } valid alone rfl rfl rfl rfl
      (ids ▸ succ_first) (same ▸ new_delayed) (by decide)
    have waits : delayed.frontier.isEmpty = false := by simp [Frontier.isEmpty, queue_delayed]
    have found := Analysis.checkRounds_found 0 ⟨0, 0, {}⟩ waits (starts.trans ends) rfl
    obtain ⟨enough, result, agrees, checks, -⟩ := rounds 1 _ _ found (by simp) 1 Nat.one_pos
    obtain ⟨report, rfl, findings⟩ := SameFindings.exists_report (Eq.symm agrees)
    exact ⟨enough, report, after, checks, congrArg Prod.fst findings⟩

end Chain
end ActorAnalysis
