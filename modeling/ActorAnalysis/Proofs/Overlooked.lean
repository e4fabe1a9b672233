import ActorAnalysis.Leaf.Table
import ActorAnalysis.Proofs.Bounded
import ActorAnalysis.Proofs.Run.Reporting

/-! What a check that ends as safe may have overlooked. All violating successors are reported and
examined, so that a genuine violation can only be left among the other states that come in: initial
states, and states that the check itself has merged or refined. -/
namespace ActorAnalysis

variable {S : Type} [DecidableEq S] [Hashable S]

namespace Analysis

/-- A violation that the refiner takes for genuine. -/
def Genuine (A : Analysis S) (s : S) : Prop :=
  (A.target s).isEmpty = false ∧ A.refiner.feasible s = .ok true

/-- The rounds that a check begins, with its counts and the space at their start. -/
inductive Begins (A : Analysis S) (program : Program) (config : RunConfig) (bounded : BoundedConfig)
    (fuel : Nat) (ids : Ids) : Tally → Space S → Prop where
  | first {count : Nat} {space : Space S} : (A.seed program).on ⟨ids, ∅, ∅⟩ = (.ok count, space) →
      0 < bounded.maxRounds → Begins A program config bounded fuel ids ⟨0, 0, {}⟩ space
  | next {t t' : Tally} {space mid after : Space S}
      {result : Except Error (Option (RunOutcome S))} :
      Begins A program config bounded fuel ids t space →
      (A.run (halting bounded config) fuel).on space = (result, mid) →
      A.Settles t mid result (.goesOn t') after → t'.rounds < bounded.maxRounds →
      Begins A program config bounded fuel ids t' after

/-- The examination of `targets` puts `m` in the place of a spurious one. -/
inductive Refines (A : Analysis S) : List S → Space S → S → Prop where
  | now {t m : S} {rest : List S} {space : Space S} : A.refiner.feasible t = .ok false →
      A.refiner.refine t = .ok (some m) → (space.drop t).reached.contains m = false →
      Refines A (t :: rest) space m
  | later {t m : S} {rest : List S} {space after : Space S} : A.refiner.feasible t = .ok false →
      (A.retract t).on space = (.ok (), after) → Refines A rest after m →
      Refines A (t :: rest) space m

/-- The states that get into both sets without a report, also if they violate something: initial
states, and those that a round of the check makes by a merge or by a refinement. -/
inductive Unreported (A : Analysis S) (program : Program) (config : RunConfig)
    (bounded : BoundedConfig) (fuel : Nat) (ids : Ids) (s : S) : Prop where
  | initial {out : List S} {after : Ids} : (A.initial program).run ids = (.ok out, after) →
      s ∈ out → Unreported A program config bounded fuel ids s
  | merged {t : Tally} {space : Space S} : A.Begins program config bounded fuel ids t space →
      A.RunMerges (halting bounded config) space s →
      Unreported A program config bounded fuel ids s
  | refined {t : Tally} {space mid : Space S} {targets : List S} {n : Statistics} :
      A.Begins program config bounded fuel ids t space →
      (A.run (halting bounded config) fuel).on space =
        (.ok (some ⟨.targetsFound targets, n⟩), mid) →
      A.Refines targets mid s → Unreported A program config bounded fuel ids s

/-- All reached states have `P` but for those in `targets`, which are still to be examined. -/
structure Unsettled (P : S → Prop) (targets : List S) (space : Space S) : Prop where
  valid : space.Valid
  settled : ∀ s ∈ space.reached.toList, P s ∨ s ∈ targets

section Examination

variable {A : Analysis S} {P : S → Prop}

theorem retract_settles {t : S} {rest : List S} (spurious : A.refiner.feasible t = .ok false) :
    Explore.Contract
      (fun space => Unsettled P (t :: rest) space ∧ ∀ m, A.Refines (t :: rest) space m → P m)
      (A.retract t)
      (fun _ space => Unsettled P rest space ∧ ∀ m, A.Refines rest space m → P m)
      (fun _ => True) := by
  rintro space ⟨⟨valid, settled⟩, refines⟩
  have dropped : Unsettled P rest (space.drop t) := by
    refine ⟨valid.drop t, fun s hs => ?_⟩
    obtain ⟨reached, other⟩ := (Space.mem_reached_drop valid t s).mp hs
    exact (settled s reached).imp_right fun member => (List.mem_cons.mp member).resolve_left other
  have later {after : Space S} (done : (A.retract t).on space = (.ok (), after)) (m : S)
      (refined : A.Refines rest after m) : P m := refines m (.later spurious done refined)
  rcases A.retract_cases t space with ⟨e, done⟩ | done | ⟨r, refined, new, done⟩
  · rw [done]
    trivial
  · have later := later done
    rw [done]
    exact ⟨dropped, later⟩
  · have later := later done
    rw [done]
    refine ⟨⟨dropped.valid.add r _, fun s hs => ?_⟩, later⟩
    rcases (Space.mem_reached_add dropped.valid r s (A.keys r)).mp hs with rfl | hs
    · exact .inl (refines s (.now spurious refined new))
    · exact dropped.settled s hs

/-- An examination without a genuine violation settles all that a run has reported. -/
theorem examine_settles (n : Nat) (targets : List S) : Explore.Contract
      (fun space => Unsettled P targets space ∧ ∀ m, A.Refines targets space m → P m)
      (A.examine n targets) (fun r space => r.1 = none → Unsettled P [] space)
      (fun _ => True) := by
  induction targets generalizing n with
  | nil => exact fun space h _ => h.1
  | cons t rest ih =>
    intro space h
    unfold examine
    rw [Explore.on_bind]
    cases feasible : A.refiner.feasible t with
    | error e => exact trivial
    | ok genuine =>
      rw [Explore.ofExcept, Explore.next_ok]
      cases genuine with
      | true => exact fun none => absurd none (Option.some_ne_none t)
      | false =>
        rw [if_neg Bool.false_ne_true]
        exact ((retract_settles feasible).bind fun _ => ih (n + 1)) space h

end Examination

section Check

variable (A : Analysis S) (program : Program) (config : RunConfig) (bounded : BoundedConfig)
  (fuel : Nat) (ids : Ids)

/-- The state is no genuine violation, unless it got in without a report. -/
def Cleared (s : S) : Prop := A.Genuine s → A.Unreported program config bounded fuel ids s

variable {A program config bounded fuel ids}

theorem cleared_of_quiet (s : S) (none : (A.target s).isEmpty = true) :
    A.Cleared program config bounded fuel ids s := by
  intro genuine
  rw [genuine.1] at none
  exact absurd none Bool.false_ne_true

theorem checkRounds_cleared (left : Nat) {t : Tally} {space after : Space S}
    {report : BoundedReport S} (all : t.rounds + left = bounded.maxRounds)
    (begins : t.rounds < bounded.maxRounds → A.Begins program config bounded fuel ids t space)
    (reported : space.Reported A (A.Cleared program config bounded fuel ids) [])
    (done : (A.checkRounds (halting bounded config) fuel left t).on space =
      (.ok (some report), after)) (safe : report.verdict = .safe) :
    after.Reported A (A.Cleared program config bounded fuel ids) [] := by
  induction left generalizing t space with
  | zero =>
    obtain ⟨-, rfl⟩ := Prod.mk.inj done
    exact reported
  | succ left ih =>
    cases empty : space.frontier.isEmpty with
    | true =>
      rw [checkRounds_empty (left + 1) empty] at done
      obtain ⟨-, rfl⟩ := Prod.mk.inj done
      exact reported
    | false =>
      -- a round is left, so the check begins it
      have begun := begins (by omega)
      have halts : (halting bounded config).stopOnFirstTarget = true := rfl
      have run := run_keeps_reported halts cleared_of_quiet reported
        (fun p t now m treats _ merges _ => .merged begun ⟨p, t, now, treats, merges⟩) fuel
      cases ran : (A.run (halting bounded config) fuel).on space with | mk result mid =>
      obtain ⟨left', after', settles⟩ := A.exists_settles t mid result
      rw [checkRounds_settles left empty ran settles] at done
      cases settles with
      | failed | unfinished | unexamined => cases done
      | genuine =>
        cases done
        cases safe
      | completed =>
        obtain ⟨-, rfl⟩ := Prod.mk.inj done
        exact (run.ok rfl ran).1
      | paused =>
        refine ih ?_ (fun less => .next begun ran .paused less) (run.ok rfl ran).1 done
        dsimp only
        omega
      | @spurious n targets k _ examined =>
        have found := (run.ok rfl ran).2
        have settled := (examine_settles t.refinements targets).ok
          ⟨⟨found.valid, found.reached⟩, fun m refines _ => .refined begun ran refines⟩ examined rfl
        refine ih ?_ (fun less => .next begun ran (.spurious examined) less)
          ⟨settled.valid, settled.settled, nofun⟩ done
        dsimp only
        omega

end Check

section Evaluation

variable {A : Analysis S} {program : Program} {config : RunConfig} {rounds fuel : Nat} {s t m : S}
  {space : Space S} {ids first second last : Ids}

theorem checkRounds_completes (tally : Tally) {after : Space S} {n : Statistics}
    (waits : space.frontier.queue = [s])
    (ends : (A.run config fuel).on space = (.ok (some ⟨.completed, n⟩), after))
    (empty : after.frontier.queue = []) :
    ∃ report, (A.checkRounds config fuel (rounds + 1) tally).on space = (.ok (some report), after) ∧
      report.verdict = .safe := by
  have waits : space.frontier.isEmpty = false := by simp [Frontier.isEmpty, waits]
  exact ⟨_, checkRounds_settles rounds waits ends .completed,
    if_pos (List.isEmpty_iff.mpr empty)⟩

theorem retract_refined (refines : A.refiner.refine t = .ok (some m))
    (new : (space.drop t).reached.contains m = false) :
    (A.retract t).on space = (.ok (), (space.drop t).add m (A.keys m)) := by
  unfold retract
  rw [Explore.on_bind, Explore.on_retract, Explore.next_ok, Explore.on_bind, refines,
    Explore.ofExcept, Explore.next_ok]
  dsimp only
  rw [Explore.on_addNew, new]
  rfl

theorem examine_refined (n : Nat) (spurious : A.refiner.feasible t = .ok false)
    (refines : A.refiner.refine t = .ok (some m))
    (new : (space.drop t).reached.contains m = false) :
    (A.examine n [t]).on space = (.ok (none, n + 1), (space.drop t).add m (A.keys m)) := by
  unfold examine
  rw [Explore.on_bind, spurious, Explore.ofExcept, Explore.next_ok, if_neg Bool.false_ne_true,
    Explore.on_bind, retract_refined refines new]
  rfl

variable (initial : (A.initial program).run ids = (.ok [s], first))
include initial

theorem check_from_one (config : RunConfig) (bounded : BoundedConfig) (fuel : Nat) :
    ∃ start : Space S, start.Valid ∧ start.ids = first ∧ start.frontier.queue = [s] ∧
      start.reached.toList = [s] ∧ (do
      let _ ← A.seed program
      A.check config bounded fuel : Explore S _).on ⟨ids, ∅, ∅⟩ =
        (A.checkRounds (halting bounded config) fuel bounded.maxRounds ⟨0, 0, {}⟩).on start := by
  obtain ⟨count, seeds⟩ := seed_one initial
  have valid := Space.valid_empty (S := S) first
  refine ⟨_, valid.add s (A.keys s), rfl, queue_add valid rfl (A.keys s),
    Space.toList_add_new valid List.not_mem_nil (A.keys s), ?_⟩
  rw [Explore.on_bind, seeds, Explore.next_ok, check]

theorem check_lone (config : RunConfig) (rounds fuel : Nat)
    (succ : (A.succ s).run first = (.ok [], last)) :
    ∃ report space, (do
      let _ ← A.seed program
      A.check config ⟨rounds + 1, none⟩ (fuel + 2) : Explore S _).on ⟨ids, ∅, ∅⟩ =
        (.ok (some report), space) ∧ report.verdict = .safe ∧ s ∈ space.reached.toList := by
  obtain ⟨start, valid, rfl, alone, only, checks⟩ :=
    check_from_one initial config ⟨rounds + 1, none⟩ (fuel + 2)
  obtain ⟨n, space, ends, same, empty⟩ := runFrom_leaf (halting ⟨rounds + 1, none⟩ config) fuel {}
    valid alone rfl succ
  obtain ⟨report, done, safe⟩ := checkRounds_completes ⟨0, 0, {}⟩ alone ends empty
  exact ⟨report, space, checks.trans done, safe, by simp [same, only]⟩

theorem check_merged {third : Ids} (rounds fuel : Nat) (plain : config.widenSuccessors = false)
    (standard : A.policy = .standard) (apart : s ≠ t) (unkeyed : (A.keys t).isEmpty = true)
    (succ : (A.succ s).run first = (.ok [t], second)) (new : A.stop t [s] = false)
    (quiet : (A.target t).isEmpty = true) (should : A.shouldMerge t s = true)
    (merge : (A.merge t s).run second = (.ok m, third))
    (leaf : (A.succ m).run third = (.ok [], last)) :
    ∃ report space, (do
      let _ ← A.seed program
      A.check config ⟨rounds + 1, none⟩ (fuel + 3) : Explore S _).on ⟨ids, ∅, ∅⟩ =
        (.ok (some report), space) ∧ report.verdict = .safe ∧ m ∈ space.reached.toList := by
  obtain ⟨start, valid, rfl, alone, only, checks⟩ :=
    check_from_one initial config ⟨rounds + 1, none⟩ (fuel + 3)
  have plain : (halting ⟨rounds + 1, none⟩ config).widenSuccessors = false := plain
  obtain ⟨n, space, ends, reached, empty⟩ := run_absorbed plain fuel valid alone only rfl standard
    apart unkeyed succ new quiet should merge leaf
  obtain ⟨report, done, safe⟩ := checkRounds_completes ⟨0, 0, {}⟩ alone ends empty
  exact ⟨report, space, checks.trans done, safe, by simp [reached]⟩

theorem check_refined (rounds fuel : Nat) (plain : config.widenSuccessors = false)
    (unmerged : A.policy = .never) (succ : (A.succ s).run first = (.ok [t], second))
    (new : ∀ l, (∀ r ∈ l, r = s) → A.stop t l = false)
    (violates : (A.target t).isEmpty = false) (spurious : A.refiner.feasible t = .ok false)
    (refines : A.refiner.refine t = .ok (some m)) (apart : m ≠ s)
    (leaf : (A.succ m).run second = (.ok [], last)) :
    ∃ report space, (do
      let _ ← A.seed program
      A.check config ⟨rounds + 2, none⟩ (fuel + 2) : Explore S _).on ⟨ids, ∅, ∅⟩ =
        (.ok (some report), space) ∧ report.verdict = .safe ∧ m ∈ space.reached.toList := by
  obtain ⟨start, valid, rfl, alone, only, checks⟩ :=
    check_from_one initial config ⟨rounds + 2, none⟩ (fuel + 2)
  have new (l : List S) (inside : ∀ r ∈ l, r ∈ start.reached.toList) : A.stop t l = false :=
    new l fun r hr => List.mem_singleton.mp (only ▸ inside r hr)
  obtain ⟨n, mid, ends, valid, rfl, waits, reached⟩ := runFrom_target
    (halting ⟨rounds + 2, none⟩ config) (fuel + 1) {} valid alone rfl plain rfl unmerged succ new
    violates
  have dropped := valid.drop t
  have absent : (mid.drop t).reached.contains m = false := by
    refine Bool.eq_false_iff.mpr fun found => ?_
    rw [Reached.contains_iff dropped.2, Space.mem_reached_drop valid, reached, only] at found
    simp [apart] at found
  have idle : (mid.drop t).frontier.queue = [] := by
    refine List.eq_nil_iff_forall_not_mem.mpr fun x hx => ?_
    rw [Space.mem_frontier_drop valid, waits] at hx
    exact hx.2 (List.mem_singleton.mp hx.1)
  have examined := examine_refined 0 spurious refines absent
  have alone' := queue_add dropped idle (s := m) (A.keys m)
  obtain ⟨n', space, ends', same, empty⟩ := runFrom_leaf (halting ⟨rounds + 2, none⟩ config) fuel {}
    (dropped.add m (A.keys m)) alone' rfl leaf
  obtain ⟨report, done, safe⟩ := checkRounds_completes
    ⟨1, 1, ({} : Statistics).plus n⟩ alone' ends' empty
  have waits : start.frontier.isEmpty = false := by simp [Frontier.isEmpty, alone]
  have first := checkRounds_settles (t := ⟨0, 0, {}⟩) (rounds + 1) waits ends (.spurious examined)
  refine ⟨report, space, (checks.trans first).trans done, safe, ?_⟩
  rw [same]
  exact (Space.mem_reached_add dropped m m (A.keys m)).mpr (.inl rfl)

end Evaluation

/-- A genuine violation that is left by a check that ends as safe is an initial state, or one of the
states that the check has merged or refined. -/
theorem violations_left_are_unreported (A : Analysis S) (program : Program) {config : RunConfig}
    {bounded : BoundedConfig} {fuel : Nat} {ids : Ids} {report : BoundedReport S} {space : Space S}
    (done : (do
      let _ ← A.seed program
      A.check config bounded fuel : Explore S _).on ⟨ids, ∅, ∅⟩ = (.ok (some report), space))
    (safe : report.verdict = .safe) :
    ∀ s ∈ space.reached.toList, A.Genuine s → A.Unreported program config bounded fuel ids s := by
  rw [Explore.on_bind] at done
  cases seeded : (A.seed program).on ⟨ids, ∅, ∅⟩ with | mk count start =>
  rw [seeded] at done
  cases count with
  | error e => cases done
  | ok count =>
    have initial : start.Reported A (A.Cleared program config bounded fuel ids) [] :=
      (seed_reported fun out after ran s hs _ => .initial ran hs).ok rfl seeded
    have left := checkRounds_cleared bounded.maxRounds (Nat.zero_add _) (.first seeded) initial done
      safe
    exact fun s hs => (left.reached s hs).resolve_right List.not_mem_nil

end Analysis

namespace Overlooked

def property : Property := ⟨"bad", by decide⟩

def table : Table where
  initial := [0]
  succ := ∅
  targets := (∅ : SortedMap Nat (SortedSet Property)).insert 0 (.singleton property)
  keys := ∅
  order := ∅
  widened := ∅
  mergeMod := 0
  mergeWithin := none
  mergeOp := .larger
  stopGe := false
  policy := .never
  spurious := none
  errors := ∅

def program : Program := ⟨[], ∅, .nil⟩

def config : RunConfig := ⟨.fifo, none, false, false⟩

/-- Safe, with a genuine violation among the reached states: the initial one. -/
theorem safe_with_genuine_violation : ∃ report space, (do
    let _ ← table.analysis.seed program
    table.analysis.check config ⟨1, none⟩ 2 : Explore Table.State _).on
      ⟨.start, ∅, ∅⟩ = (.ok (some report), space) ∧ report.verdict = .safe ∧
        ¬∀ s ∈ space.reached.toList, ¬table.analysis.Genuine s := by
  have initial : (table.analysis.initial program).run .start = (.ok [⟨0⟩], .start) := rfl
  obtain ⟨report, space, done, safe, reached⟩ := Analysis.check_lone initial config 0 0 rfl
  exact ⟨report, space, done, safe, fun none => none ⟨0⟩ reached ⟨by decide, rfl⟩⟩

/-- The second state is merged with the first one into a violation. -/
def merging : Table :=
  { table with
    initial := [1]
    succ := (∅ : SortedMap Nat (List Nat)).insert 1 [2]
    targets := (∅ : SortedMap Nat (SortedSet Property)).insert 21 (.singleton property)
    mergeMod := 1
    mergeOp := .pair
    policy := .standard }

/-- The second state is a spurious violation, and its refinement is a genuine one. -/
def refining : Table :=
  { table with
    succ := (∅ : SortedMap Nat (List Nat)).insert 0 [1]
    targets := ((∅ : SortedMap Nat (SortedSet Property)).insert 1 (.singleton property)).insert 2
      (.singleton property)
    spurious := some ((∅ : SortedMap Nat (Option Nat)).insert 1 (some 2)) }

/-- Safe, with a merged violation, or with a refined one. Neither is an initial state. -/
theorem merged_and_refined_violations_are_left :
    (merging.analysis.initial program).run .start = (.ok [⟨1⟩], .start) ∧
    (∃ report space, (do
      let _ ← merging.analysis.seed program
      merging.analysis.check config ⟨1, none⟩ 3 : Explore Table.State _).on ⟨.start, ∅, ∅⟩ =
        (.ok (some report), space) ∧ report.verdict = .safe ∧ ⟨21⟩ ∈ space.reached.toList ∧
      merging.analysis.Genuine ⟨21⟩ ∧
      merging.analysis.Unreported program config ⟨1, none⟩ 3 .start ⟨21⟩) ∧
    (refining.analysis.initial program).run .start = (.ok [⟨0⟩], .start) ∧
    ∃ report space, (do
      let _ ← refining.analysis.seed program
      refining.analysis.check config ⟨2, none⟩ 2 : Explore Table.State _).on ⟨.start, ∅, ∅⟩ =
        (.ok (some report), space) ∧ report.verdict = .safe ∧ ⟨2⟩ ∈ space.reached.toList ∧
      refining.analysis.Genuine ⟨2⟩ ∧
      refining.analysis.Unreported program config ⟨2, none⟩ 2 .start ⟨2⟩ := by
  refine ⟨rfl, ?_, rfl, ?_⟩
  · have genuine : merging.analysis.Genuine ⟨21⟩ := ⟨by decide, rfl⟩
    have initial : (merging.analysis.initial program).run .start = (.ok [⟨1⟩], .start) := rfl
    have succ : (merging.analysis.succ ⟨1⟩).run .start = (.ok [⟨2⟩], .start) := rfl
    have merge : (merging.analysis.merge ⟨2⟩ ⟨1⟩).run .start = (.ok ⟨21⟩, .start) := rfl
    have plain : config.widenSuccessors = false := rfl
    obtain ⟨report, space, done, safe, reached⟩ := Analysis.check_merged initial 0 0 plain rfl
      (by decide) rfl succ rfl rfl rfl merge rfl
    exact ⟨report, space, done, safe, reached, genuine,
      Analysis.violations_left_are_unreported merging.analysis program done safe _ reached genuine⟩
  · have genuine : refining.analysis.Genuine ⟨2⟩ := ⟨by decide, rfl⟩
    have initial : (refining.analysis.initial program).run .start = (.ok [⟨0⟩], .start) := rfl
    have succ : (refining.analysis.succ ⟨0⟩).run .start = (.ok [⟨1⟩], .start) := rfl
    have refines : refining.analysis.refiner.refine ⟨1⟩ = .ok (some ⟨2⟩) := rfl
    have plain : config.widenSuccessors = false := rfl
    have new (l : List Table.State) (only : ∀ r ∈ l, r = ⟨0⟩) :
        refining.analysis.stop ⟨1⟩ l = false := by
      refine List.any_eq_false.mpr fun r hr => ?_
      rw [only r hr]
      decide
    obtain ⟨report, space, done, safe, reached⟩ := Analysis.check_refined initial 0 0 plain rfl
      succ new (by decide) rfl refines (by decide) rfl
    exact ⟨report, space, done, safe, reached, genuine,
      Analysis.violations_left_are_unreported refining.analysis program done safe _ reached genuine⟩

end Overlooked
end ActorAnalysis
