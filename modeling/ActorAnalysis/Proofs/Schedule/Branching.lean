import ActorAnalysis.Proofs.Data.Monotone
import ActorAnalysis.Proofs.Schedule.Move

/-! Waits and assertions branch on a condition and its opposite. The two are opposites in every
state, although the opposite of a negation is what was negated; so no memory is lost between them,
and one of the branches is always open. -/
namespace ActorAnalysis

namespace Cond

theorem holdsIn_negate (c : Cond) (σ : Valuation) : c.negate.holdsIn σ = !c.holdsIn σ := by
  cases c <;> simp [negate, holdsIn]

/-- Only the negation of a constant or of a negation is not the opposite of its opposite. -/
theorem negate_negate_eq_self {c : Cond} :
    c.negate.negate = c ↔ c ≠ .not .always ∧ c ≠ .not .never ∧ ∀ d, c ≠ .not (.not d) := by
  cases c with
  | not c =>
    cases c with
    | not c =>
      constructor
      · intro same
        -- both negations are removed
        have shorter : c = .not (.not c) := same
        cases shorter
      · intro other
        exact absurd rfl (other.2.2 c)
    | _ => simp [negate]
  | _ => simp [negate]

end Cond

namespace DataState

variable {s : DataState} {c : Cond} {σ : Valuation}

theorem negated_negated (a : Flat Bool) : negated (negated a) = a := by
  cases a <;> simp [negated]

theorem holds_negate (s : DataState) (c : Cond) : s.holds c.negate = negated (s.holds c) := by
  cases c with
  | always | never => cases none : s.isInfeasible <;> simp [Cond.negate, holds, negated, none]
  | not c => simp [Cond.negate, holds, negated_negated]
  | _ => rfl

theorem holds_negate_negate (s : DataState) (c : Cond) :
    s.holds c.negate.negate = s.holds c := by
  rw [holds_negate, holds_negate, negated_negated]

theorem Describes.branch (describes : s.Describes σ) (c : Cond) :
    (s.assume c).Describes σ ∨ (s.assume c.negate).Describes σ := by
  cases holds : c.holdsIn σ with
  | true => exact .inl (describes.assume holds)
  | false =>
    have opposite : c.negate.holdsIn σ = true := by rw [Cond.holdsIn_negate, holds, Bool.not_false]
    exact .inr (describes.assume opposite)

theorem assume_negate_of_holds (holds : s.holds c = .value true) :
    s.assume c.negate = infeasible := by
  apply assume_of_refuted
  rw [holds_negate, holds]
  exact Flat.included_refl _

theorem assume_negate_of_refuted (refuted : s.holds c = .value false) : s.assume c.negate = s := by
  apply assume_of_holds
  rw [holds_negate, refuted]
  rfl

end DataState

def Transition.BranchesOn (tr : Transition) (cond : Cond) : Prop :=
  tr.op = .waitUntil cond ∨ ∃ property, tr.op = .assert cond property

namespace Scheduler

variable {D : Type} {m : Scheduler D} {s : Scheduled D} {index : Nat}

theorem run_stepTransition_of_branchesOn {tr : Transition} {cond : Cond}
    (branches : tr.BranchesOn cond) {held others : List D}
    (holds : m.step s.data (.assume cond) = .ok held)
    (fails : m.step s.data (.assume cond.negate) = .ok others) (t : Thread) (body : Relation) :
    ∃ passed stayed violated, ∀ ids, (m.stepTransition s index t body tr).run ids =
      (.ok (held.map (settle body s index none passed) ++
        others.map (settle body s index violated stayed)), ids) := by
  rcases branches with waits | ⟨property, asserts⟩
  · refine ⟨s.threads.set index ((t.moveTo tr.target).withStatus (runOn t.status)),
      s.threads.set index (t.withStatus .waiting), none, fun ids => ?_⟩
    simp only [stepTransition, waits, holds, fails]
    rfl
  · refine ⟨s.threads.set index ((t.moveTo tr.target).withStatus (runOn t.status)),
      s.threads.set index { t with status := .failed, failedFor := t.failedFor.insert property },
      some property, fun ids => ?_⟩
    simp only [stepTransition, asserts, holds, fails]
    rfl

theorem mem_of_stepTransition {t : Thread} {script : Script} (found : s.threads[index]? = some t)
    (hscript : m.program.scriptAt t.ref = .ok script) (awake : ∀ cond, ¬script.Asleep t cond)
    {tr : Transition} (leaves : tr ∈ script.body.outgoing t.location)
    {out : List (Scheduled D)} {ids after : Ids}
    (done : (m.stepThread s index).run ids = (.ok out, after)) :
    ∃ part, (m.stepTransition s index t script.body tr).Gave ids part after ∧
      ∀ u ∈ part, u ∈ out := by
  rw [stepThread_of_awake found hscript awake (List.ne_nil_of_mem leaves),
    Alloc.run_bind_ok] at done
  obtain ⟨outs, last, ran, done⟩ := done
  obtain ⟨rfl, rfl⟩ := Alloc.run_pure_ok.mp done
  obtain ⟨part, listed, gave⟩ := (Alloc.mapM_gave ran).2 tr leaves
  exact ⟨part, gave, fun u hu => List.mem_flatten.mpr ⟨part, listed, hu⟩⟩

end Scheduler

namespace DataState

abbrev scheduler (program : Program) (config : DataConfig) : Scheduler DataState :=
  ⟨program, (analysis config).succFor⟩

/-- No memory is lost along a transition that branches. -/
theorem branches_cover {program : Program} {config : DataConfig} {s : Scheduled DataState}
    {tr : Transition} {c : Cond} (branches : tr.BranchesOn c) (index : Nat) (t : Thread)
    (body : Relation) :
    ∃ part, (∀ ids, ((scheduler program config).stepTransition s index t body tr).run ids =
        (.ok part, ids)) ∧
      ∀ σ, s.data.Describes σ → ∃ u ∈ part, u.data.Describes σ := by
  have assumes (cond : Cond) : (scheduler program config).step s.data (.assume cond) =
    .ok (s.data.step (.assume cond)) := rfl
  obtain ⟨passed, stayed, violated, ran⟩ :=
    Scheduler.run_stepTransition_of_branchesOn branches (assumes c) (assumes c.negate) t body
  refine ⟨_, ran, fun σ describes => ?_⟩
  have steps {cond : Cond} (kept : (s.data.assume cond).Describes σ) :
      s.data.assume cond ∈ s.data.step (.assume cond) :=
    mem_step.mpr ⟨describes.feasible, rfl, kept.feasible⟩
  rcases describes.branch c with kept | kept
  · exact ⟨_, List.mem_append_left _ (List.mem_map_of_mem (steps kept)), kept⟩
  · exact ⟨_, List.mem_append_right _ (List.mem_map_of_mem (steps kept)), kept⟩

/-- A condition and its opposite have opposite values, and the opposite of an opposite has the value
of the condition itself, from which it differs only if it has shed negations. A feasible state keeps
each of its memories under one of the two assumptions, and goes along one of them unchanged if it
knows the value. So a thread that goes along a wait or an assertion has a successor there, for each
memory. -/
theorem branching_is_exhaustive (program : Program) (config : DataConfig) :
    (∀ (s : DataState) (c : Cond), s.holds c.negate = negated (s.holds c) ∧
      s.holds c.negate.negate = s.holds c) ∧
    (∀ c : Cond, c.negate.negate = c ↔
      c ≠ .not .always ∧ c ≠ .not .never ∧ ∀ d, c ≠ .not (.not d)) ∧
    (∀ (s : DataState) (c : Cond), s.isInfeasible = false →
      (∀ σ, s.Describes σ → (s.assume c).Describes σ ∨ (s.assume c.negate).Describes σ) ∧
      ((s.assume c).isInfeasible = false ∨ (s.assume c.negate).isInfeasible = false) ∧
      (s.holds c = .value true → s.assume c = s ∧ s.assume c.negate = infeasible) ∧
      (s.holds c = .value false → s.assume c = infeasible ∧ s.assume c.negate = s)) ∧
    ∀ (s : Scheduled DataState) (index : Nat) (t : Thread) (script : Script),
      s.data.isInfeasible = false → s.threads[index]? = some t →
      program.scriptAt t.ref = .ok script → (∀ cond, ¬script.Asleep t cond) →
      ∀ tr ∈ script.body.outgoing t.location, ∀ c, tr.BranchesOn c →
        ∃ part, part ≠ [] ∧
          (∀ ids, ((scheduler program config).stepTransition s index t script.body tr).run ids =
            (.ok part, ids)) ∧
          (∀ σ, s.data.Describes σ → ∃ u ∈ part, u.data.Describes σ) ∧
          ∀ ids out after, ((scheduler program config).stepThread s index).run ids =
            (.ok out, after) → ∀ u ∈ part, u ∈ out := by
  refine ⟨fun s c => ⟨holds_negate s c, holds_negate_negate s c⟩,
    fun c => Cond.negate_negate_eq_self, fun s c feasible => ?_, ?_⟩
  · obtain ⟨σ, describes⟩ := exists_memory feasible
    refine ⟨fun σ describes => describes.branch c, ?_, fun holds => ?_, fun refuted => ?_⟩
    · exact (describes.branch c).imp Describes.feasible Describes.feasible
    · exact ⟨assume_of_holds holds, assume_negate_of_holds holds⟩
    · exact ⟨assume_of_refuted (by rw [refuted]; rfl), assume_negate_of_refuted refuted⟩
  · intro s index t script feasible found hscript awake tr leaves c branches
    obtain ⟨σ, describes⟩ := exists_memory feasible
    obtain ⟨part, ran, covers⟩ := branches_cover branches index t script.body
    refine ⟨part, ?_, ran, covers, fun ids out after done => ?_⟩
    · obtain ⟨u, hu, -⟩ := covers σ describes
      exact List.ne_nil_of_mem hu
    · obtain ⟨part', gave, inside⟩ :=
        Scheduler.mem_of_stepTransition found hscript awake leaves done
      obtain ⟨first, last, -, -, again⟩ := gave
      rw [ran first] at again
      cases again
      exact inside

namespace Gate

/-- The opposite of the condition tells the value of the variable. -/
def cond : Cond := .not (.eq (.var "x") (.const 1))

def script : Script := ⟨0, .bootstrap, .sequence 0 "pass" [.waitUntil cond]⟩

def actors : List Actor := [⟨"a", [script], []⟩]

theorem distinct : (relationIds actors).Nodup := by decide

def program : Program := ⟨actors, ∅, distinct⟩

def state : Scheduled DataState := .start [.start 0 "a" 0 0] unknown

def passed : Scheduled DataState :=
  ⟨[(Thread.start 0 "a" 0 1).withStatus .done], .singleton 0, ∅, unknown⟩

def blocked : Scheduled DataState :=
  ⟨[(Thread.start 0 "a" 0 0).withStatus .waiting], .singleton 0, ∅,
    .known ((∅ : SortedMap String Int64).insert "x" 1)⟩

abbrev machine : Scheduler DataState := scheduler program ⟨true, .all⟩

end Gate

theorem gate_lets_pass_and_blocks : Gate.state.data.isInfeasible = false ∧
    (Gate.machine.stepThread Gate.state 0).run ⟨1, 0⟩ =
      (.ok [Gate.passed, Gate.blocked], ⟨1, 0⟩) ∧
    ∀ σ, ∃ u ∈ [Gate.passed, Gate.blocked], u.data.Describes σ := by
  have ran : (Gate.machine.stepThread Gate.state 0).run ⟨1, 0⟩ =
    (.ok [Gate.passed, Gate.blocked], ⟨1, 0⟩) := rfl
  have awake (cond : Cond) : ¬Gate.script.Asleep (.start 0 "a" 0 0) cond :=
    fun asleep => Bool.noConfusion asleep.1
  obtain ⟨-, -, -, steps⟩ := branching_is_exhaustive Gate.program ⟨true, .all⟩
  obtain ⟨part, -, -, covers, inside⟩ := steps Gate.state 0 (.start 0 "a" 0 0) Gate.script rfl rfl
    rfl awake ⟨0, .waitUntil Gate.cond, 1⟩ List.mem_cons_self Gate.cond (.inl rfl)
  refine ⟨rfl, ran, fun σ => ?_⟩
  have described : Gate.state.data.Describes σ := by
    intro x v bound
    cases bound
  obtain ⟨u, hu, describes⟩ := covers σ described
  exact ⟨u, inside _ _ _ ran u hu, describes⟩

end DataState
end ActorAnalysis
