import ActorAnalysis.Proofs.Graph.Session
import ActorAnalysis.Proofs.Merging

namespace ActorAnalysis

namespace Analysis

/-- No operation that an exploration calls fails on states with `inv`, and spurious violations are
dropped without a refinement. -/
structure Unfailing {S : Type} (A : Analysis S) (program : Program) (inv : Ids → S → Prop) :
    Prop where
  keeps : A.Invariant program True True inv
  initial : ∀ ids, ∃ out after, (A.initial program).run ids = (.ok out, after)
  succ : ∀ {ids s}, inv ids s → ∃ out after, (A.succ s).run ids = (.ok out, after)
  merge : ∀ {ids s t}, inv ids s → inv ids t → A.shouldMerge s t = true →
    ∃ m after, (A.merge s t).run ids = (.ok m, after)
  widen : ∀ s, ∃ t, A.widen s = .ok t
  feasible : ∀ s, ∃ b, A.refiner.feasible s = .ok b
  refine : ∀ s, A.refiner.refine s = .ok none

theorem Unfailing.merges {S : Type} {A : Analysis S} {program : Program} {inv : Ids → S → Prop}
    (unfailing : A.Unfailing program inv) : A.Merges inv where
  grows := unfailing.keeps.grows
  merge := by
    intro ids s t hs ht should
    obtain ⟨m, after, ran⟩ := unfailing.merge hs ht should
    exact ⟨m, after, ran, unfailing.keeps.merge .intro hs ht should ran⟩

namespace Unfailing

variable {S : Type} [DecidableEq S] [Hashable S] {A : Analysis S} {program : Program}
  {inv : Ids → S → Prop} (unfailing : A.Unfailing program inv)
include unfailing

theorem absorb {state : S} {space : Space S} (holds : space.Holds inv)
    (h : inv space.ids state) : ∃ final absorbed after,
      (A.absorb state (A.candidates state space)).run space.ids =
        (.ok (final, absorbed), after) :=
  unfailing.merges.absorb h fun r hr => holds.reached r (mem_reached_of_mem_candidates hr)

theorem visit (config : RunConfig) (p : Progress S) (t : S) (rest : List S) :
    Explore.Contract (fun space => space.Holds inv ∧ ∀ x ∈ t :: rest, inv space.ids x)
      (A.visit config p t) (fun _ space => space.Holds inv ∧ ∀ x ∈ rest, inv space.ids x)
      (fun _ => False) := by
  rintro space ⟨holds, pending⟩
  have keeps : Explore.Contract _ (A.visit config p t) _ _ :=
    unfailing.keeps.visit (fun _ => .intro) (fun _ => .intro) p t rest
  have kept := keeps space ⟨holds, pending⟩
  have visited := A.visit_visited config p t space
  cases done : (A.visit config p t).on space with | mk r after =>
  rw [done] at kept visited
  cases r with
  | ok => exact kept
  | error e =>
    cases visited with
    | failed _ fails =>
      obtain ⟨s, wide⟩ := unfailing.widen t
      rw [wide] at fails
      exact nomatch fails
    | @unmerged s _ _ wide _ _ merging =>
      have h : inv space.ids s :=
        unfailing.keeps.widened (fun _ => .intro) (pending t List.mem_cons_self) wide
      cases merging with
      | failed _ fails =>
        obtain ⟨final, absorbed, ids, ran⟩ := unfailing.absorb (holds.add (A.keys s) h) h
        rw [ran] at fails
        exact nomatch fails

theorem expand {config : RunConfig} {statistics : Statistics} {s : S} {before popped : Space S}
    (holds : before.Holds inv) (taken : before.Popped s popped) :
    Explore.Contract (fun space => space = popped) (A.expand config statistics s)
      (fun _ space => space.Holds inv) (fun _ => False) := by
  have left := holds.popped taken
  have h : inv popped.ids s := taken.ids ▸ holds.frontier s taken.waited
  have failed (e : Error) (ids : Ids) (fails : (A.succ s).run popped.ids = (.error e, ids)) :
      False := by
    obtain ⟨out, after, ran⟩ := unfailing.succ h
    rw [ran] at fails
    exact nomatch fails
  have start (out : List S) (ids : Ids) (ran : (A.succ s).run popped.ids = (.ok out, ids)) :
      (popped.withIds ids).Holds inv ∧ ∀ x ∈ out, inv ids x :=
    ⟨left.withIds fun s h => unfailing.keeps.grows h (Alloc.le_of_run ran),
      unfailing.keeps.succ h ran⟩
  have steps := expand_contract statistics
    (fun _ pending _ space => space.Holds inv ∧ ∀ x ∈ pending, inv space.ids x) failed start
    (fun out p t rest => unfailing.visit config p t rest)
  exact steps.weaken fun p space done => done.choose_spec.1

theorem run (config : RunConfig) (fuel : Nat) :
    Explore.Contract (Space.Holds inv) (A.run config fuel)
      (Ended (Space.Holds inv) fun _ => Space.Holds inv) (fun _ => False) :=
  runFrom_contract (fun _ => Space.Holds inv) (fun _ holds => holds.valid)
    (fun _ _ _ _ holds taken => (unfailing.expand holds taken).weaken fun _ _ kept =>
      ⟨fun _ => kept, fun _ => kept⟩) fuel {}

theorem examine (n : Nat) (targets : List S) :
    Explore.Contract (Space.Holds inv) (A.examine n targets) (fun _ => Space.Holds inv)
      (fun _ => False) := by
  induction targets generalizing n with
  | nil => exact fun space holds => holds
  | cons t rest ih =>
    have retract : Explore.Contract (Space.Holds inv) (A.retract t) (fun _ => Space.Holds inv)
        (fun _ => False) := by
      intro space holds
      unfold Analysis.retract
      rw [Explore.on_bind, Explore.on_retract, Explore.next_ok, Explore.on_bind,
        unfailing.refine t, Explore.ofExcept, Explore.next_ok]
      exact holds.dropAll [t]
    intro space holds
    unfold Analysis.examine
    rw [Explore.on_bind]
    obtain ⟨genuine, judged⟩ := unfailing.feasible t
    rw [judged, Explore.ofExcept, Explore.next_ok]
    cases genuine with
    | true => exact holds
    | false =>
      rw [if_neg Bool.false_ne_true]
      exact (retract.bind fun _ => ih (n + 1)) space holds

theorem check (config : RunConfig) (bounded : BoundedConfig) (fuel : Nat) :
    Explore.Contract (Space.Holds inv) (A.check config bounded fuel) (fun _ _ => True)
      (fun _ => False) := by
  have judged := checkRounds_contract (fun _ => Space.Holds inv) (fun _ _ => Space.Holds inv)
    (fun _ _ => Space.Holds inv) (fun _ => unfailing.run (halting bounded config) fuel)
    (fun n targets _ => (unfailing.examine n targets).weaken fun r space holds => ?_)
    bounded.maxRounds ⟨0, 0, {}⟩
  · exact judged.weaken fun _ _ _ => .intro
  · obtain ⟨found, k⟩ := r
    cases found with
    | none => exact holds
    | some s => exact holds

theorem seed (ids : Ids) :
    Explore.Contract (fun space => space = ⟨ids, ∅, ∅⟩) (A.seed program)
      (fun _ => Space.Holds inv) (fun _ => False) := by
  have failed (e : Error) (after : Ids) (fails : (A.initial program).run ids = (.error e, after)) :
      False := by
    obtain ⟨out, last, ran⟩ := unfailing.initial ids
    rw [ran] at fails
    exact nomatch fails
  have succeeds : Explore.Contract (fun space => space = ⟨ids, ∅, ∅⟩) (A.seed program)
      (fun _ _ => ∃ _ : List S, True) (fun _ => False) :=
    seed_contract (fun _ _ _ => True) failed (fun _ _ _ => .intro) (fun _ _ _ _ _ => .intro)
  exact ((unfailing.keeps.seed ids).and succeeds).weaken fun _ _ done => done.1

theorem session {space : Space S} (session : A.Session program space) : space.Holds inv := by
  induction session with
  | seeded ids => exact (unfailing.keeps.seed ids).always rfl
  | ran config fuel _ holds =>
    exact ((unfailing.run config fuel).weaken fun _ _ => Ended.kept).faultless.always holds
  | checked config bounded fuel _ holds =>
    have run := ((unfailing.run (halting bounded config) fuel).weaken fun _ _ => Ended.kept)
    exact checkRounds_keeps run.faultless (fun n targets => (unfailing.examine n targets).faultless)
      bounded.maxRounds ⟨0, 0, {}⟩ holds

end Unfailing
end Analysis
end ActorAnalysis
