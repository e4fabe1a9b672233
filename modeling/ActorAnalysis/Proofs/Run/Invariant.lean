import ActorAnalysis.Proofs.Alloc
import ActorAnalysis.Proofs.Run.Loop

namespace ActorAnalysis

/-- A property of states, given the numbers drawn so far, that an analysis keeps. Merging counts
only under `merges`, and widening only under `widens`. -/
structure Analysis.Invariant {S : Type} (A : Analysis S) (program : Program) (merges widens : Prop)
    (inv : Ids → S → Prop) : Prop where
  grows : ∀ {ids after s}, inv ids s → ids ≤ after → inv after s
  initial : ∀ {ids out after}, (A.initial program).run ids = (.ok out, after) →
    ∀ s ∈ out, inv after s
  succ : ∀ {ids s out after}, inv ids s → (A.succ s).run ids = (.ok out, after) →
    ∀ t ∈ out, inv after t
  merge : merges → ∀ {ids s t m after}, inv ids s → inv ids t → A.shouldMerge s t = true →
    (A.merge s t).run ids = (.ok m, after) → inv after m
  widen : widens → ∀ {ids s t}, inv ids s → A.widen s = .ok t → inv ids t

theorem Analysis.Invariant.and {S : Type} {A : Analysis S} {program : Program}
    {merges widens : Prop} {inv other : Ids → S → Prop}
    (first : A.Invariant program merges widens inv)
    (second : A.Invariant program merges widens other) :
    A.Invariant program merges widens (fun ids s => inv ids s ∧ other ids s) where
  grows h le := ⟨first.grows h.1 le, second.grows h.2 le⟩
  initial done s hs := ⟨first.initial done s hs, second.initial done s hs⟩
  succ h done t ht := ⟨first.succ h.1 done t ht, second.succ h.2 done t ht⟩
  merge allowed _ _ _ _ _ hs ht should done :=
    ⟨first.merge allowed hs.1 ht.1 should done, second.merge allowed hs.2 ht.2 should done⟩
  widen allowed _ _ _ h done := ⟨first.widen allowed h.1 done, second.widen allowed h.2 done⟩

/-- The states that an analysis comes to step by step. Numbers may be drawn for others in
between. -/
inductive Analysis.Reachable {S : Type} (A : Analysis S) (program : Program) :
    Ids → S → Prop where
  | initial {ids after : Ids} {out : List S} {s : S} :
      (A.initial program).run ids = (.ok out, after) → s ∈ out → Reachable A program after s
  | succ {ids after : Ids} {s t : S} {out : List S} : Reachable A program ids s →
      (A.succ s).run ids = (.ok out, after) → t ∈ out → Reachable A program after t
  | later {ids after : Ids} {s : S} : Reachable A program ids s → ids ≤ after →
      Reachable A program after s

theorem Analysis.Invariant.reachable {S : Type} {A : Analysis S} {program : Program}
    {merges widens : Prop} {inv : Ids → S → Prop} (keeps : A.Invariant program merges widens inv)
    {ids : Ids} {s : S} (reachable : A.Reachable program ids s) : inv ids s := by
  induction reachable with
  | initial done member => exact keeps.initial done _ member
  | succ _ done member ih => exact keeps.succ ih done _ member
  | later _ grown ih => exact keeps.grows ih grown

def Analysis.Combines {S : Type} (A : Analysis S) (ids : Ids) (s t : S) (after : Ids) (u : S) :
    Prop :=
  (A.join s t).run ids = (.ok u, after) ∨ (A.merge s t).run ids = (.ok u, after)

inductive Analysis.Derivable {S : Type} (A : Analysis S) (program : Program) :
    Ids → S → Prop where
  | initial {ids after : Ids} {out : List S} {s : S} :
      (A.initial program).run ids = (.ok out, after) → s ∈ out → Derivable A program after s
  | succ {ids after : Ids} {s t : S} {out : List S} : Derivable A program ids s →
      (A.succ s).run ids = (.ok out, after) → t ∈ out → Derivable A program after t
  | widen {ids : Ids} {s t : S} : Derivable A program ids s → A.widen s = .ok t →
      Derivable A program ids t
  | combine {ids after : Ids} {s t u : S} : Derivable A program ids s →
      Derivable A program ids t → A.Combines ids s t after u → Derivable A program after u
  | later {ids after : Ids} {s : S} : Derivable A program ids s → ids ≤ after →
      Derivable A program after s

inductive Analysis.Descends {S : Type} (A : Analysis S) (program : Program) (ids : Ids) (s : S) :
    Ids → S → Prop where
  | refl : Descends A program ids s ids s
  | succ {now after : Ids} {t u : S} {out : List S} : Descends A program ids s now t →
      (A.succ t).run now = (.ok out, after) → u ∈ out → Descends A program ids s after u
  | widen {now : Ids} {t u : S} : Descends A program ids s now t → A.widen t = .ok u →
      Descends A program ids s now u
  | combineLeft {now after : Ids} {t other u : S} : Descends A program ids s now t →
      A.Derivable program now other → A.Combines now t other after u →
      Descends A program ids s after u
  | combineRight {now after : Ids} {t other u : S} : Descends A program ids s now t →
      A.Derivable program now other → A.Combines now other t after u →
      Descends A program ids s after u
  | later {now after : Ids} {t : S} : Descends A program ids s now t → now ≤ after →
      Descends A program ids s after t

theorem Analysis.Descends.derivable {S : Type} {A : Analysis S} {program : Program} {ids now : Ids}
    {s t : S} (descends : A.Descends program ids s now t) (start : A.Derivable program ids s) :
    A.Derivable program now t := by
  induction descends with
  | refl => exact start
  | succ _ done member ih => exact .succ ih done member
  | widen _ done ih => exact .widen ih done
  | combineLeft _ other done ih => exact .combine ih other done
  | combineRight _ other done ih => exact .combine other ih done
  | later _ grown ih => exact .later ih grown

/-- What each merge adds to holds of the final state and all that it has absorbed. -/
theorem Analysis.absorb_rule {S : Type} {A : Analysis S} (inv : Ids → S → List S → Prop)
    {all : List S}
    (step : ∀ {ids s done r m after}, inv ids s done → r ∈ all → A.shouldMerge s r = true →
      (A.merge s r).run ids = (.ok m, after) → inv after m (done ++ [r]))
    {l : List S} (inside : ∀ r ∈ l, r ∈ all) {ids after : Ids} {state final : S}
    (done : List S) {absorbed : List S} (start : inv ids state done)
    (ran : (A.absorb state l).run ids = (.ok (final, absorbed), after)) :
    inv after final (done ++ absorbed) ∧ ∀ r ∈ absorbed, r ∈ l := by
  induction l generalizing ids state done absorbed with
  | nil =>
    obtain ⟨same, rfl⟩ := Alloc.run_pure_ok.mp ran
    obtain ⟨rfl, rfl⟩ := Prod.mk.inj same
    exact ⟨by simpa using start, by simp⟩
  | cons r rest ih =>
    have tail : ∀ r ∈ rest, r ∈ all := fun r hr => inside r (List.mem_cons_of_mem _ hr)
    unfold absorb at ran
    split at ran
    · rename_i should
      rw [Alloc.run_bind_ok] at ran
      obtain ⟨m, mid, merged, ran⟩ := ran
      rw [Alloc.run_bind_ok] at ran
      obtain ⟨⟨last, more⟩, mid', ran, result⟩ := ran
      obtain ⟨same, rfl⟩ := Alloc.run_pure_ok.mp result
      obtain ⟨rfl, rfl⟩ := Prod.mk.inj same
      have next := step start (inside r List.mem_cons_self) should merged
      obtain ⟨kept, subset⟩ := ih tail (done ++ [r]) next ran
      rw [List.append_assoc] at kept
      refine ⟨kept, fun x hx => ?_⟩
      rcases List.mem_cons.mp hx with rfl | hx
      · exact List.mem_cons_self
      · exact List.mem_cons_of_mem _ (subset x hx)
    · obtain ⟨kept, subset⟩ := ih tail done start ran
      exact ⟨kept, fun x hx => List.mem_cons_of_mem _ (subset x hx)⟩

variable {S : Type} [DecidableEq S] [Hashable S]

structure Space.Holds (inv : Ids → S → Prop) (space : Space S) : Prop where
  valid : space.Valid
  frontier : ∀ s ∈ space.frontier.queue, inv space.ids s
  reached : ∀ s ∈ space.reached.toList, inv space.ids s

namespace Space.Holds

theorem empty {inv : Ids → S → Prop} (ids : Ids) : (⟨ids, ∅, ∅⟩ : Space S).Holds inv where
  valid := valid_empty ids
  frontier _ hs := nomatch hs
  reached _ hs := by simp [Reached.toList_empty] at hs

variable {inv : Ids → S → Prop} {space : Space S} (holds : space.Holds inv)
include holds

theorem add {s : S} (keys : SortedSet PartitionKey) (h : inv space.ids s) :
    (space.add s keys).Holds inv where
  valid := holds.valid.add s keys
  frontier x hx := by
    rcases (mem_frontier_add holds.valid s x keys).mp hx with rfl | hx
    · exact h
    · exact holds.frontier x hx
  reached x hx := by
    rcases (mem_reached_add holds.valid s x keys).mp hx with rfl | hx
    · exact h
    · exact holds.reached x hx

theorem dropAll (l : List S) : (l.foldl Space.drop space).Holds inv := by
  obtain ⟨valid, ids, waiting, found⟩ := dropAll_spec l holds.valid
  refine ⟨valid, fun x hx => ?_, fun x hx => ?_⟩
  · exact ids ▸ holds.frontier x ((waiting x).mp hx).1
  · exact ids ▸ holds.reached x ((found x).mp hx).1

theorem withIds {ids : Ids} (grows : ∀ s, inv space.ids s → inv ids s) :
    (space.withIds ids).Holds inv where
  valid := holds.valid
  frontier x hx := grows x (holds.frontier x hx)
  reached x hx := grows x (holds.reached x hx)

theorem popped {s : S} {after : Space S} (popped : space.Popped s after) :
    after.Holds inv where
  valid := popped.valid
  frontier x hx := popped.ids ▸ holds.frontier x ((popped.frontier x).mp hx).1
  reached x hx := popped.ids ▸ holds.reached x (popped.reached ▸ hx)

end Space.Holds

namespace Analysis

theorem mem_reached_of_mem_candidates {A : Analysis S} {state r : S} {space : Space S}
    (member : r ∈ A.candidates state space) : r ∈ space.reached.toList :=
  Reached.mem_of_mem_partitionOf (List.mem_filter.mp member).1

theorem ids_replaced (A : Analysis S) (state merged : S) (absorbed : List S) {space : Space S}
    (valid : space.Valid) : (A.replaced state merged absorbed space).ids = space.ids :=
  (Space.dropAll_spec (absorbed ++ [state]) valid).2.1

theorem mem_frontier_replaced (A : Analysis S) (state merged : S) (absorbed : List S)
    {space : Space S} (valid : space.Valid) (x : S) :
    x ∈ (A.replaced state merged absorbed space).frontier.queue ↔
      x = merged ∨ x ∈ space.frontier.queue ∧ x ∉ absorbed ++ [state] := by
  obtain ⟨valid', -, waiting, -⟩ := Space.dropAll_spec (absorbed ++ [state]) valid
  rw [replaced, Space.mem_frontier_add valid', waiting]

theorem mem_reached_replaced (A : Analysis S) (state merged : S) (absorbed : List S)
    {space : Space S} (valid : space.Valid) (x : S) :
    x ∈ (A.replaced state merged absorbed space).reached.toList ↔
      x = merged ∨ x ∈ space.reached.toList ∧ x ∉ absorbed ++ [state] := by
  obtain ⟨valid', -, -, found⟩ := Space.dropAll_spec (absorbed ++ [state]) valid
  rw [replaced, Space.mem_reached_add valid', found]

theorem Merging.grows {A : Analysis S} {state : S} {space after : Space S} {r : Except Error Nat}
    (valid : space.Valid) (merging : A.Merging state space (r, after)) :
    space.ids ≤ after.ids := by
  cases merging with
  | skipped => exact Ids.le_refl _
  | failed _ ran => exact Alloc.le_of_run ran
  | alone _ ran => exact Alloc.le_of_run ran
  | merged _ _ ran =>
    rw [ids_replaced A _ _ _ (Space.valid_withIds.mpr valid)]
    exact Alloc.le_of_run ran

theorem Visited.grows {A : Analysis S} {config : RunConfig} {p : Progress S} {t : S}
    {space after : Space S} {r : Except Error (Progress S)} (valid : space.Valid)
    (visited : A.Visited config p t space (r, after)) : space.ids ≤ after.ids := by
  cases visited with
  | failed | covered | target | pending => exact Ids.le_refl _
  | merging _ _ _ _ _ merging =>
    have grown := merging.grows (valid.add _ _)
    exact grown
  | unmerged _ _ _ merging =>
    have grown := merging.grows (valid.add _ _)
    exact grown

/-- The points of an exploration: behind its start, behind each of its runs, and inside a run, when
`k` successors of a state are treated. What the runs are told is limited by `allowed`. -/
inductive Point (A : Analysis S) (program : Program) (allowed : RunConfig → Prop) :
    Space S → Prop where
  | seeded (ids : Ids) : Point A program allowed ((A.seed program).on ⟨ids, ∅, ∅⟩).2
  | ran {space : Space S} (config : RunConfig) (fuel : Nat) : allowed config →
      Point A program allowed space → Point A program allowed ((A.run config fuel).on space).2
  | amid {space popped : Space S} {s : S} {out : List S} {ids : Ids} (config : RunConfig)
      (statistics : Statistics) (k : Nat) : allowed config → Point A program allowed space →
      (A.popNext config.order).on space = (.ok (some s), popped) →
      (A.succ s).run popped.ids = (.ok out, ids) →
      Point A program allowed
        (((out.take k).foldlM (A.visit config) ⟨statistics, []⟩).on (popped.withIds ids)).2

theorem Point.first_run {A : Analysis S} {program : Program} {allowed : RunConfig → Prop}
    {config : RunConfig} {fuel : Nat} {ids : Ids} {outcome : Option (RunOutcome S)}
    {space : Space S} (ok : allowed config) (done : (do
      let _ ← A.seed program
      A.run config fuel : Explore S _).on ⟨ids, ∅, ∅⟩ = (.ok outcome, space)) :
    A.Point program allowed space := by
  have start : A.Point program allowed ((A.seed program).on ⟨ids, ∅, ∅⟩).2 := .seeded ids
  rw [Explore.on_bind] at done
  cases h : (A.seed program).on ⟨ids, ∅, ∅⟩ with | mk r after =>
  rw [h] at start done
  cases r with
  | error => exact nomatch done
  | ok =>
    have ran := start.ran config fuel ok
    have done : (A.run config fuel).on after = (.ok outcome, space) := done
    rw [done] at ran
    exact ran

namespace Invariant

variable {A : Analysis S} {program : Program} {merges widens : Prop} {inv : Ids → S → Prop}
  (keeps : A.Invariant program merges widens inv)
include keeps

theorem merging (policy : A.policy = .standard → merges) {state : S} {space after : Space S}
    {r : Except Error Nat} (holds : space.Holds inv) (h : inv space.ids state)
    (merging : A.Merging state space (r, after)) : after.Holds inv := by
  have grown {r : Except Error (S × List S)} {ids : Ids}
      (ran : (A.absorb state (A.candidates state space)).run space.ids = (r, ids)) :
      (space.withIds ids).Holds inv :=
    holds.withIds fun s h => keeps.grows h (Alloc.le_of_run ran)
  cases merging with
  | skipped => exact holds
  | failed _ ran => exact grown ran
  | alone _ ran => exact grown ran
  | @merged merged absorbed ids standard _ ran =>
    -- the candidates keep the property while numbers are drawn
    have start : inv space.ids state ∧ ∀ r ∈ A.candidates state space, inv space.ids r :=
      ⟨h, fun r hr => holds.reached r (mem_reached_of_mem_candidates hr)⟩
    have step {ids s r m after} (now : inv ids s ∧ ∀ r ∈ A.candidates state space, inv ids r)
        (member : r ∈ A.candidates state space) (should : A.shouldMerge s r = true)
        (ran : (A.merge s r).run ids = (.ok m, after)) :
        inv after m ∧ ∀ r ∈ A.candidates state space, inv after r :=
      ⟨keeps.merge (policy standard) now.1 (now.2 r member) should ran,
        fun x hx => keeps.grows (now.2 x hx) (Alloc.le_of_run ran)⟩
    have final := absorb_rule (fun ids s _ => _) step (fun _ h => h) [] start ran
    have dropped := (grown ran).dropAll (absorbed ++ [state])
    refine dropped.add _ ?_
    rw [(Space.dropAll_spec _ (grown ran).valid).2.1]
    exact final.1.1

omit [DecidableEq S] [Hashable S] in
theorem widened {config : RunConfig} (widening : config.widenSuccessors = true → widens)
    {ids : Ids} {s t : S} (h : inv ids t) (wide : A.Widens config t s) : inv ids s := by
  unfold Widens at wide
  split at wide
  · rename_i on
    exact keeps.widen (widening on) h wide
  · exact wide ▸ h

theorem visited {config : RunConfig} (policy : A.policy = .standard → merges)
    (widening : config.widenSuccessors = true → widens) {p : Progress S} {t : S}
    {space after : Space S} {r : Except Error (Progress S)} (holds : space.Holds inv)
    (h : inv space.ids t) (visited : A.Visited config p t space (r, after)) :
    after.Holds inv := by
  have widened {s : S} (wide : A.Widens config t s) : inv space.ids s :=
    keeps.widened widening h wide
  cases visited with
  | failed | covered => exact holds
  | target _ wide => exact holds.add _ (widened wide)
  | pending _ wide => exact holds.add _ (widened wide)
  | merging _ wide _ _ _ merging =>
    exact keeps.merging policy (holds.add _ (widened wide)) (widened wide) merging
  | unmerged wide _ _ merging =>
    exact keeps.merging policy (holds.add _ (widened wide)) (widened wide) merging

theorem visit {config : RunConfig} (policy : A.policy = .standard → merges)
    (widening : config.widenSuccessors = true → widens) (p : Progress S) (t : S) (rest : List S) :
    Explore.Contract (fun space => space.Holds inv ∧ ∀ x ∈ t :: rest, inv space.ids x)
      (A.visit config p t) (fun _ space => space.Holds inv ∧ ∀ x ∈ rest, inv space.ids x)
      (Space.Holds inv) := by
  rintro space ⟨holds, pending⟩
  have visited := A.visit_visited config p t space
  have h : inv space.ids t := pending t List.mem_cons_self
  cases done : (A.visit config p t).on space with | mk r after =>
  rw [done] at visited
  have kept := keeps.visited policy widening holds h visited
  cases r with
  | error => exact kept
  | ok =>
    exact ⟨kept, fun x hx =>
      keeps.grows (pending x (List.mem_cons_of_mem t hx)) (visited.grows holds.valid)⟩

theorem expand {config : RunConfig} (policy : A.policy = .standard → merges)
    (widening : config.widenSuccessors = true → widens) {statistics : Statistics} {s : S}
    {before popped : Space S} (holds : before.Holds inv) (taken : before.Popped s popped) :
    Explore.Contract (fun space => space = popped) (A.expand config statistics s)
      (fun _ space => space.Holds inv) (Space.Holds inv) := by
  have left := holds.popped taken
  have h : inv popped.ids s := taken.ids ▸ holds.frontier s taken.waited
  have grown {r : Except Error (List S)} {ids : Ids} (ran : (A.succ s).run popped.ids = (r, ids)) :
      (popped.withIds ids).Holds inv :=
    left.withIds fun s h => keeps.grows h (Alloc.le_of_run ran)
  have steps := expand_contract statistics
    (fun _ pending _ space => space.Holds inv ∧ ∀ x ∈ pending, inv space.ids x)
    (fun e ids ran => grown ran) (fun out ids ran => ⟨grown ran, keeps.succ h ran⟩)
    (fun out p t rest => keeps.visit policy widening p t rest)
  exact steps.weaken fun p space done => done.choose_spec.1

theorem run {config : RunConfig} (policy : A.policy = .standard → merges)
    (widening : config.widenSuccessors = true → widens) (fuel : Nat) :
    Explore.Contract (Space.Holds inv) (A.run config fuel) (fun _ space => space.Holds inv)
      (Space.Holds inv) := by
  have ran := runFrom_contract (fun _ => Space.Holds inv) (fun _ holds => holds.valid)
    (fun statistics s before popped holds taken =>
      (keeps.expand policy widening holds taken).weaken fun p space kept =>
        ⟨fun _ => kept, fun _ => kept⟩) fuel {}
  exact ran.weaken fun _ _ => Ended.kept

theorem seed (ids : Ids) :
    Explore.Contract (fun space => space = ⟨ids, ∅, ∅⟩) (A.seed program)
      (fun _ space => space.Holds inv) (Space.Holds inv) := by
  have added : Explore.Contract (fun space => space = ⟨ids, ∅, ∅⟩) (A.seed program)
      (fun _ space => ∃ _ : List S, space.Holds inv ∧ ∀ x ∈ [], inv space.ids x)
      (Space.Holds inv) := by
    refine seed_contract (fun _ pending space => space.Holds inv ∧ ∀ x ∈ pending, inv space.ids x)
      (fun _ after _ => .empty after) (fun out after ran => ⟨.empty after, keeps.initial ran⟩) ?_
    rintro out s rest before ⟨holds, pending⟩
    have later : ∀ x ∈ rest, inv before.ids x := fun x hx => pending x (List.mem_cons_of_mem s hx)
    split
    · exact ⟨holds, later⟩
    · exact ⟨holds.add _ (pending s List.mem_cons_self), later⟩
  exact added.weaken fun _ space done => done.choose_spec.1

theorem point {allowed : RunConfig → Prop} (policy : A.policy = .standard → merges)
    (widening : ∀ config, allowed config → config.widenSuccessors = true → widens)
    {space : Space S} (point : A.Point program allowed space) : space.Holds inv := by
  induction point with
  | seeded ids => exact (keeps.seed ids).always rfl
  | ran config fuel ok _ holds => exact (keeps.run policy (widening config ok) fuel).always holds
  | @amid space popped s out ids config statistics k ok _ pops succ holds =>
    have taken : space.Popped s popped := by
      rcases A.popNext_cases config.order holds.valid with ⟨none, -⟩ | ⟨s', after, some, taken⟩
      · rw [none] at pops
        exact nomatch pops
      · rw [some] at pops
        cases pops
        exact taken
    have h : inv popped.ids s := taken.ids ▸ holds.frontier s taken.waited
    have treated : Explore.Contract
        (fun space => space.Holds inv ∧ ∀ x ∈ out.take k, inv space.ids x)
        ((out.take k).foldlM (A.visit config) ⟨statistics, []⟩)
        (fun _ space => space.Holds inv ∧ ∀ x ∈ [], inv space.ids x) (Space.Holds inv) :=
      .foldlM (fun pending _ space => space.Holds inv ∧ ∀ x ∈ pending, inv space.ids x)
        (keeps.visit policy (widening config ok))
    refine (treated.weaken fun _ _ kept => kept.1).always ⟨?_, fun x hx => ?_⟩
    · exact (holds.popped taken).withIds fun s h => keeps.grows h (Alloc.le_of_run succ)
    · exact keeps.succ h succ x (List.mem_of_mem_take hx)

end Invariant
end Analysis
end ActorAnalysis
