import ActorAnalysis.Proofs.Run.Tally
import ActorAnalysis.Proofs.Run.Targets

/-! What a run reports that halts at violations. The successors of a state are looked up one after
the other, while those before them are added and merged; so each look-up meets other reached states.
From the first violation on nothing is merged any more, and every violation that is not covered by
then is reported, and still waits when the run halts. -/
namespace ActorAnalysis

variable {S : Type} [DecidableEq S] [Hashable S]

namespace Analysis

def reports (A : Analysis S) (l : Lookup S) : Bool :=
  !A.stop l.state (l.reached.partitionOf (A.keys l.state)) && A.violates l.state

def reported (A : Analysis S) (looked : List (Lookup S)) : List S :=
  (looked.filter A.reports).map Lookup.state

variable {A : Analysis S} {config : RunConfig}

omit [DecidableEq S] [Hashable S] in
theorem Widens.unique {t s s' : S} (wide : A.Widens config t s) (wide' : A.Widens config t s') :
    s = s' := by
  rw [widens_iff] at wide wide'
  exact Except.ok.inj (wide.symm.trans wide')

theorem reported_append (A : Analysis S) (looked more : List (Lookup S)) :
    A.reported (looked ++ more) = A.reported looked ++ A.reported more := by
  simp [reported]

theorem reported_covered {l : Lookup S}
    (stop : A.stop l.state (l.reached.partitionOf (A.keys l.state)) = true) :
    A.reported [l] = [] := by
  simp [reported, reports, stop]

theorem reported_safe {l : Lookup S} (safe : (A.target l.state).isEmpty = true) :
    A.reported [l] = [] := by
  simp [reported, reports, violates, safe]

theorem reported_violation {l : Lookup S}
    (stop : A.stop l.state (l.reached.partitionOf (A.keys l.state)) = false)
    (violates : (A.target l.state).isEmpty = false) : A.reported [l] = [l.state] := by
  simp [reported, reports, Analysis.violates, stop, violates]

section Halting

variable (halts : config.stopOnFirstTarget = true)
include halts

theorem visit_reports {p q : Progress S} {t s : S} {space after : Space S}
    (wide : A.Widens config t s) (done : (A.visit config p t).on space = (.ok q, after)) :
    q.targets = p.targets ++ A.reported [⟨s, space.reached⟩] ∧
      q.statistics.targets = p.statistics.targets + (A.reported [⟨s, space.reached⟩]).length := by
  have visited := A.visit_visited config p t space
  rw [done] at visited
  have safe {u : S} (plain : (A.target u).isEmpty = true ∨ config.stopOnFirstTarget = false) :
      (A.target u).isEmpty = true := plain.resolve_right (by simp [halts])
  cases visited with
  | covered _ same stop counts =>
    obtain rfl := wide.unique same
    rw [reported_covered stop]
    simp [counts, dropCount]
  | target _ same stop violates _ counts =>
    obtain rfl := wide.unique same
    rw [reported_violation stop violates]
    simp [counts, addCount, violates]
  | pending _ same _ plain _ counts =>
    obtain rfl := wide.unique same
    rw [reported_safe (safe plain)]
    simp [counts, addCount, safe plain]
  | merging _ same _ plain none _ counts =>
    obtain rfl := wide.unique same
    rw [reported_safe (safe plain)]
    simp [none, counts, addCount, safe plain]

theorem Treated.reports {start p : Progress S} {first after : Space S} {out : List S}
    {looked : List (Lookup S)} (treated : A.Treated config start first out looked p after) :
    p.targets = start.targets ++ A.reported looked ∧
      p.statistics.targets = start.statistics.targets + (A.reported looked).length := by
  induction treated with
  | none => simp [reported]
  | next _ wide done ih =>
    obtain ⟨targets, count⟩ := visit_reports halts wide done
    rw [reported_append]
    constructor
    · rw [targets, ih.1, List.append_assoc]
    · rw [count, ih.2, List.length_append, Nat.add_assoc]

theorem Expands.reports {n : Statistics} {before after : Space S} {s : S} {out : List S}
    {looked : List (Lookup S)} {p : Progress S}
    (expands : A.Expands config n before s out looked p after) :
    p.targets = A.reported looked ∧ p.statistics.targets = n.targets + p.targets.length := by
  obtain ⟨popped, ids, -, -, treated⟩ := expands
  obtain ⟨targets, count⟩ := treated.reports halts
  rw [List.nil_append] at targets
  exact ⟨targets, targets ▸ count⟩

end Halting

/-- A run that halts at violations reports exactly those successors of the state expanded last that
are violations and were not covered, in their order, and all of them wait in both sets. A run that
ends otherwise has added no violation. -/
theorem reported_targets_are_complete_and_pending (halts : config.stopOnFirstTarget = true)
    {space after : Space S} (valid : space.Valid) {fuel : Nat} {status : RunStatus S}
    {n : Statistics} (ran : (A.run config fuel).on space = (.ok (some ⟨status, n⟩), after)) :
    (∀ targets, status = .targetsFound targets →
      (∃ m before s out looked, A.Passes config space m before ∧
        A.Expands config m before s out looked ⟨n, targets⟩ after ∧
        targets = A.reported looked) ∧
      ∀ t ∈ targets, t ∈ after.frontier.queue ∧ t ∈ after.reached.toList) ∧
    (status = .completed ∨ status = .iterationBound → n.targets = 0) := by
  have run : Explore.Contract _ (A.run config fuel) _ (fun _ => True) :=
    runFrom_rule
      (fun _ n now => now.Reported A (fun _ => True) [] ∧ A.Passes config space n now ∧
        n.targets = 0)
      (fun targets n now => now.Reported A (fun _ => True) targets ∧
        ∃ m before s out looked, A.Passes config space m before ∧
          A.Expands config m before s out looked ⟨n, targets⟩ now)
      (fun _ _ _ h => h.1.valid)
      (fun fuel n s before popped h selects => by
        obtain ⟨reported, passes, quiet⟩ := h
        have kept := expand_keeps_reported halts (fun _ _ => trivial)
          { n with iterations := n.iterations + 1 } reported selects.taken (by simp)
        refine (kept.and (expand_expands selects)).weaken ?_
        rintro ⟨m, targets⟩ now ⟨kept, out, looked, expands⟩
        constructor
        · rintro rfl
          exact ⟨kept, passes.next expands, (expands.reports halts).2.trans quiet⟩
        · exact fun _ => ⟨kept, n, before, s, out, looked, passes, expands⟩) fuel {}
  have halted := run.ok ⟨⟨valid, fun _ _ => .inl trivial, nofun⟩, .start, rfl⟩ ran
  cases status with
  | completed => exact ⟨nofun, fun _ => halted.1.choose_spec.2.2⟩
  | iterationBound => exact ⟨nofun, fun _ => halted.1.choose_spec.2.2⟩
  | targetsFound targets =>
    obtain ⟨-, reported, m, before, s, out, looked, passes, expands⟩ := halted
    refine ⟨?_, by simp⟩
    rintro _ ⟨⟩
    refine ⟨⟨m, before, s, out, looked, passes, expands, (expands.reports halts).1⟩, fun t ht => ?_⟩
    obtain ⟨waits, found, -⟩ := reported.waiting t ht
    exact ⟨waits, found⟩

section Siblings

variable {space : Space S} {p : Progress S} {s t u m : S} {ids last : Ids}

theorem replaced_all (valid : space.Valid) {absorbed : List S}
    (all : ∀ r ∈ space.reached.toList, r ∈ absorbed ++ [t])
    (waits : ∀ r ∈ space.frontier.queue, r ∈ absorbed ++ [t]) :
    (A.replaced t m absorbed space).reached.toList = [m] ∧
      (A.replaced t m absorbed space).frontier.queue = [m] := by
  obtain ⟨valid', -, waiting, left⟩ := Space.dropAll_spec (absorbed ++ [t]) valid
  have empty : ((absorbed ++ [t]).foldl Space.drop space).reached.toList = [] := by
    apply List.eq_nil_iff_forall_not_mem.mpr
    intro r hr
    obtain ⟨old, kept⟩ := (left r).mp hr
    exact kept (all r old)
  have new : m ∉ ((absorbed ++ [t]).foldl Space.drop space).reached.toList := by
    rw [empty]
    exact List.not_mem_nil
  have idle : ((absorbed ++ [t]).foldl Space.drop space).frontier.queue = [] := by
    apply List.eq_nil_iff_forall_not_mem.mpr
    intro r hr
    obtain ⟨old, kept⟩ := (waiting r).mp hr
    exact kept (waits r old)
  refine ⟨?_, queue_add valid' idle _⟩
  unfold replaced
  rw [Space.toList_add_new valid' new, empty, List.nil_append]

variable (plain : config.widenSuccessors = false)
include plain

theorem visit_reported (halts : config.stopOnFirstTarget = true)
    (unkeyed : (A.keys t).isEmpty = true) (new : A.stop t space.reached.toList = false)
    (violates : (A.target t).isEmpty = false) :
    (A.visit config p t).on space =
      (.ok ⟨A.addCount p.statistics t, p.targets ++ [t]⟩, space.add t (A.keys t)) := by
  have all : space.reached.partitionOf (A.keys t) = space.reached.toList := by
    simp [Reached.partitionOf, unkeyed]
  unfold visit
  rw [plain]
  show (if A.stop t (space.reached.partitionOf (A.keys t)) then _ else A.accept config _ t).on
    space = _
  rw [all, new]
  show (if (!(A.target t).isEmpty && config.stopOnFirstTarget) then _ else _ : Explore S _).on
    (space.add t (A.keys t)) = _
  rw [violates, halts]
  simp [addCount, violates]

theorem visit_absorbs (valid : space.Valid) (standard : A.policy = .standard)
    (only : space.reached.toList = [s]) (idle : space.frontier.queue = []) (apart : s ≠ t)
    (unkeyed : (A.keys t).isEmpty = true) (new : A.stop t [s] = false)
    (safe : (A.target t).isEmpty = true) (none : p.targets = [])
    (should : A.shouldMerge t s = true) (merge : (A.merge t s).run space.ids = (.ok m, ids)) :
    ∃ after, (A.visit config p t).on space =
      (.ok ⟨{ A.addCount p.statistics t with merged := p.statistics.merged + 1 }, []⟩, after) ∧
        after.Valid ∧ after.ids = ids ∧ after.reached.toList = [m] ∧
        after.frontier.queue = [m] := by
  have grown := Space.toList_add_new valid (s := t) (by simp [only, apart.symm]) (A.keys t)
  rw [only] at grown
  have candidates : A.candidates t (space.add t (A.keys t)) = [s] := by
    simp [Analysis.candidates, Reached.partitionOf, unkeyed, grown, apart]
  have absorbs : (A.absorb t (A.candidates t (space.add t (A.keys t)))).run
      (space.add t (A.keys t)).ids = (.ok (m, [s]), ids) := by
    rw [candidates, Space.ids_add]
    simp only [Analysis.absorb, should, if_true, Alloc.run_bind, merge, Alloc.next_ok,
      Alloc.run_pure]
  have visited := A.visit_visited config p t space
  generalize (A.visit config p t).on space = ended at visited ⊢
  cases visited with
  | failed widens => simp [plain] at widens
  | covered _ wide stop =>
    obtain rfl := wide.eq_of_plain plain
    simp [Reached.partitionOf, unkeyed, only, new] at stop
  | target _ wide _ violates =>
    obtain rfl := wide.eq_of_plain plain
    simp [safe] at violates
  | pending _ _ _ _ some => exact absurd none some
  | unmerged wide _ _ merging =>
    obtain rfl := wide.eq_of_plain plain
    cases merging with
    | failed _ ran => cases ran.symm.trans absorbs
  | merging _ wide _ _ _ merging count =>
    obtain rfl := wide.eq_of_plain plain
    cases merging with
    | skipped never => simp [standard] at never
    | alone _ ran => cases ran.symm.trans absorbs
    | merged _ _ ran =>
      cases ran.symm.trans absorbs
      have added : ((space.add t (A.keys t)).withIds ids).Valid := valid.add t (A.keys t)
      refine ⟨A.replaced t m [s] ((space.add t (A.keys t)).withIds ids),
        by rw [count, List.length_singleton], (Space.dropAll_spec _ added).1.add m _,
        A.ids_replaced t m [s] added, replaced_all added (fun r hr => ?_) fun r hr => ?_⟩
      · rwa [Space.reached_withIds, grown] at hr
      · rw [Space.frontier_withIds, queue_add valid idle] at hr
        exact List.mem_append_right _ hr

theorem run_absorbed (fuel : Nat) {end_ : Ids} (valid : space.Valid)
    (alone : space.frontier.queue = [s]) (only : space.reached.toList = [s])
    (within : config.maxIterations = none) (standard : A.policy = .standard) (apart : s ≠ t)
    (unkeyed : (A.keys t).isEmpty = true) (succ : (A.succ s).run space.ids = (.ok [t], ids))
    (new : A.stop t [s] = false) (safe : (A.target t).isEmpty = true)
    (should : A.shouldMerge t s = true) (merge : (A.merge t s).run ids = (.ok m, last))
    (leaf : (A.succ m).run last = (.ok [], end_)) :
    ∃ n after, (A.run config (fuel + 3)).on space = (.ok (some ⟨.completed, n⟩), after) ∧
      after.reached.toList = [m] ∧ after.frontier.queue = [] := by
  obtain ⟨popped, pops, taken, idle⟩ := popNext_one (A := A) valid alone config.order
  rw [← taken.ids] at succ
  rw [← taken.reached] at only
  have valid : (popped.withIds ids).Valid := taken.valid
  obtain ⟨mid, absorbs, valid, rfl, reached, waits⟩ := visit_absorbs
    (p := ⟨{ iterations := 1 }, []⟩) plain valid standard only idle apart unkeyed new safe rfl
    should merge
  obtain ⟨n, after, ends, same, empty⟩ := runFrom_leaf config fuel _ valid waits within leaf
  have expands := (expand_single succ).trans absorbs
  refine ⟨n, after, (runFrom_pop {} (fuel + 2) within pops expands).trans ends, ?_, empty⟩
  rw [same, reached]

/-- The only state has two successors: the first one absorbs it, and the second one is a
violation. -/
theorem run_siblings (fuel : Nat) (valid : space.Valid) (alone : space.frontier.queue = [s])
    (only : space.reached.toList = [s]) (within : config.maxIterations = none)
    (halts : config.stopOnFirstTarget = true) (standard : A.policy = .standard)
    (unkeyed : (A.keys t).isEmpty = true) (unkeyed' : (A.keys u).isEmpty = true) (apart : s ≠ t)
    (succ : (A.succ s).run space.ids = (.ok [t, u], ids)) (new : A.stop t [s] = false)
    (safe : (A.target t).isEmpty = true) (should : A.shouldMerge t s = true)
    (merge : (A.merge t s).run ids = (.ok m, last)) (new' : A.stop u [m] = false)
    (violates : (A.target u).isEmpty = false) :
    ∃ after, (A.run config (fuel + 1)).on space =
      (.ok (some ⟨.targetsFound [u], ⟨1, 2, 0, 2, 1, 1⟩⟩), after) := by
  obtain ⟨popped, pops, taken, idle⟩ := popNext_one (A := A) valid alone config.order
  rw [← taken.ids] at succ
  have valid : (popped.withIds ids).Valid := taken.valid
  rw [← taken.reached] at only
  obtain ⟨mid, absorbs, -, -, merged, -⟩ := visit_absorbs (p := ⟨{ iterations := 1 }, []⟩) plain
    valid standard only idle apart unkeyed new safe rfl should merge
  have first : (A.visit config ⟨{ iterations := 1 }, []⟩ t).on (popped.withIds ids) =
      (.ok ⟨⟨1, 1, 0, 1, 1, 0⟩, []⟩, mid) := by
    simpa [addCount, safe] using absorbs
  have second : (A.visit config ⟨⟨1, 1, 0, 1, 1, 0⟩, []⟩ u).on mid =
      (.ok ⟨⟨1, 2, 0, 2, 1, 1⟩, [u]⟩, mid.add u (A.keys u)) := by
    have reports := visit_reported (p := ⟨⟨1, 1, 0, 1, 1, 0⟩, []⟩) plain halts unkeyed'
      (merged ▸ new') violates
    simpa [addCount, violates] using reports
  have expands : (A.expand config { iterations := 1 } s).on popped =
      (.ok ⟨⟨1, 2, 0, 2, 1, 1⟩, [u]⟩, mid.add u (A.keys u)) := by
    unfold expand
    rw [Explore.on_bind, Explore.on_draw_ok succ, Explore.next_ok, List.foldlM_cons,
      Explore.on_bind, first, Explore.next_ok, List.foldlM_cons, Explore.on_bind, second]
    rfl
  exact ⟨_, runFrom_pop {} fuel within pops expands⟩

end Siblings
end Analysis

namespace Siblings

/-- The first state leads to one that is merged with it and to a violation. -/
def table : Table where
  initial := [0]
  succ := (∅ : SortedMap Nat (List Nat)).insert 0 [1, 2]
  targets := (∅ : SortedMap Nat (SortedSet Property)).insert 2 (.singleton Chain.property)
  keys := ∅
  order := ∅
  widened := ∅
  mergeMod := 1
  mergeWithin := none
  mergeOp := .larger
  stopGe := false
  policy := .standard
  spurious := none
  errors := ∅

abbrev analysis : Analysis Table.State := table.analysis

def config : RunConfig := ⟨.fifo, none, true, false⟩

def seeded : Space Table.State := (⟨.start, ∅, ∅⟩ : Space Table.State).add ⟨0⟩ ∅

/-- The violation is reported, although its origin and its sibling have been merged before. -/
theorem violation_waits_behind_merge : ∃ n after,
    (analysis.run config 1).on seeded = (.ok (some ⟨.targetsFound [⟨2⟩], n⟩), after) ∧
    n.merged = 1 ∧
    (∃ m before s out looked, analysis.Passes config seeded m before ∧
      analysis.Expands config m before s out looked ⟨n, [⟨2⟩]⟩ after ∧
      [⟨2⟩] = analysis.reported looked) ∧
    ⟨2⟩ ∈ after.frontier.queue ∧ ⟨2⟩ ∈ after.reached.toList := by
  have empty : (⟨.start, ∅, ∅⟩ : Space Table.State).Valid := Space.valid_empty _
  have valid : seeded.Valid := empty.add ⟨0⟩ ∅
  have only : seeded.reached.toList = [⟨0⟩] :=
    Space.toList_add_new empty (by simp) ∅
  obtain ⟨after, ran⟩ : ∃ after, (analysis.run config 1).on seeded =
      (.ok (some ⟨.targetsFound [⟨2⟩], ⟨1, 2, 0, 2, 1, 1⟩⟩), after) :=
    Analysis.run_siblings rfl 0 valid (Analysis.queue_add empty rfl ∅) only rfl rfl rfl
      (t := ⟨1⟩) rfl rfl (by decide) rfl rfl (by decide) (by decide) (m := ⟨1⟩) rfl rfl
      (by decide)
  obtain ⟨found, -⟩ := Analysis.reported_targets_are_complete_and_pending rfl valid ran
  obtain ⟨reported, waits⟩ := found [⟨2⟩] rfl
  exact ⟨_, after, ran, rfl, reported, waits ⟨2⟩ List.mem_cons_self⟩

end Siblings
end ActorAnalysis
