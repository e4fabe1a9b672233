import ActorAnalysis.Leaf.Table
import ActorAnalysis.Proofs.Run.Loop

namespace ActorAnalysis

namespace Analysis

variable {S : Type} [DecidableEq S] [Hashable S] {A : Analysis S} {config : RunConfig}
  {statistics : Statistics} {fuel : Nat} {space after : Space S} {s t : S}

theorem seed_one {program : Program} {ids after : Ids}
    (initial : (A.initial program).run ids = (.ok [s], after)) :
    ∃ count, (A.seed program).on ⟨ids, ∅, ∅⟩ =
      (.ok count, (⟨after, ∅, ∅⟩ : Space S).add s (A.keys s)) := by
  obtain ⟨count, added⟩ := A.addInitial_on 0 s ⟨after, ∅, ∅⟩
  have new : (⟨after, ∅, ∅⟩ : Space S).reached.contains s = false := Std.HashMap.contains_empty
  refine ⟨count, ?_⟩
  unfold seed
  rw [Explore.on_bind, Explore.on_draw_ok initial, Explore.next_ok, List.foldlM_cons,
    Explore.on_bind]
  have added : (A.addInitial 0 s).on ((⟨ids, ∅, ∅⟩ : Space S).withIds after) = _ := added
  rw [added, new]
  rfl

theorem queue_add (valid : space.Valid) (empty : space.frontier.queue = [])
    (keys : SortedSet PartitionKey) : (space.add s keys).frontier.queue = [s] := by
  have new : space.frontier.contains s = false := by
    refine Bool.eq_false_iff.mpr fun waits => ?_
    have waits := (valid.1.members s).mp waits
    rw [empty] at waits
    exact nomatch waits
  unfold Space.add Frontier.push
  dsimp only
  rw [new, if_neg nofun, empty]
  rfl

theorem popNext_one (valid : space.Valid) (alone : space.frontier.queue = [s])
    (order : FrontierOrder) :
    ∃ popped, (A.popNext order).on space = (.ok (some s), popped) ∧ space.Popped s popped ∧
      popped.frontier.queue = [] := by
  rcases A.popNext_cases order valid with ⟨-, empty⟩ | ⟨s', popped, pops, taken⟩
  · rw [alone] at empty
    exact nomatch empty
  · have waited := taken.waited
    rw [alone] at waited
    obtain rfl : s' = s := List.mem_singleton.mp waited
    refine ⟨popped, pops, taken, List.eq_nil_iff_forall_not_mem.mpr fun x hx => ?_⟩
    have old := (taken.frontier x).mp hx
    rw [alone] at old
    exact old.2 (List.mem_singleton.mp old.1)

theorem popNext_fifo {rest : List S} (valid : space.Valid)
    (waits : space.frontier.queue = s :: rest) :
    ∃ popped, (A.popNext .fifo).on space = (.ok (some s), popped) ∧ space.Popped s popped ∧
      popped.frontier.queue = rest := by
  have pops : (A.popNext .fifo).on space = (.ok (some s),
      { space with frontier := ⟨rest, space.frontier.members.erase s⟩ }) := by
    change (Explore.pop Frontier.popFront?).on space = _
    unfold Explore.pop Frontier.popFront?
    simp only [waits]
  rcases A.popNext_cases .fifo valid with ⟨done, -⟩ | ⟨s', popped, done, taken⟩
  · simp [done] at pops
  · obtain ⟨⟨⟩, rfl⟩ := Prod.mk.inj (done.symm.trans pops)
    exact ⟨_, pops, taken, rfl⟩

theorem popNext_on (A : Analysis S) (order : FrontierOrder) (space : Space S) :
    (A.popNext order).on space = (.ok none, space) ∨
      ∃ s popped, (A.popNext order).on space = (.ok (some s), popped) := by
  unfold popNext Explore.pop
  dsimp only
  split
  · exact .inl rfl
  · exact .inr ⟨_, _, rfl⟩

section Step

variable (statistics : Statistics) (fuel : Nat)

theorem runFrom_bound (bounded : atBound config statistics = true)
    (waits : space.frontier.isEmpty = false) :
    (A.runFrom config (fuel + 1) statistics).on space =
      (.ok (some ⟨.iterationBound, statistics⟩), space) := by
  simp [runFrom, bounded, waits]

theorem runFrom_done (goesOn : (atBound config statistics && !space.frontier.isEmpty) = false)
    (pops : (A.popNext config.order).on space = (.ok none, space)) :
    (A.runFrom config (fuel + 1) statistics).on space =
      (.ok (some ⟨.completed, statistics⟩), space) := by
  rw [runFrom, Explore.on_bind, Explore.on_frontier, Explore.next_ok, goesOn, if_neg nofun,
    Explore.on_bind, pops]
  rfl

theorem runFrom_next {popped : Space S}
    (goesOn : (atBound config statistics && !space.frontier.isEmpty) = false)
    (pops : (A.popNext config.order).on space = (.ok (some s), popped)) :
    (A.runFrom config (fuel + 1) statistics).on space = Explore.next
      (fun p => if p.targets.isEmpty then A.runFrom config fuel p.statistics
        else pure (some ⟨.targetsFound p.targets, p.statistics⟩))
      ((A.expand config { statistics with iterations := statistics.iterations + 1 } s).on
        popped) := by
  rw [runFrom, Explore.on_bind, Explore.on_frontier, Explore.next_ok, goesOn, if_neg nofun,
    Explore.on_bind, pops]
  rfl

end Step

theorem atBound_none (statistics : Statistics) (within : config.maxIterations = none) :
    atBound config statistics = false := by
  simp only [atBound, within]

theorem runFrom_empty (valid : space.Valid) (empty : space.frontier.queue = []) :
    (A.runFrom config (fuel + 1) statistics).on space =
      (.ok (some ⟨.completed, statistics⟩), space) := by
  apply runFrom_done
  · simp [Frontier.isEmpty, empty]
  · rcases A.popNext_cases config.order valid with ⟨pops, -⟩ | ⟨s, popped, -, taken⟩
    · exact pops
    · have waited := taken.waited
      rw [empty] at waited
      exact absurd waited List.not_mem_nil

theorem runFrom_pop (statistics : Statistics) (fuel : Nat) {popped : Space S} {p : Progress S}
    (within : config.maxIterations = none)
    (pops : (A.popNext config.order).on space = (.ok (some s), popped))
    (expands : (A.expand config { statistics with iterations := statistics.iterations + 1 } s).on
      popped = (.ok p, after)) :
    (A.runFrom config (fuel + 1) statistics).on space =
      (if p.targets.isEmpty then A.runFrom config fuel p.statistics
        else pure (some ⟨.targetsFound p.targets, p.statistics⟩) : Explore S _).on after := by
  have goesOn : (atBound config statistics && !space.frontier.isEmpty) = false := by
    rw [atBound_none statistics within, Bool.false_and]
  rw [runFrom_next statistics fuel goesOn pops, expands, Explore.next_ok]

theorem runFrom_fails (statistics : Statistics) (fuel : Nat) {popped : Space S} {e : Error}
    (within : config.maxIterations = none)
    (pops : (A.popNext config.order).on space = (.ok (some s), popped))
    (fails : (A.expand config { statistics with iterations := statistics.iterations + 1 } s).on
      popped = (.error e, after)) :
    (A.runFrom config (fuel + 1) statistics).on space = (.error e, after) := by
  have goesOn : (atBound config statistics && !space.frontier.isEmpty) = false := by
    rw [atBound_none statistics within, Bool.false_and]
  rw [runFrom_next statistics fuel goesOn pops, fails, Explore.next_error]

theorem visit_fails (p : Progress S) {e : Error} (widens : config.widenSuccessors = true)
    (fails : A.widen t = .error e) : (A.visit config p t).on space = (.error e, space) := by
  unfold visit
  dsimp only
  rw [if_pos widens, Explore.on_bind, fails]
  rfl

theorem expand_leaf {ids : Ids} (succ : (A.succ s).run space.ids = (.ok [], ids)) :
    (A.expand config statistics s).on space = (.ok ⟨statistics, []⟩, space.withIds ids) := by
  unfold expand
  rw [Explore.on_bind, Explore.on_draw_ok succ]
  rfl

theorem expand_single {ids : Ids} (succ : (A.succ s).run space.ids = (.ok [t], ids)) :
    (A.expand config statistics s).on space =
      (A.visit config ⟨statistics, []⟩ t).on (space.withIds ids) := by
  unfold expand
  rw [Explore.on_bind, Explore.on_draw_ok succ, Explore.next_ok, List.foldlM_cons]
  simp only [List.foldlM_nil, bind_pure]

theorem expand_one {ids : Ids} (plain : config.widenSuccessors = false)
    (unmerged : A.policy = .never) (succ : (A.succ s).run space.ids = (.ok [t], ids))
    (new : A.stop t (space.reached.partitionOf (A.keys t)) = false) :
    ∃ statistics', (A.expand config statistics s).on space =
      (.ok ⟨statistics', if !(A.target t).isEmpty && config.stopOnFirstTarget then [t] else []⟩,
        (space.withIds ids).add t (A.keys t)) := by
  rw [expand_single succ]
  have visited := A.visit_visited config ⟨statistics, []⟩ t (space.withIds ids)
  generalize (A.visit config ⟨statistics, []⟩ t).on (space.withIds ids) = ended at visited ⊢
  cases visited with
  | failed widens => simp [plain] at widens
  | covered _ wide stop =>
    obtain rfl := wide.eq_of_plain plain
    rw [Space.reached_withIds, new] at stop
    exact absurd stop Bool.false_ne_true
  | target statistics' wide _ violates halts =>
    obtain rfl := wide.eq_of_plain plain
    rw [violates, halts]
    exact ⟨statistics', rfl⟩
  | pending _ _ _ _ some => exact absurd rfl some
  | merging statistics' wide _ goesOn _ merging =>
    obtain rfl := wide.eq_of_plain plain
    rw [if_neg (by rcases goesOn with h | h <;> simp [h])]
    cases merging with
    | skipped => exact ⟨statistics', rfl⟩
    | alone standard | merged standard => simp [unmerged] at standard
  | unmerged _ _ _ merging =>
    cases merging with
    | failed standard => simp [unmerged] at standard

theorem runFrom_leaf (config : RunConfig) (fuel : Nat) (statistics : Statistics) {ids : Ids}
    (valid : space.Valid) (alone : space.frontier.queue = [s])
    (within : config.maxIterations = none) (succ : (A.succ s).run space.ids = (.ok [], ids)) :
    ∃ statistics' after, (A.runFrom config (fuel + 2) statistics).on space =
      (.ok (some ⟨.completed, statistics'⟩), after) ∧ after.reached = space.reached ∧
        after.frontier.queue = [] := by
  obtain ⟨popped, pops, taken, empty⟩ := popNext_one (A := A) valid alone config.order
  rw [← taken.ids] at succ
  have goesOn := runFrom_pop statistics (fuel + 1) within pops (expand_leaf succ)
  exact ⟨_, popped.withIds ids, goesOn.trans (runFrom_empty taken.valid empty), taken.reached,
    empty⟩

/-- The only state in the frontier has one successor, which is new and has none itself. -/
theorem runFrom_chain (config : RunConfig) (fuel : Nat) (statistics : Statistics) {ids last : Ids}
    (valid : space.Valid) (alone : space.frontier.queue = [s])
    (within : config.maxIterations = none) (plain : config.widenSuccessors = false)
    (goesOn : config.stopOnFirstTarget = false) (unmerged : A.policy = .never)
    (succ : (A.succ s).run space.ids = (.ok [t], ids))
    (new : ∀ l, (∀ r ∈ l, r ∈ space.reached.toList) → A.stop t l = false)
    (leaf : (A.succ t).run ids = (.ok [], last)) :
    ∃ statistics' after, (A.runFrom config (fuel + 3) statistics).on space =
      (.ok (some ⟨.completed, statistics'⟩), after) ∧ t ∈ after.reached.toList := by
  obtain ⟨popped, pops, taken, empty⟩ := popNext_one (A := A) valid alone config.order
  have new : A.stop t (popped.reached.partitionOf (A.keys t)) = false :=
    new _ fun r hr => taken.reached ▸ Reached.mem_of_mem_partitionOf hr
  rw [← taken.ids] at succ
  obtain ⟨statistics', expands⟩ := expand_one plain unmerged succ new
  rw [goesOn, Bool.and_false, if_neg nofun] at expands
  have valid : (popped.withIds ids).Valid := taken.valid
  obtain ⟨statistics'', after, ends, same, -⟩ := runFrom_leaf config fuel statistics'
    (valid.add t (A.keys t)) (queue_add valid empty (A.keys t)) within leaf
  refine ⟨statistics'', after, (runFrom_pop statistics _ within pops expands).trans ends, ?_⟩
  rw [same]
  exact (Space.mem_reached_add valid t t (A.keys t)).mpr (.inl rfl)

/-- The only state in the frontier has one successor, which is new and violates something. -/
theorem runFrom_target (config : RunConfig) (fuel : Nat) (statistics : Statistics) {ids : Ids}
    (valid : space.Valid) (alone : space.frontier.queue = [s])
    (within : config.maxIterations = none) (plain : config.widenSuccessors = false)
    (halts : config.stopOnFirstTarget = true) (unmerged : A.policy = .never)
    (succ : (A.succ s).run space.ids = (.ok [t], ids))
    (new : ∀ l, (∀ r ∈ l, r ∈ space.reached.toList) → A.stop t l = false)
    (violates : (A.target t).isEmpty = false) :
    ∃ statistics' after, (A.runFrom config (fuel + 1) statistics).on space =
      (.ok (some ⟨.targetsFound [t], statistics'⟩), after) ∧ after.Valid ∧ after.ids = ids ∧
        after.frontier.queue = [t] ∧
        ∀ x, x ∈ after.reached.toList ↔ x = t ∨ x ∈ space.reached.toList := by
  obtain ⟨popped, pops, taken, empty⟩ := popNext_one (A := A) valid alone config.order
  have new : A.stop t (popped.reached.partitionOf (A.keys t)) = false :=
    new _ fun r hr => taken.reached ▸ Reached.mem_of_mem_partitionOf hr
  rw [← taken.ids] at succ
  obtain ⟨statistics', expands⟩ := expand_one plain unmerged succ new
  rw [violates, halts] at expands
  have valid : (popped.withIds ids).Valid := taken.valid
  refine ⟨statistics', _, runFrom_pop statistics fuel within pops expands, valid.add t (A.keys t),
    rfl, queue_add valid empty (A.keys t), fun x => ?_⟩
  rw [Space.mem_reached_add valid, Space.reached_withIds, taken.reached]

end Analysis

namespace Chain

def property : Property := ⟨"end", by decide⟩

/-- The first state leads to the second one, which violates the property and cannot be widened. -/
def table : Table where
  initial := [0]
  succ := (∅ : SortedMap Nat (List Nat)).insert 0 [1]
  targets := (∅ : SortedMap Nat (SortedSet Property)).insert 1 (.singleton property)
  keys := ∅
  order := ∅
  widened := ∅
  mergeMod := 0
  mergeWithin := none
  mergeOp := .larger
  stopGe := false
  policy := .never
  spurious := none
  errors := (∅ : SortedMap Nat String).insert 1 "widen"

theorem distinct : (relationIds []).Nodup := .nil

def program : Program := ⟨[], ∅, distinct⟩

abbrev analysis : Analysis Table.State := table.analysis

abbrev first : Table.State := ⟨0⟩

abbrev last : Table.State := ⟨1⟩

abbrev other : Table.State := ⟨2⟩

def seeded : Space Table.State := (⟨.start, ∅, ∅⟩ : Space Table.State).add first (analysis.keys first)

theorem valid_seeded : seeded.Valid := (Space.valid_empty _).add first (analysis.keys first)

theorem queue_seeded : seeded.frontier.queue = [first] :=
  Analysis.queue_add (Space.valid_empty _) rfl (analysis.keys first)

theorem seed_on : ∃ count, (analysis.seed program).on ⟨.start, ∅, ∅⟩ = (.ok count, seeded) :=
  Analysis.seed_one (show (analysis.initial program).run .start = (.ok [first], .start) from rfl)

theorem succ_first : (analysis.succ first).run .start = (.ok [last], .start) := rfl

theorem succ_last : (analysis.succ last).run .start = (.ok [], .start) := rfl

theorem stop_last {l : List Table.State} (apart : ∀ r ∈ l, r ≠ last) :
    analysis.stop last l = false := by
  apply List.any_eq_false.mpr
  intro r hr
  simp [table, apart r hr]

theorem new_last (l : List Table.State) (inside : ∀ r ∈ l, r ∈ seeded.reached.toList) :
    analysis.stop last l = false := by
  apply stop_last
  intro r hr
  have reached := inside r hr
  unfold seeded at reached
  rw [Space.mem_reached_add (Space.valid_empty _), Reached.toList_empty] at reached
  rw [reached.resolve_right List.not_mem_nil]
  decide

end Chain
end ActorAnalysis
