import ActorAnalysis.Leaf.Table
import ActorAnalysis.Proofs.Run.Trace
import ActorAnalysis.Proofs.Space.Partition

/-! Explorations without merging, paused and resumed at will. Between their runs, every reached
state that no longer waits has been expanded for good: each of its successors is reached or
covered, even though it was looked up when fewer states were known. -/
namespace ActorAnalysis

variable {S : Type} [DecidableEq S] [Hashable S]

namespace Analysis

def SuccPure (A : Analysis S) : Prop :=
  ∀ s ids ids', ((A.succ s).run ids).1 = ((A.succ s).run ids').1

def StopMonotone (A : Analysis S) : Prop :=
  ∀ s l l', l.Sublist l' → A.stop s l = true → A.stop s l' = true

/-- The successor, widened on demand, is reached or covered. -/
def Answered (A : Analysis S) (widening : Bool) (reached : Reached S) (successor : S) : Prop :=
  ∃ t, (if widening then A.widen successor else .ok successor) = .ok t ∧
    (t ∈ reached.toList ∨ A.stop t (reached.partitionOf (A.keys t)) = true)

def Expanded (A : Analysis S) (widening : Bool) (reached : Reached S) (s : S) : Prop :=
  ∀ ids, ∃ out after, (A.succ s).run ids = (.ok out, after) ∧
    ∀ t ∈ out, A.Answered widening reached t

/-- The spaces between the runs of an exploration. It starts with empty sets; every run ends, and
all of them widen, or none. -/
inductive Explored (A : Analysis S) (program : Program) (widening : Bool) : Space S → Prop where
  | seeded {ids : Ids} {count : Nat} {space : Space S} :
      (A.seed program).on ⟨ids, ∅, ∅⟩ = (.ok count, space) → Explored A program widening space
  | ran {config : RunConfig} {fuel : Nat} {outcome : RunOutcome S} {space after : Space S} :
      Explored A program widening space → config.widenSuccessors = widening →
      (A.run config fuel).on space = (.ok (some outcome), after) →
      Explored A program widening after

theorem Answered.insert {A : Analysis S} {widening : Bool} {reached : Reached S} {successor : S}
    (monotone : A.StopMonotone) (valid : reached.Valid) (indexed : reached.Indexed)
    (answered : A.Answered widening reached successor) (s : S) (keys : SortedSet PartitionKey) :
    A.Answered widening (reached.insert s keys).2 successor := by
  obtain ⟨t, widened, found | covered⟩ := answered
  · exact ⟨t, widened, .inl ((Reached.mem_insert valid s keys t).mpr (.inr found))⟩
  · have more := Reached.partitionOf_insert indexed s keys (A.keys t)
    exact ⟨t, widened, .inr (monotone t _ _ more covered)⟩

omit [DecidableEq S] [Hashable S] in
theorem SuccPure.run_ok {A : Analysis S} (pure : A.SuccPure) {s : S} {ids after : Ids}
    {out : List S} (ran : (A.succ s).run ids = (.ok out, after)) (first : Ids) :
    ∃ last, (A.succ s).run first = (.ok out, last) := by
  have same := pure s first ids
  rw [ran] at same
  exact ⟨((A.succ s).run first).2, Prod.ext same rfl⟩

omit [DecidableEq S] [Hashable S] in
theorem widens_iff (A : Analysis S) (config : RunConfig) (successor t : S) :
    A.Widens config successor t ↔
      (if config.widenSuccessors then A.widen successor else .ok successor) = .ok t := by
  unfold Widens
  split
  · rfl
  · constructor
    · intro same
      rw [same]
    · intro same
      exact (Except.ok.inj same).symm

end Analysis

/-- Every reached state that does not wait has been expanded. The successors in `pending` are still
to be answered. -/
structure Space.Closed (A : Analysis S) (widening : Bool) (pending : List S) (space : Space S) :
    Prop where
  valid : space.Valid
  indexed : space.reached.Indexed
  expanded : ∀ s ∈ space.reached.toList, s ∉ space.frontier.queue →
    ∀ ids, ∃ out after, (A.succ s).run ids = (.ok out, after) ∧
      ∀ t ∈ out, t ∈ pending ∨ A.Answered widening space.reached t

namespace Space.Closed

variable {A : Analysis S} {widening : Bool} {t : S} {rest : List S} {space : Space S}

theorem settle (closed : space.Closed A widening (t :: rest))
    (answered : A.Answered widening space.reached t) : space.Closed A widening rest where
  valid := closed.valid
  indexed := closed.indexed
  expanded s reached gone ids := by
    obtain ⟨out, after, done, found⟩ := closed.expanded s reached gone ids
    refine ⟨out, after, done, fun u hu => ?_⟩
    rcases found u hu with pending | settled
    · rcases List.mem_cons.mp pending with rfl | later
      · exact .inr answered
      · exact .inl later
    · exact .inr settled

theorem add {pending : List S} (monotone : A.StopMonotone)
    (closed : space.Closed A widening pending) (s : S) (keys : SortedSet PartitionKey) :
    (space.add s keys).Closed A widening pending where
  valid := closed.valid.add s keys
  indexed := Reached.indexed_insert closed.indexed s keys
  expanded r reached gone ids := by
    rw [mem_frontier_add closed.valid, not_or] at gone
    have old := ((mem_reached_add closed.valid s r keys).mp reached).resolve_left gone.1
    obtain ⟨out, after, done, found⟩ := closed.expanded r old gone.2 ids
    refine ⟨out, after, done, fun u hu => ?_⟩
    rcases found u hu with pending | settled
    · exact .inl pending
    · exact .inr (settled.insert monotone closed.valid.2 closed.indexed s keys)

end Space.Closed

namespace Analysis

variable {A : Analysis S} (pure : A.SuccPure) (never : A.policy = .never)
  (monotone : A.StopMonotone)

include never monotone in
theorem visit_closed (config : RunConfig) (p : Progress S) (t : S) (rest : List S) :
    Explore.Contract (Space.Closed A config.widenSuccessors (t :: rest)) (A.visit config p t)
      (fun _ => Space.Closed A config.widenSuccessors rest) (fun _ => True) := by
  intro space closed
  -- a successor that is not covered is reached as soon as it is added
  have added {s : S} (wide : A.Widens config t s) :
      (space.add s (A.keys s)).Closed A config.widenSuccessors rest := by
    apply (closed.add monotone s (A.keys s)).settle
    refine ⟨s, (A.widens_iff config t s).mp wide, .inl ?_⟩
    exact (Space.mem_reached_add closed.valid s s (A.keys s)).mpr (.inl rfl)
  have visited := A.visit_visited config p t space
  cases done : (A.visit config p t).on space with | mk r after =>
  rw [done] at visited
  cases visited with
  | failed => trivial
  | unmerged => trivial
  | covered _ wide stop => exact closed.settle ⟨_, (A.widens_iff config t _).mp wide, .inr stop⟩
  | target _ wide => exact added wide
  | pending _ wide => exact added wide
  | merging _ wide _ _ _ merging =>
    cases merging with
    | skipped => exact added wide
    | alone standard => simp [never] at standard
    | merged standard => simp [never] at standard

include pure never monotone in
theorem expand_closed (config : RunConfig) (statistics : Statistics) {s : S}
    {before popped : Space S} (closed : before.Closed A config.widenSuccessors [])
    (taken : before.Popped s popped) :
    Explore.Contract (fun space => space = popped) (A.expand config statistics s)
      (fun _ => Space.Closed A config.widenSuccessors []) (fun _ => True) := by
  have start (out : List S) (ids : Ids) (ran : (A.succ s).run popped.ids = (.ok out, ids)) :
      (popped.withIds ids).Closed A config.widenSuccessors out := by
    refine ⟨taken.valid, taken.reached ▸ closed.indexed, fun r reached gone first => ?_⟩
    by_cases same : r = s
    · -- all successors of the expanded state are pending
      subst same
      obtain ⟨last, given⟩ := pure.run_ok ran first
      exact ⟨out, last, given, fun u hu => .inl hu⟩
    · have reached : r ∈ before.reached.toList := taken.reached ▸ reached
      have gone : r ∉ before.frontier.queue := fun waits =>
        gone ((taken.frontier r).mpr ⟨waits, same⟩)
      obtain ⟨out', after, done, found⟩ := closed.expanded r reached gone first
      refine ⟨out', after, done, fun u hu => .inr ?_⟩
      exact taken.reached ▸ (found u hu).resolve_left List.not_mem_nil
  have steps : Explore.Contract (fun space => space = popped) (A.expand config statistics s)
      (fun _ space => ∃ _ : List S, space.Closed A config.widenSuccessors []) (fun _ => True) :=
    expand_contract statistics
      (fun _ pending _ space => space.Closed A config.widenSuccessors pending)
      (fun _ _ _ => trivial) start (fun _ p t rest => visit_closed never monotone config p t rest)
  exact steps.weaken fun _ _ done => done.choose_spec

include pure never monotone in
theorem run_closed (config : RunConfig) (fuel : Nat) :
    Explore.Contract (Space.Closed A config.widenSuccessors []) (A.run config fuel)
      (Ended (Space.Closed A config.widenSuccessors [])
        (fun _ => Space.Closed A config.widenSuccessors [])) (fun _ => True) :=
  runFrom_contract _ (fun _ closed => closed.valid)
    (fun statistics _ _ _ closed taken =>
      (expand_closed pure never monotone config statistics closed taken).weaken
        fun _ _ kept => ⟨fun _ => kept, fun _ => kept⟩) fuel {}

/-- While initial states are added, all reached states wait. -/
theorem seed_closed (A : Analysis S) (program : Program) (widening : Bool) (ids : Ids) :
    Explore.Contract (fun space => space = ⟨ids, ∅, ∅⟩) (A.seed program)
      (fun _ => Space.Closed A widening []) (fun _ => True) := by
  have seeded : Explore.Contract (fun space => space = ⟨ids, ∅, ∅⟩) (A.seed program)
      (fun _ space => ∃ _ : List S, space.Valid ∧ space.reached.Indexed ∧
        ∀ r ∈ space.reached.toList, r ∈ space.frontier.queue) (fun _ => True) := by
    apply seed_contract (fun _ _ space => space.Valid ∧ space.reached.Indexed ∧
      ∀ r ∈ space.reached.toList, r ∈ space.frontier.queue)
    · intro _ _ _
      trivial
    · intro out after _
      exact ⟨Space.valid_empty ids, Reached.indexed_empty, fun r hr => by simp at hr⟩
    · rintro out s rest before ⟨valid, indexed, waits⟩
      split
      · exact ⟨valid, indexed, waits⟩
      · refine ⟨valid.add s _, Reached.indexed_insert indexed s _, fun r hr => ?_⟩
        rw [Space.mem_frontier_add valid]
        exact ((Space.mem_reached_add valid s r _).mp hr).imp_right (waits r)
  apply seeded.weaken
  rintro _ space ⟨_, valid, indexed, waits⟩
  exact ⟨valid, indexed, fun r hr gone => absurd (waits r hr) gone⟩

include pure never monotone in
theorem Explored.closed {program : Program} {widening : Bool} {space : Space S}
    (explored : A.Explored program widening space) : space.Closed A widening [] := by
  induction explored with
  | seeded done => exact (A.seed_closed program widening _).ok rfl done
  | @ran config fuel outcome space after _ widens done closed =>
    subst widens
    exact Ended.kept ((run_closed pure never monotone config fuel).ok closed done)

/-- Between the runs of an exploration, each successor of a reached state that does not wait is
reached or covered. Behind a run that completes, this holds of all reached states. -/
theorem expanded_between_runs (pure : A.SuccPure) (never : A.policy = .never)
    (monotone : A.StopMonotone) {program : Program} {widening : Bool} {space : Space S}
    (explored : A.Explored program widening space) :
    (∀ s ∈ space.reached.toList, s ∉ space.frontier.queue →
      A.Expanded widening space.reached s) ∧
    ∀ config fuel statistics after, config.widenSuccessors = widening →
      (A.run config fuel).on space = (.ok (some ⟨.completed, statistics⟩), after) →
      ∀ s ∈ after.reached.toList, A.Expanded widening after.reached s := by
  have expanded {space : Space S} (closed : space.Closed A widening []) (s : S)
      (reached : s ∈ space.reached.toList) (gone : s ∉ space.frontier.queue) :
      A.Expanded widening space.reached s := by
    intro ids
    obtain ⟨out, after, done, found⟩ := closed.expanded s reached gone ids
    exact ⟨out, after, done, fun t ht => (found t ht).resolve_left List.not_mem_nil⟩
  have closed := explored.closed pure never monotone
  refine ⟨expanded closed, fun config fuel statistics after widens done s reached => ?_⟩
  subst widens
  obtain ⟨closed, exhausted⟩ := (run_closed pure never monotone config fuel).ok closed done
  exact expanded closed s reached (by simp [exhausted])

end Analysis

/-- A run halts at the violation, and the next one completes. -/
theorem Chain.expanded_at_end : ∃ space statistics after,
    analysis.Explored program false space ∧
    (analysis.run ⟨.lifo, none, false, false⟩ 2).on space =
      (.ok (some ⟨.completed, statistics⟩), after) ∧
    ∀ s ∈ after.reached.toList, analysis.Expanded false after.reached s := by
  obtain ⟨count, starts⟩ := seed_on
  obtain ⟨statistics, space, halts, valid, ids, waits, -⟩ := Analysis.runFrom_target
    ⟨.fifo, none, true, false⟩ 0 {} valid_seeded queue_seeded rfl rfl rfl rfl succ_first new_last
    (by decide)
  have explored : analysis.Explored program false space := .ran (.seeded starts) rfl halts
  obtain ⟨statistics', after, ends, -⟩ := Analysis.runFrom_leaf (A := analysis)
    ⟨.lifo, none, false, false⟩ 0 {} valid waits rfl (ids ▸ succ_last)
  have pure : analysis.SuccPure := by
    intro s ids ids'
    change (Alloc.next _ (table.guard "succ" s, ids)).1 =
      (Alloc.next _ (table.guard "succ" s, ids')).1
    cases table.guard "succ" s <;> rfl
  have monotone : analysis.StopMonotone := by
    intro s l l' fewer stop
    obtain ⟨r, hr, same⟩ := List.any_eq_true.mp stop
    exact List.any_eq_true.mpr ⟨r, fewer.subset hr, same⟩
  have expanded := Analysis.expanded_between_runs pure rfl monotone explored
  exact ⟨space, statistics', after, explored, ends, expanded.2 _ 2 statistics' after rfl ends⟩

end ActorAnalysis
