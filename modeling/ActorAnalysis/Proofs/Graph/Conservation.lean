import ActorAnalysis.Proofs.Graph.Session
import ActorAnalysis.Proofs.Merging
import ActorAnalysis.Proofs.Run.Reporting
import ActorAnalysis.Proofs.Space.Listing

/-! The balance of a run over a graph. Each successor gets a number of its own, and so does each
state that is merged from two; hence no insertion meets a state that is already there, and what a
merge removes is what it counts. The counters, the size of the reached set and the numbers drawn
then add up, however many merges follow each other. -/
namespace ActorAnalysis

def Ids.drawn (ids : Ids) : Nat := ids.nodes

namespace Analysis

structure Unnumbered {W : Type} (A : Analysis W) : Prop where
  succ : ∀ s ids, ((A.succ s).run ids).2.drawn = ids.drawn
  merge : ∀ s t ids, ((A.merge s t).run ids).2.drawn = ids.drawn

/-- Successors are numbered upwards from the next number on, and two states that are merged get the
next number. -/
structure Counts {S : Type} (A : Analysis S) (id : S → Nat) : Prop where
  succ : ∀ {s ids out after}, (A.succ s).run ids = (.ok out, after) →
    out.map id = List.range' ids.drawn out.length ∧ after.drawn = ids.drawn + out.length
  merge : ∀ {s t m ids after}, (A.merge s t).run ids = (.ok m, after) →
    id m = ids.drawn ∧ after.drawn = ids.drawn + 1
  widen : ∀ {s t}, A.widen s = .ok t → id t = id s

end Analysis

namespace Node

variable {W : Type} {A : Analysis W}

theorem run_mapM_fresh_range {predecessors : SortedSet NodeId} {states : List W}
    {out : List (Node W)} {ids after : Ids}
    (done : (states.mapM (fresh A predecessors ∅)).run ids = (.ok out, after)) :
    out.map Node.id = List.range' ids.drawn out.length ∧ after.drawn = ids.drawn + out.length := by
  induction states generalizing ids out with
  | nil =>
    obtain ⟨rfl, rfl⟩ := Alloc.run_pure_ok.mp done
    simp
  | cons w rest ih =>
    rw [List.mapM_cons, Alloc.run_bind_ok] at done
    obtain ⟨n, mid, first, done⟩ := done
    rw [Alloc.run_bind_ok] at done
    obtain ⟨ns, last, others, done⟩ := done
    obtain ⟨rfl, rfl⟩ := Alloc.run_pure_ok.mp done
    obtain ⟨rfl, rfl⟩ := run_fresh_ok first
    obtain ⟨ascending, drawn⟩ := ih others
    have next : Ids.drawn { ids with nodes := ids.nodes + 1 } = ids.drawn + 1 := rfl
    rw [next] at ascending drawn
    rw [List.map_cons, List.length_cons, List.range'_succ, ascending, drawn]
    exact ⟨rfl, by omega⟩

theorem counts (config : GraphConfig) (silent : A.Unnumbered) :
    (analysis config A).Counts Node.id where
  succ := by
    intro s ids out after done
    obtain ⟨states, mid, ran, done⟩ := Alloc.run_bind_ok.mp done
    have same := silent.succ s.inner ids
    rw [ran] at same
    exact same ▸ run_mapM_fresh_range done
  merge := by
    intro s t m ids after done
    obtain ⟨inner, mid, ran, done⟩ := Alloc.run_bind_ok.mp done
    obtain ⟨rfl, rfl⟩ := run_fresh_ok done
    have same := silent.merge s.inner t.inner ids
    rw [ran] at same
    exact ⟨same, congrArg (· + 1) same⟩
  widen done := (widen_ok done).id

end Node

theorem Timed.counts {S : Type} {A : Analysis S} {id : S → Nat} (config : TimeConfig)
    (counts : A.Counts id) : (Timed.analysis config A).Counts (fun s => id s.inner) where
  succ := by
    intro s ids out after done
    obtain ⟨states, mid, ran, done⟩ := Alloc.run_bind_ok.mp done
    obtain ⟨rfl, rfl⟩ := Alloc.run_pure_ok.mp done
    simpa [Function.comp_def] using counts.succ ran
  merge := by
    intro s t m ids after done
    obtain ⟨inner, mid, ran, done⟩ := Alloc.run_bind_ok.mp done
    obtain ⟨rfl, rfl⟩ := Alloc.run_pure_ok.mp done
    exact counts.merge ran
  widen done := by
    obtain ⟨inner, ran, rfl⟩ := except_map_ok done
    exact counts.widen ran

variable {S : Type} [DecidableEq S] [Hashable S]

namespace Space

variable {space : Space S} {s : S}

theorem size_eq (valid : space.Valid) : space.reached.size = space.reached.toList.length :=
  (Reached.size_eq valid.2).trans (List.length_map _).symm

theorem size_add (valid : space.Valid) (new : s ∉ space.reached.toList)
    (keys : SortedSet PartitionKey) :
    (space.add s keys).reached.size = space.reached.size + 1 := by
  rw [size_eq (valid.add s keys), size_eq valid, toList_add_new valid new, List.length_append,
    List.length_singleton]

theorem size_dropAll (valid : space.Valid) {l : List S} (distinct : l.Nodup)
    (members : ∀ s ∈ l, s ∈ space.reached.toList) :
    (l.foldl drop space).reached.size + l.length = space.reached.size := by
  obtain ⟨valid', -, -, left⟩ := dropAll_spec l valid
  have apart : (l ++ (l.foldl drop space).reached.toList).Nodup := by
    refine List.nodup_append.mpr ⟨distinct, Reached.nodup_toList valid'.2, ?_⟩
    rintro s hs _ ht rfl
    exact ((left s).mp ht).2 hs
  have same : (l ++ (l.foldl drop space).reached.toList).Perm space.reached.toList := by
    refine (List.perm_ext_iff_of_nodup apart (Reached.nodup_toList valid.2)).mpr fun s => ?_
    rw [List.mem_append, left]
    by_cases hs : s ∈ l
    · simp [hs, members s hs]
    · simp [hs]
  rw [size_eq valid', size_eq valid, ← same.length_eq, List.length_append, Nat.add_comm]

end Space

/-- The balance of a run from `start` on, amid an expansion whose successors in `pending` are still
to come. Their numbers are drawn, but only those before them are counted. -/
structure Statistics.Balances (config : RunConfig) (id : S → Nat) (start : Space S)
    (pending : List S) (n : Statistics) (space : Space S) : Prop where
  valid : space.Valid
  numbered : ∀ s ∈ space.reached.toList, id s < space.ids.drawn
  awaited : ∀ t ∈ pending, id t < space.ids.drawn ∧ ∀ s ∈ space.reached.toList, id s ≠ id t
  distinct : (pending.map id).Nodup
  treated : n.stopped + n.added = n.successors
  targets : n.targets ≤ n.added
  bounded : ∀ bound, config.maxIterations = some bound → n.iterations ≤ bound
  size : space.reached.size + n.merged = start.reached.size + n.added
  drawn : space.ids.drawn = start.ids.drawn + n.successors + pending.length + n.merged

namespace Statistics

variable {config : RunConfig} {id : S → Nat} {start space : Space S} {s t : S} {rest : List S}
  {n : Statistics} {A : Analysis S}

theorem Balances.cover (balances : n.Balances config id start (t :: rest) space) :
    (Analysis.dropCount n).Balances config id start rest space := by
  obtain ⟨valid, numbered, awaited, distinct, treated, targets, bounded, size, drawn⟩ := balances
  rw [List.length_cons] at drawn
  constructor
  case valid => exact valid
  case numbered => exact numbered
  case awaited => exact fun u hu => awaited u (List.mem_cons_of_mem t hu)
  case distinct => exact (List.nodup_cons.mp distinct).2
  case treated =>
    simp only [Analysis.dropCount]
    omega
  case targets => exact targets
  case bounded => exact bounded
  case size => exact size
  case drawn =>
    simp only [Analysis.dropCount]
    omega

theorem Balances.add (balances : n.Balances config id start (t :: rest) space)
    (same : id s = id t) (keys : SortedSet PartitionKey) :
    (A.addCount n s).Balances config id start rest (space.add s keys) := by
  obtain ⟨valid, numbered, awaited, distinct, treated, targets, bounded, size, drawn⟩ := balances
  have members (x : S) := Space.mem_reached_add valid s x keys
  have here := awaited t List.mem_cons_self
  have new : s ∉ space.reached.toList := fun old => here.2 s old same
  have grown := Space.size_add valid new keys
  rw [List.map_cons, List.nodup_cons, List.mem_map] at distinct
  rw [List.length_cons] at drawn
  constructor
  case valid => exact valid.add s keys
  case numbered =>
    intro x hx
    rcases (members x).mp hx with rfl | hx
    · exact same ▸ here.1
    · exact numbered x hx
  case awaited =>
    intro u hu
    have later := awaited u (List.mem_cons_of_mem t hu)
    refine ⟨later.1, fun x hx => ?_⟩
    rcases (members x).mp hx with rfl | hx
    · rw [same]
      exact fun twice => distinct.1 ⟨u, hu, twice.symm⟩
    · exact later.2 x hx
  case distinct => exact distinct.2
  case treated =>
    simp only [Analysis.addCount]
    omega
  case targets =>
    simp only [Analysis.addCount]
    split <;> omega
  case bounded => exact bounded
  case size =>
    simp only [Analysis.addCount]
    omega
  case drawn =>
    simp only [Analysis.addCount, Space.ids_add]
    omega

end Statistics

namespace Analysis

/-- As many states leave the reached set as are absorbed, since the merged one takes the place of the
one that absorbs them. -/
theorem size_replaced {A : Analysis S} {state final : S} {absorbed : List S} {space : Space S}
    (valid : space.Valid) (member : state ∈ space.reached.toList)
    (fewer : absorbed.Sublist (A.candidates state space)) (new : final ∉ space.reached.toList) :
    (A.replaced state final absorbed space).reached.size + absorbed.length =
      space.reached.size := by
  have gone : (absorbed ++ [state]).Nodup := by
    refine List.nodup_append.mpr ⟨(nodup_candidates valid).sublist fewer, by simp, ?_⟩
    rintro r hr _ hs rfl
    simpa [List.mem_singleton.mp hs] using (List.mem_filter.mp (fewer.subset hr)).2
  have inside : ∀ s ∈ absorbed ++ [state], s ∈ space.reached.toList := by
    intro s hs
    rcases List.mem_append.mp hs with hs | hs
    · exact mem_reached_of_mem_candidates (fewer.subset hs)
    · exact List.mem_singleton.mp hs ▸ member
  obtain ⟨valid', -, -, left⟩ := Space.dropAll_spec (absorbed ++ [state]) valid
  have shrunk := Space.size_dropAll valid gone inside
  have grown := Space.size_add valid' (fun old => new ((left final).mp old).1) (A.keys final)
  rw [List.length_append, List.length_singleton] at shrunk
  unfold replaced
  omega

namespace Counts

variable {A : Analysis S} {id : S → Nat} (counts : A.Counts id) {config : RunConfig}
  {start space after : Space S} {state : S} {pending : List S} {n : Statistics}
include counts

omit [DecidableEq S] [Hashable S] in
theorem absorb {final : S} {l absorbed : List S} {ids after : Ids}
    (ran : (A.absorb state l).run ids = (.ok (final, absorbed), after)) :
    after.drawn = ids.drawn + absorbed.length ∧
      (absorbed ≠ [] → ids.drawn ≤ id final ∧ id final < after.drawn) := by
  have step {mid later : Ids} {s r m : S} {done : List S}
      (drawn : mid.drawn = ids.drawn + done.length ∧
        (done ≠ [] → ids.drawn ≤ id s ∧ id s < mid.drawn)) (_ : r ∈ l)
      (_ : A.shouldMerge s r = true) (merged : (A.merge s r).run mid = (.ok m, later)) :
      later.drawn = ids.drawn + (done ++ [r]).length ∧
        (done ++ [r] ≠ [] → ids.drawn ≤ id m ∧ id m < later.drawn) := by
    obtain ⟨own, next⟩ := counts.merge merged
    rw [List.length_append, List.length_singleton, own, next]
    omega
  exact (absorb_rule (fun mid s done => mid.drawn = ids.drawn + done.length ∧
    (done ≠ [] → ids.drawn ≤ id s ∧ id s < mid.drawn)) step (fun _ hr => hr) []
    ⟨rfl, fun some => absurd rfl some⟩ ran).1

theorem merging {absorbed : Nat} (balances : n.Balances config id start pending space)
    (member : state ∈ space.reached.toList)
    (merging : A.Merging state space (.ok absorbed, after)) :
    { n with merged := n.merged + absorbed }.Balances config id start pending after := by
  obtain ⟨valid, numbered, awaited, distinct, treated, targets, bounded, size, drawn⟩ := balances
  cases merging with
  | skipped => exact ⟨valid, numbered, awaited, distinct, treated, targets, bounded, size, drawn⟩
  | alone _ ran =>
    obtain ⟨same, -⟩ := counts.absorb ran
    rw [List.length_nil, Nat.add_zero] at same
    exact ⟨valid, same ▸ numbered, same ▸ awaited, distinct, treated, targets, bounded, size,
      same ▸ drawn⟩
  | @merged final absorbed ids _ some ran =>
    obtain ⟨more, own⟩ := counts.absorb ran
    obtain ⟨low, high⟩ := own some
    have valid : (space.withIds ids).Valid := valid
    -- its number is new, so the merged state is none of the reached ones
    have new : final ∉ space.reached.toList := by
      intro old
      have below := numbered final old
      omega
    have shrunk : (A.replaced state final absorbed (space.withIds ids)).reached.size +
        absorbed.length = space.reached.size :=
      size_replaced valid member (absorb_sublist ran).1 new
    have members := mem_reached_replaced A state final absorbed valid
    have last : (A.replaced state final absorbed (space.withIds ids)).ids.drawn = ids.drawn :=
      congrArg Ids.drawn (ids_replaced A state final absorbed valid)
    constructor
    case valid => exact (Space.dropAll_spec (absorbed ++ [state]) valid).1.add final (A.keys final)
    case numbered =>
      intro s hs
      rcases (members s).mp hs with rfl | ⟨hs, -⟩
      · omega
      · have below := numbered s hs
        omega
    case awaited =>
      intro t ht
      obtain ⟨below, apart⟩ := awaited t ht
      refine ⟨by omega, fun s hs => ?_⟩
      rcases (members s).mp hs with rfl | ⟨hs, -⟩
      · omega
      · exact apart s hs
    case distinct => exact distinct
    case treated => exact treated
    case targets => exact targets
    case bounded => exact bounded
    case size =>
      dsimp only
      omega
    case drawn =>
      dsimp only
      omega

theorem visit (config : RunConfig) (p : Progress S) (t : S) (rest : List S) :
    Explore.Contract (p.statistics.Balances config id start (t :: rest)) (A.visit config p t)
      (fun q => q.statistics.Balances config id start rest) (fun _ => True) := by
  intro space balances
  have number {s : S} (wide : A.Widens config t s) : id s = id t := by
    rcases wide.cases with rfl | wide
    · rfl
    · exact counts.widen wide
  have visited := A.visit_visited config p t space
  cases done : (A.visit config p t).on space with | mk r after =>
  rw [done] at visited
  cases visited with
  | failed => trivial
  | covered _ _ _ count => exact count ▸ balances.cover
  | target _ wide _ _ _ count => exact count ▸ balances.add (number wide) _
  | pending _ wide _ _ _ count => exact count ▸ balances.add (number wide) _
  | unmerged => trivial
  | @merging s _ _ _ wide _ _ _ merging count =>
    have added : (A.addCount p.statistics s).Balances config id start rest
        (space.add s (A.keys s)) := balances.add (number wide) _
    have member := (Space.mem_reached_add balances.valid s s (A.keys s)).mpr (.inl rfl)
    exact count ▸ counts.merging added member merging

theorem born {s : S} {popped : Space S} {out : List S} {ids : Ids}
    (balances : n.Balances config id start [] space)
    (selects : A.Selects config n space s popped)
    (ran : (A.succ s).run popped.ids = (.ok out, ids)) :
    { n with iterations := n.iterations + 1 }.Balances config id start out
      (popped.withIds ids) := by
  obtain ⟨valid, numbered, -, -, treated, targets, bounded, size, drawn⟩ := balances
  obtain ⟨ascending, more⟩ := counts.succ ran
  rw [selects.taken.ids] at ascending more
  have numbered : ∀ r ∈ popped.reached.toList, id r < space.ids.drawn :=
    selects.taken.reached ▸ numbered
  constructor
  case valid => exact selects.taken.valid
  case numbered =>
    intro r hr
    have below := numbered r hr
    simp only [Space.ids_withIds]
    omega
  case awaited =>
    intro t ht
    have drawn : id t ∈ List.range' space.ids.drawn out.length :=
      ascending ▸ List.mem_map_of_mem ht
    rw [List.mem_range'_1] at drawn
    refine ⟨by simp only [Space.ids_withIds]; omega, fun r hr => ?_⟩
    have below := numbered r hr
    omega
  case distinct => exact ascending ▸ List.nodup_range'
  case treated => exact treated
  case targets => exact targets
  case bounded =>
    intro bound limit
    have within := selects.within
    simp only [atBound, limit, decide_eq_false_iff_not] at within
    dsimp only
    omega
  case size => exact selects.taken.reached ▸ size
  case drawn =>
    simp only [Space.ids_withIds]
    simp only [List.length_nil] at drawn
    omega

theorem expand {s : S} {popped : Space S} (balances : n.Balances config id start [] space)
    (selects : A.Selects config n space s popped) :
    Explore.Contract (fun before => before = popped)
      (A.expand config { n with iterations := n.iterations + 1 } s)
      (fun p => p.statistics.Balances config id start []) (fun _ => True) := by
  have steps : Explore.Contract (fun before => before = popped)
      (A.expand config { n with iterations := n.iterations + 1 } s)
      (fun p space => ∃ _ : List S, p.statistics.Balances config id start [] space)
      (fun _ => True) := by
    apply expand_contract _ (fun _ pending p => p.statistics.Balances config id start pending)
    · exact fun _ _ _ => trivial
    · exact fun out ids ran => counts.born balances selects ran
    · exact fun _ => counts.visit config
  exact steps.weaken fun _ _ done => done.choose_spec

theorem run (config : RunConfig) (fuel : Nat) :
    Explore.Contract (Statistics.Balances config id start [] {}) (A.run config fuel)
      (Halted config (fun _ n => n.Balances config id start [])
        (fun _ n => n.Balances config id start [])) (fun _ => True) := by
  apply runFrom_rule (fun _ n => n.Balances config id start [])
  · exact fun _ _ _ balances => balances.valid
  · intro _ n s before popped balances selects
    exact (counts.expand balances selects).weaken fun _ _ kept => ⟨fun _ => kept, fun _ => kept⟩

end Counts

/-- What a run from `start` that ends with `status` has counted, kept and drawn. -/
structure Conserved (config : RunConfig) (start : Space S) (status : RunStatus S) (n : Statistics)
    (after : Space S) : Prop where
  treated : n.successors = n.stopped + n.added
  targets : n.targets ≤ n.added
  bounded : ∀ bound, config.maxIterations = some bound → n.iterations ≤ bound
  exhausted : status = .iterationBound → config.maxIterations = some n.iterations
  size : after.reached.size + n.merged = start.reached.size + n.added
  drawn : after.ids.drawn = start.ids.drawn + n.successors + n.merged

def Conserves (A : Analysis S) (id : S → Nat) : Prop :=
  ∀ config fuel start status n after, start.Valid →
    (∀ s ∈ start.reached.toList, id s < start.ids.drawn) →
    (A.run config fuel).on start = (.ok (some ⟨status, n⟩), after) →
    Conserved config start status n after

theorem Counts.conserves {A : Analysis S} {id : S → Nat} (counts : A.Counts id) :
    A.Conserves id := by
  intro config fuel start status n after valid numbered ran
  have begins : Statistics.Balances config id start [] {} start :=
    ⟨valid, numbered, by simp, .nil, rfl, Nat.le_refl 0, by simp, rfl, rfl⟩
  have ends := (counts.run config fuel).ok begins ran
  obtain ⟨balances, exhausted⟩ : n.Balances config id start [] after ∧
      (status = .iterationBound → atBound config n = true) := by
    match status with
    | .completed => exact ⟨ends.1.choose_spec, by simp⟩
    | .iterationBound => exact ⟨ends.1.choose_spec, fun _ => ends.2.2⟩
    | .targetsFound _ => exact ⟨ends.2, by simp⟩
  obtain ⟨-, -, -, -, treated, targets, bounded, size, drawn⟩ := balances
  refine ⟨treated.symm, targets, bounded, fun halted => ?_, size, drawn⟩
  have reached := exhausted halted
  unfold atBound at reached
  split at reached
  · rename_i bound limit
    have within := bounded bound limit
    rw [decide_eq_true_iff] at reached
    rw [limit, Nat.le_antisymm reached within]
  · cases reached

/-- States and numbers are conserved over a graph, with or without times above it. -/
theorem runs_conserve_states_and_numbers {W : Type} [DecidableEq W] [Hashable W]
    (graph : GraphConfig) {A : Analysis W} (silent : A.Unnumbered) :
    (Node.analysis graph A).Conserves Node.id ∧
      ∀ time, (Timed.analysis time (Node.analysis graph A)).Conserves (fun s => s.inner.id) := by
  have counts := Node.counts graph silent
  exact ⟨counts.conserves, fun time => (Timed.counts time counts).conserves⟩

end Analysis

theorem Table.unnumbered (t : Table) : t.analysis.Unnumbered where
  succ s ids := by
    change (Alloc.next _ (t.guard "succ" s, ids)).2.drawn = ids.drawn
    cases t.guard "succ" s <;> rfl
  merge _ _ _ := rfl

namespace Siblings

abbrev graph : Analysis (Node Table.State) := Node.analysis ⟨.standard, .passThrough⟩ analysis

def root : Node Table.State := ⟨0, ∅, .singleton 0, ⟨0⟩, ∅⟩

def violation : Node Table.State := ⟨2, .singleton 0, .singleton 2, ⟨2⟩, ∅⟩

def rooted : Space (Node Table.State) := (⟨⟨0, 1⟩, ∅, ∅⟩ : Space (Node Table.State)).add root ∅

/-- Two successors and a merged state get numbers. The merge takes two states away and adds one. -/
theorem merge_is_balanced : ∃ after,
    (graph.run config 1).on rooted =
      (.ok (some ⟨.targetsFound [violation], ⟨1, 2, 0, 2, 1, 1⟩⟩), after) ∧
    after.reached.size = rooted.reached.size + 1 ∧ after.ids.drawn = 4 := by
  have empty : (⟨⟨0, 1⟩, ∅, ∅⟩ : Space (Node Table.State)).Valid := Space.valid_empty _
  have valid : rooted.Valid := empty.add root ∅
  have only : rooted.reached.toList = [root] := Space.toList_add_new empty (by simp) ∅
  obtain ⟨after, ran⟩ : ∃ after, (graph.run config 1).on rooted =
      (.ok (some ⟨.targetsFound [violation], ⟨1, 2, 0, 2, 1, 1⟩⟩), after) :=
    Analysis.run_siblings rfl 0 valid (Analysis.queue_add empty rfl ∅) only rfl rfl rfl
      (t := ⟨1, .singleton 0, .singleton 1, ⟨1⟩, ∅⟩) rfl rfl (by decide) rfl (by decide) (by decide)
      (by decide) rfl (by decide) (by decide)
  have numbered : ∀ s ∈ rooted.reached.toList, s.id < rooted.ids.drawn := by
    rw [only]
    decide
  obtain ⟨-, -, -, -, size, drawn⟩ := (Analysis.runs_conserve_states_and_numbers
    ⟨.standard, .passThrough⟩ table.unnumbered).1 config 1 rooted _ _ after valid numbered ran
  exact ⟨after, ran, by simpa using size, drawn⟩

end Siblings
end ActorAnalysis
