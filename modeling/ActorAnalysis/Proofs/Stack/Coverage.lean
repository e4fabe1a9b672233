import ActorAnalysis.Proofs.Graph.Standing
import ActorAnalysis.Proofs.Stack.Joining
import ActorAnalysis.Proofs.Stack.Lookup
import ActorAnalysis.Settings

namespace ActorAnalysis

theorem Analysis.Lifts.below_of_widen {O S : Type} {A : Analysis O} {I : Analysis S} {view : O → S}
    {below : S → S → Prop} (lifts : A.Lifts I view) (refl : ∀ s, below s s)
    (inner : ∀ {s t}, I.widen s = .ok t → below s t) {s t : O} (widened : A.widen s = .ok t) :
    below (view s) (view t) := by
  rcases lifts.widen widened with same | ran
  · exact same ▸ refl (view s)
  · exact inner ran

namespace Stack

/-- A state is covered by several states if one of them covers it. It covers itself, and a merged
state covers both states that it was made of. -/
theorem coverage_is_existential_and_survives_merging (config : DataConfig) (k : Stack) :
    (∀ s l, (k.valueAnalysis config).stop s l = true ↔
      ∃ r ∈ l, (k.valueAnalysis config).stop s [r] = true) ∧
    (∀ s l l', (∀ r ∈ l, r ∈ l') → (k.valueAnalysis config).stop s l = true →
      (k.valueAnalysis config).stop s l' = true) ∧
    (∀ s, (k.valueAnalysis config).stop s [] = false) ∧
    (∀ s, (k.valueAnalysis config).stop s [s] = true) ∧
    ∀ ids a b, k.Drawn ids a → k.Drawn ids b → (k.valueAnalysis config).shouldMerge a b = true →
      ∃ m after, ((k.valueAnalysis config).merge a b).run ids = (.ok m, after) ∧
        (k.valueAnalysis config).stop a [m] = true ∧
        (k.valueAnalysis config).stop b [m] = true := by
  have each := k.stopEach config
  have orders := k.orders config
  refine ⟨each, fun s l l' inside stops => ?_, fun s => ?_, fun s => ?_, ?_⟩
  · obtain ⟨r, hr, stops⟩ := (each s l).mp stops
    exact (each s l').mpr ⟨r, inside r hr, stops⟩
  · apply Bool.eq_false_iff.mpr
    intro stops
    obtain ⟨r, hr, -⟩ := (each s []).mp stops
    exact absurd hr List.not_mem_nil
  · exact orders.stop (orders.refl s)
  · intro ids a b ha hb should
    obtain ⟨m, after, merged, -⟩ := (k.merges config).merge ha hb should
    obtain ⟨left, right⟩ := orders.merge should merged
    exact ⟨m, after, merged, orders.stop left, orders.stop right⟩

/-- Neither of the two states covers the other one. -/
theorem nested_graphs_cover_what_they_merge :
    Nested.stack.Drawn ⟨0, 5⟩ Nested.first ∧ Nested.stack.Drawn ⟨0, 5⟩ Nested.second ∧
    Nested.analysis.shouldMerge Nested.first Nested.second = true ∧
    Nested.analysis.stop Nested.first [Nested.second] = false ∧
    Nested.analysis.stop Nested.second [Nested.first] = false ∧
    ∃ m after, (Nested.analysis.merge Nested.first Nested.second).run ⟨0, 5⟩ = (.ok m, after) ∧
      Nested.analysis.stop Nested.first [m] = true ∧
      Nested.analysis.stop Nested.second [m] = true := by
  have first : Nested.stack.Drawn ⟨0, 5⟩ Nested.first := Nested.drawn (by simp)
  have second : Nested.stack.Drawn ⟨0, 5⟩ Nested.second := Nested.drawn (by simp)
  have should : Nested.analysis.shouldMerge Nested.first Nested.second = true := by decide
  refine ⟨first, second, should, by decide, by decide, ?_⟩
  obtain ⟨-, -, -, -, merges⟩ :=
    coverage_is_existential_and_survives_merging ⟨true, .all⟩ Nested.stack
  exact merges ⟨0, 5⟩ Nested.first Nested.second first second should

theorem below_of_widen (config : DataConfig) (k : Stack) {s t : k.State DataState}
    (widened : (k.valueAnalysis config).widen s = .ok t) : k.Below s t := by
  induction k with
  | data =>
    cases widened
    exact DataState.included_widen s config.precision
  | scheduled =>
    obtain ⟨d, ran, rfl⟩ := Scheduled.widen_ok widened
    cases ran
    exact ⟨rfl, DataState.included_widen s.data config.precision⟩
  | graph graph below ih =>
    exact (Node.lifts graph _).below_of_widen (below.orders config).refl ih widened
  | timed time below ih =>
    exact (Timed.lifts time _).below_of_widen (below.orders config).refl ih widened

end Stack

namespace Settings

/-- The layer that the graph numbers. -/
abbrev control (s : Settings) (key : List Thread → PartitionKey) (program : Program) :
    Analysis (Scheduled DataState) :=
  Scheduled.analysis program s.schedule key (DataState.analysis s.data)

def stack (s : Settings) (key : List Thread → PartitionKey) (program : Program) : Stack :=
  .timed s.time (.graph s.graph (.scheduled program s.schedule key))

theorem stopEach (s : Settings) (key : List Thread → PartitionKey) (program : Program) :
    (s.analysis key program).StopEach :=
  (s.stack key program).stopEach s.data

/-- At every point of an exploration: if a reached state stands for the number of any state made so
far, the layer below the graph agrees that it covers that state. Runs carry the record of made
states on, also amid an expansion, when some successors are treated. -/
theorem merge_sets_cover_no_more_than_control (settings : Settings)
    (key : List Thread → PartitionKey) (program : Program) {made pending : List DefaultState}
    {space : Space DefaultState}
    (point : (settings.analysis key program).Chronicle program made pending space) :
    (∀ r ∈ space.reached.toList, r ∈ made) ∧
    (∀ g ∈ made, ∀ r ∈ space.reached.toList, g.inner.id ∈ r.inner.mergeOf →
      (settings.control key program).stop g.inner.inner [r.inner.inner] = true) ∧
    (∀ config fuel, ∃ left, (settings.analysis key program).Continued program made left
      (((settings.analysis key program).run config fuel).on space).2) ∧
    ∀ s popped out ids config statistics k, space.Popped s popped →
      ((settings.analysis key program).succ s).run popped.ids = (.ok out, ids) →
      ∃ left, (settings.analysis key program).Continued program made left
        (((out.take k).foldlM ((settings.analysis key program).visit config) ⟨statistics, []⟩).on
          (popped.withIds ids)).2 := by
  let k := settings.stack key program
  have orders : (settings.analysis key program).Orders k.Below := k.orders settings.data
  have numbers := Timed.numbers settings.time
    (Node.numbers settings.graph (settings.control key program))
  have standing := point.standing numbers orders (k.below_of_widen settings.data)
  refine ⟨standing.inside, fun g hg r hr held => ?_, point.run, ?_⟩
  · exact Scheduled.orders.stop (standing.above g hg r (.inl hr) held)
  · intro s popped out ids config statistics k taken ran
    exact point.amid taken ran config statistics k

end Settings

namespace Counter

def step : Transition := ⟨0, .assign "x" (.add (.var "x") (.const 1)), 0⟩

def body : Relation := ⟨0, "count", .singleton 0, ∅, [step]⟩

theorem distinct : (relationIds [⟨"a", [⟨0, .bootstrap, body⟩], []⟩]).Nodup := by decide

def holding (value : Int64) : SortedMap String Int64 :=
  (∅ : SortedMap String Int64).insert "x" value

def program : Program := ⟨[⟨"a", [⟨0, .bootstrap, body⟩], []⟩], holding 0, distinct⟩

def threads : List Thread := [.start 0 "a" 0 0]

/-- Without time stamps, so that all states may be merged; and the counter is not tracked. -/
def forgetful : Settings :=
  { Settings.default with
    time := ⟨0⟩
    graph := ⟨.standard, .delegate⟩
    data := ⟨true, .only ∅⟩ }

abbrev stack : Analysis Settings.DefaultState := forgetful.analysis List.length program

def node (id : NodeId) (predecessors mergeOf : SortedSet NodeId) (stepped : SortedSet Nat)
    (data : DataState) : Settings.DefaultState :=
  let s : Scheduled DataState := ⟨threads, stepped, ∅, data⟩
  ⟨[], id, predecessors, mergeOf, s, (forgetful.control List.length program).keys s⟩

def root : Settings.DefaultState := node 0 ∅ (.singleton 0) ∅ (.known (holding 0))

def next : Settings.DefaultState :=
  node 1 (.singleton 0) (.singleton 1) (.singleton 0) (.known (holding 1))

def wide : Settings.DefaultState := node 1 (.singleton 0) (.singleton 1) (.singleton 0) (.known ∅)

def united : Settings.DefaultState := node 2 ∅ (.ofList [0, 1, 2]) (.singleton 0) (.known ∅)

def seeded : Space Settings.DefaultState :=
  (⟨⟨1, 1⟩, ∅, ∅⟩ : Space Settings.DefaultState).add root (stack.keys root)

theorem valid_seeded : seeded.Valid := (Space.valid_empty _).add _ _

theorem mem_seeded {o : Settings.DefaultState} : o ∈ seeded.reached.toList ↔ o = root := by
  unfold seeded
  rw [Space.mem_reached_add (Space.valid_empty _)]
  simp [Reached.toList_empty]

theorem seed_on : ∃ count, (stack.seed program).on ⟨.start, ∅, ∅⟩ = (.ok count, seeded) :=
  Analysis.seed_one (show (stack.initial program).run .start = (.ok [root], ⟨1, 1⟩) from rfl)

theorem candidates_wide {space : Space Settings.DefaultState}
    (reached : space.reached = (seeded.reached.insert wide (stack.keys wide)).2) :
    stack.candidates wide space = [root] := by
  have indexed : seeded.reached.Indexed := Reached.indexed_insert Reached.indexed_empty root _
  have absent : ¬(∅ : Reached Settings.DefaultState).contains root = true := by
    simp [Reached.contains_iff Reached.valid_empty, Reached.toList_empty]
  have new : ¬seeded.reached.contains wide = true := by
    rw [Reached.contains_iff valid_seeded.2, mem_seeded]
    decide
  have entries : seeded.reached.entries = [⟨root, stack.keys root⟩] := by
    show (Reached.insert _ root _).2.entries = _
    rw [Reached.entries_insert, if_neg absent]
    rfl
  have shared : (stack.keys wide).meets (stack.keys root) = true := by
    show ((∅ : SortedSet PartitionKey).insert (List.length threads)).meets
      ((∅ : SortedSet PartitionKey).insert (List.length threads)) = true
    simp [SortedSet.meets]
  have own : (stack.keys wide).meets (stack.keys wide) = true := shared
  unfold Analysis.candidates
  rw [reached, Reached.partitionOf_eq (Reached.indexed_insert indexed wide _),
    Reached.entries_insert, if_neg new, entries]
  simp only [List.singleton_append, List.filter_cons, shared, own, Bool.or_true, if_true,
    List.filter_nil, List.map_cons, List.map_nil]
  have other : root ≠ wide := by decide
  simp [other]

theorem chronicle : ∃ pending space,
    stack.Chronicle program [root, next, wide, united] pending space ∧
      united ∈ space.reached.toList := by
  obtain ⟨count, starts⟩ := seed_on
  have start : stack.Chronicle program [root] [] ((stack.seed program).on ⟨.start, ∅, ∅⟩).2 :=
    .seeded rfl
  rw [starts] at start
  have waits : seeded.frontier.queue = [root] :=
    Analysis.queue_add (Space.valid_empty _) rfl (stack.keys root)
  obtain ⟨popped, -, taken, -⟩ := Analysis.popNext_one (A := stack) valid_seeded waits .fifo
  have succ : (stack.succ root).run popped.ids = (.ok [next], ⟨1, 2⟩) := by
    rw [taken.ids]
    rfl
  have valid : (popped.withIds ⟨1, 2⟩).Valid := taken.valid
  have widened : stack.Widens ⟨.fifo, none, false, true⟩ next wide := rfl
  have new : stack.stop wide ((popped.withIds ⟨1, 2⟩).reached.partitionOf (stack.keys wide)) =
      false := by
    apply Bool.eq_false_iff.mpr
    intro stops
    obtain ⟨r, hr, stops⟩ := (forgetful.stopEach List.length program _ _).mp stops
    have old : r ∈ seeded.reached.toList := taken.reached ▸ Reached.mem_of_mem_partitionOf hr
    rw [mem_seeded.mp old] at stops
    exact absurd stops (by decide)
  have added := (start.expanded taken succ).added _ widened new
  have found : wide ∈ ((popped.withIds ⟨1, 2⟩).add wide (stack.keys wide)).reached.toList :=
    (Space.mem_reached_add valid wide wide _).mpr (.inl rfl)
  have candidates :
      stack.candidates wide ((popped.withIds ⟨1, 2⟩).add wide (stack.keys wide)) = [root] := by
    apply candidates_wide
    rw [← taken.reached]
    rfl
  have absorbs : (stack.absorb wide (stack.candidates wide
      ((popped.withIds ⟨1, 2⟩).add wide (stack.keys wide)))).run ⟨1, 2⟩ =
        (.ok (united, [root]), ⟨1, 3⟩) := by
    rw [candidates]
    rfl
  have last := added.replaced found absorbs
  rw [candidates] at last
  refine ⟨_, _, last, ?_⟩
  exact (stack.mem_reached_replaced wide united [root] (valid.add wide _) united).mpr (.inl rfl)

end Counter

/-- The root, its successor before and after it is widened, and the merged state itself all have
numbers that the merged state stands for. -/
theorem Settings.merged_state_covers_its_history : ∃ pending space,
    Counter.stack.Chronicle Counter.program
      [Counter.root, Counter.next, Counter.wide, Counter.united] pending space ∧
    Counter.united ∈ space.reached.toList ∧
    ∀ g ∈ [Counter.root, Counter.next, Counter.wide, Counter.united],
      g.inner.id ∈ Counter.united.inner.mergeOf ∧
      (Counter.forgetful.control List.length Counter.program).stop g.inner.inner
        [Counter.united.inner.inner] = true := by
  obtain ⟨pending, space, point, reached⟩ := Counter.chronicle
  refine ⟨pending, space, point, reached, fun g hg => ?_⟩
  have held : ∀ g ∈ [Counter.root, Counter.next, Counter.wide, Counter.united],
      g.inner.id ∈ Counter.united.inner.mergeOf := by decide
  obtain ⟨-, covers, -⟩ :=
    merge_sets_cover_no_more_than_control Counter.forgetful List.length Counter.program point
  exact ⟨held g hg, covers g hg Counter.united reached (held g hg)⟩

end ActorAnalysis
