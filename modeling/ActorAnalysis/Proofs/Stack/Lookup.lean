import ActorAnalysis.Proofs.Run.History
import ActorAnalysis.Proofs.Stack.Merging
import Mathlib.Data.List.Nodup

/-! Look-ups under partition keys. A state can be covered by another one, or merged with it, only
if both have the same threads; then they have the same keys, however many other threads share them.
So the states under the keys of a successor are all that matter to it. -/
namespace ActorAnalysis

namespace Analysis

/-- A state is covered by several states if one of them covers it alone. -/
def StopEach {S : Type} (A : Analysis S) : Prop :=
  ∀ s l, A.stop s l = true ↔ ∃ r ∈ l, A.stop s [r] = true

/-- Nothing is lost when a state is looked up under its keys: the states found there cover it if
all reached ones do, and those that it may be merged with are among them. -/
def Lossless {S : Type} [DecidableEq S] [Hashable S] (A : Analysis S) (reached : Reached S)
    (s : S) : Prop :=
  A.stop s (reached.partitionOf (A.keys s)) = A.stop s reached.toList ∧
    ∀ r ∈ reached.toList, A.shouldMerge s r = true → r ∈ reached.partitionOf (A.keys s)

theorem Lossless.of_filed {S : Type} [DecidableEq S] [Hashable S] {A : Analysis S}
    {reached : Reached S} {s : S} (filed : reached.Filed A.keys) (each : A.StopEach)
    (share : ∀ r ∈ reached.toList, A.stop s [r] = true ∨ A.shouldMerge s r = true →
      A.keys s = A.keys r) : A.Lossless reached s := by
  have found (r : S) (hr : r ∈ reached.toList)
      (matters : A.stop s [r] = true ∨ A.shouldMerge s r = true) :
      r ∈ reached.partitionOf (A.keys s) := by
    rw [share r hr matters]
    exact (filed.mem_partitionOf r).mpr hr
  constructor
  · rw [Bool.eq_iff_iff, each s, each s reached.toList]
    constructor
    · rintro ⟨r, hr, covers⟩
      exact ⟨r, Reached.mem_of_mem_partitionOf hr, covers⟩
    · rintro ⟨r, hr, covers⟩
      exact ⟨r, found r hr (.inl covers), covers⟩
  · intro r hr should
    exact found r hr (.inr should)

theorem Lifts.relates {O S : Type} {A : Analysis O} {I : Analysis S} {view : O → S}
    (lifts : A.Lifts I view) {inv : Ids → S → Prop} {akin : S → S → Prop}
    (relates : I.Relates inv akin) :
    A.Relates (fun ids o => inv ids (view o)) (fun s r => akin (view s) (view r)) where
  fresh h done t ht := by
    obtain ⟨mid, ran, -⟩ := lifts.succ done
    exact relates.fresh h ran _ (List.mem_map_of_mem ht)
  together done t ht u hu := by
    obtain ⟨mid, ran, -⟩ := lifts.succ done
    exact relates.together ran _ (List.mem_map_of_mem ht) _ (List.mem_map_of_mem hu)
  merge h hs hr done := by
    obtain ⟨mid, ran, -⟩ := lifts.merge done
    exact relates.merge h hs hr ran
  widen done x := by
    rcases lifts.widen done with same | widened
    · rw [same]
      exact ⟨fun h => h, fun h => h⟩
    · exact relates.widen widened (view x)

end Analysis

theorem DataState.stopEach (config : DataConfig) : (DataState.analysis config).StopEach := by
  intro s l
  simp [analysis]

namespace Scheduled

variable {program : Program} {config : ScheduleConfig} {key : List Thread → PartitionKey}
  {data : DataConfig}

theorem stop_iff (s : Scheduled DataState) (l : List (Scheduled DataState)) :
    (analysis program config key (DataState.analysis data)).stop s l = true ↔
      ∃ r ∈ l, r.threads = s.threads ∧ s.data.included r.data = true := by
  simp only [analysis, DataState.analysis, Bool.and_eq_true, List.any_eq_true, List.mem_map,
    List.mem_filter, decide_eq_true_eq]
  constructor
  · rintro ⟨-, d, ⟨r, ⟨hr, same⟩, rfl⟩, below⟩
    exact ⟨r, hr, same, below⟩
  · rintro ⟨r, hr, same, below⟩
    refine ⟨?_, r.data, ⟨r, ⟨hr, same⟩, rfl⟩, below⟩
    simp only [Bool.not_eq_true', List.isEmpty_eq_false_iff_exists_mem, List.mem_map,
      List.mem_filter, decide_eq_true_eq]
    exact ⟨r.data, r, ⟨hr, same⟩, rfl⟩

theorem stopEach : (analysis program config key (DataState.analysis data)).StopEach := by
  intro s l
  simp [stop_iff]

end Scheduled

theorem Timed.stopEach {W : Type} {A : Analysis W} (config : TimeConfig) (inner : A.StopEach) :
    (Timed.analysis config A).StopEach := by
  intro s l
  have below := inner s.inner (l.map Timed.inner)
  simpa [analysis] using below

namespace Node

variable {W : Type} {A : Analysis W}

theorem keys_of_fresh {predecessors : SortedSet NodeId} {states : List W} {out : List (Node W)}
    {ids after : Ids} (done : (states.mapM (fresh A predecessors ∅)).run ids = (.ok out, after)) :
    ∀ n ∈ out, n.keys = A.keys n.inner := by
  intro n hn
  obtain ⟨w, -, first, last, -, -, ran⟩ := (Alloc.mapM_gave done).1 n hn
  obtain ⟨rfl, -⟩ := run_fresh_ok ran
  rfl

theorem keys_of_combine {m n united : Node W} {inner : W} {ids after : Ids}
    (done : (combine A m n inner).run ids = (.ok united, after)) :
    united.keys = A.keys united.inner := by
  obtain ⟨rfl, -⟩ := run_fresh_ok done
  rfl

theorem keys_of_widen {config : GraphConfig} {s t : Node W}
    (done : (analysis config A).widen s = .ok t) : t = s ∨ t.keys = A.keys t.inner := by
  cases widening : config.widening with
  | passThrough =>
    simp only [analysis, widening] at done
    exact .inl (Except.ok.inj done).symm
  | delegate =>
    simp only [analysis, widening] at done
    obtain ⟨inner, -, rfl⟩ := except_map_ok done
    exact .inr rfl

theorem keys_invariant (config : GraphConfig) (A : Analysis W) (program : Program)
    (merges widens : Prop) : (analysis config A).Invariant program merges widens
      (fun _ n => n.keys = A.keys n.inner) where
  grows h _ := h
  initial done := by
    obtain ⟨states, mid, -, done⟩ := Alloc.run_bind_ok.mp done
    exact keys_of_fresh done
  succ _ done := by
    obtain ⟨states, mid, -, done⟩ := Alloc.run_bind_ok.mp done
    exact keys_of_fresh done
  merge _ _ _ _ _ _ _ _ _ done := by
    obtain ⟨inner, mid, -, done⟩ := Alloc.run_bind_ok.mp done
    exact keys_of_combine done
  widen _ _ _ _ h done := by
    rcases keys_of_widen done with rfl | keys
    · exact h
    · exact keys

theorem stopEach (config : GraphConfig) (inner : A.StopEach) :
    (analysis config A).StopEach := by
  intro n l
  have below := inner n.inner (l.map Node.inner)
  simp only [List.mem_map, exists_exists_and_eq_and] at below
  simp only [analysis, Bool.or_eq_true, below, List.any_eq_true, decide_eq_true_eq,
    List.mem_singleton, exists_eq_left, List.map_cons, List.map_nil]
  constructor
  · rintro (⟨r, hr, merged⟩ | ⟨r, hr, stops⟩)
    · exact ⟨r, hr, .inl merged⟩
    · exact ⟨r, hr, .inr stops⟩
  · rintro ⟨r, hr, merged | stops⟩
    · exact .inl ⟨r, hr, merged⟩
    · exact .inr ⟨r, hr, stops⟩

/-- A node that was merged into another one shares with it what merging and widening keep. -/
theorem relates {β : Type} {place : W → β} (config : GraphConfig)
    (merged : ∀ {s t m ids after}, (A.merge s t).run ids = (.ok m, after) →
      place s = place m ∧ place t = place m)
    (widened : ∀ {s t}, A.widen s = .ok t → place s = place t) :
    (analysis config A).Relates Numbered
      (fun n r => n.id ∈ r.mergeOf → place n.inner = place r.inner) where
  fresh h done n hn := by
    have born := succ_born done
    have low := (born.drawn n hn).1
    constructor
    · intro member
      exact absurd (h.2 n.id member) (Nat.not_lt_of_le low)
    · intro member
      have own := (born.own n hn _).mp member
      exact absurd (own ▸ h.1) (Nat.not_lt_of_le low)
  together done m hm n hn member := by
    have born := succ_born done
    have distinct := List.pairwise_map.mpr (born.ascending.imp fun below => Nat.ne_of_lt below)
    have own : m.id = n.id := (born.own n hn m.id).mp member
    rw [List.inj_on_of_nodup_map distinct hm hn own]
  merge h hs hr done member := by
    have unites := merge_unites done
    obtain ⟨mid, ran, -⟩ := (lifts config A).merge done
    obtain ⟨left, right⟩ := merged ran
    rcases (unites.members _).mp member with same | inS | inR
    · exact absurd (same ▸ h.1) (Nat.not_lt_of_le unites.drawn.1)
    · exact (hs inS).trans left
    · exact (hr inR).trans right
  widen := by
    intro s t done x
    have same : place s.inner = place t.inner := by
      rcases (lifts config A).widen done with same | ran
      · rw [same]
      · exact widened ran
    obtain ⟨id, -, mergeOf⟩ := widen_ok done
    rw [id, mergeOf, same]
    exact ⟨fun h => h, fun h => h⟩

end Node

namespace Stack

variable {D : Type}

def threads : (k : Stack) → k.State D → List Thread
  | data, _ => []
  | scheduled _ _ _, s => s.threads
  | graph _ below, n => below.threads n.inner
  | timed _ below, s => below.threads s.inner

def Numbered (ids : Ids) : (k : Stack) → k.State D → Prop
  | data, _ => True
  | scheduled _ _ _, _ => True
  | graph _ below, n => n.Numbered ids ∧ below.Numbered ids n.inner
  | timed _ below, s => below.Numbered ids s.inner

/-- The keys that the nodes in a state hold are those of what they number. -/
def Honest (leaf : DataAnalysis D) : (k : Stack) → k.State D → Prop
  | data, _ => True
  | scheduled _ _ _, _ => True
  | graph _ below, n => n.keys = (below.analysis leaf).keys n.inner ∧ below.Honest leaf n.inner
  | timed _ below, s => below.Honest leaf s.inner

/-- A node that was merged into another one has the same threads. -/
def Akin : (k : Stack) → k.State D → k.State D → Prop
  | data, _, _ => True
  | scheduled _ _ _, _, _ => True
  | graph _ below, n, r =>
    (n.id ∈ r.mergeOf → below.threads n.inner = below.threads r.inner) ∧ below.Akin n.inner r.inner
  | timed _ below, s, r => below.Akin s.inner r.inner

section Layers

variable (leaf : DataAnalysis D)

theorem numbered_invariant (program : Program) (k : Stack) :
    (k.analysis leaf).Invariant program True True (fun ids => k.Numbered ids) := by
  induction k with
  | data => constructor <;> simp [Numbered]
  | scheduled => constructor <;> simp [Numbered]
  | graph config below ih =>
    exact (Node.numbered_invariant config _ program True True).and
      ((Node.lifts config _).invariant ih)
  | timed config below ih => exact (Timed.lifts config _).invariant ih

theorem honest_invariant (program : Program) (k : Stack) :
    (k.analysis leaf).Invariant program True True (fun _ => k.Honest leaf) := by
  induction k with
  | data => constructor <;> simp [Honest]
  | scheduled => constructor <;> simp [Honest]
  | graph config below ih =>
    exact (Node.keys_invariant config _ program True True).and ((Node.lifts config _).invariant ih)
  | timed config below ih => exact (Timed.lifts config _).invariant ih

variable {leaf}

theorem threads_of_merge (k : Stack) {s t m : k.State D} {ids after : Ids}
    (done : ((k.analysis leaf).merge s t).run ids = (.ok m, after)) :
    k.threads s = k.threads m ∧ k.threads t = k.threads m := by
  induction k generalizing after with
  | data => exact ⟨rfl, rfl⟩
  | scheduled =>
    obtain ⟨same, d, -, rfl⟩ := Scheduled.run_merge_ok done
    exact ⟨rfl, same.symm⟩
  | graph config below ih =>
    obtain ⟨mid, ran, -⟩ := (Node.lifts config _).merge done
    exact ih ran
  | timed config below ih =>
    obtain ⟨mid, ran, -⟩ := (Timed.lifts config _).merge done
    exact ih ran

theorem threads_of_widen (k : Stack) {s t : k.State D} (done : (k.analysis leaf).widen s = .ok t) :
    k.threads s = k.threads t := by
  induction k with
  | data => rfl
  | scheduled =>
    obtain ⟨d, -, rfl⟩ := Scheduled.widen_ok done
    rfl
  | graph config below ih =>
    rcases (Node.lifts config _).widen done with same | widened
    · exact congrArg below.threads same.symm
    · exact ih widened
  | timed config below ih =>
    rcases (Timed.lifts config _).widen done with same | widened
    · exact congrArg below.threads same.symm
    · exact ih widened

variable (leaf)

theorem relates (k : Stack) : (k.analysis leaf).Relates (fun ids => k.Numbered ids) k.Akin := by
  induction k with
  | data => exact .trivial _ _
  | scheduled => exact .trivial _ _
  | graph config below ih =>
    exact (Node.relates config below.threads_of_merge below.threads_of_widen).and
      ((Node.lifts config _).relates ih)
  | timed config below ih => exact (Timed.lifts config _).relates ih

end Layers

variable (config : DataConfig) (k : Stack)

theorem keys_eq {s r : k.State DataState} (hs : k.Honest (DataState.analysis config) s)
    (hr : k.Honest (DataState.analysis config) r) (same : k.threads s = k.threads r) :
    (k.valueAnalysis config).keys s = (k.valueAnalysis config).keys r := by
  induction k with
  | data => rfl
  | scheduled program schedule key =>
    exact congrArg (fun threads => (∅ : SortedSet PartitionKey).insert (key threads)) same
  | graph graph below ih => exact (hs.1.trans (ih hs.2 hr.2 same)).trans hr.1.symm
  | timed time below ih => exact ih hs hr same

theorem stopEach : (k.valueAnalysis config).StopEach := by
  induction k with
  | data => exact DataState.stopEach config
  | scheduled => exact Scheduled.stopEach
  | graph graph below ih => exact Node.stopEach graph ih
  | timed time below ih => exact Timed.stopEach time ih

theorem threads_of_stop {s r : k.State DataState} (akin : k.Akin s r)
    (stops : (k.valueAnalysis config).stop s [r] = true) : k.threads s = k.threads r := by
  induction k with
  | data => rfl
  | scheduled program schedule key =>
    obtain ⟨r', member, same, -⟩ := (Scheduled.stop_iff s [r]).mp stops
    exact List.mem_singleton.mp member ▸ same.symm
  | graph graph below ih =>
    rcases Bool.or_eq_true_iff.mp stops with merged | covered
    · obtain ⟨r', member, merged⟩ := List.any_eq_true.mp merged
      exact akin.1 (List.mem_singleton.mp member ▸ of_decide_eq_true merged)
    · exact ih akin.2 covered
  | timed time below ih => exact ih akin stops

theorem threads_of_shouldMerge {s r : k.State DataState}
    (should : (k.valueAnalysis config).shouldMerge s r = true) : k.threads s = k.threads r := by
  induction k with
  | data => rfl
  | scheduled program schedule key => exact of_decide_eq_true (Bool.and_eq_true_iff.mp should).1
  | graph graph below ih => exact ih should
  | timed time below ih => exact ih (Bool.and_eq_true_iff.mp should).2

/-- At every point of an exploration, looking up a successor that it has computed loses nothing,
whether or not the successor is widened first. Runs lead from one such point to another. -/
theorem lookup_is_lossless (program : Program) {space : Space (k.State DataState)}
    {computed : List (k.State DataState)}
    (point : (k.valueAnalysis config).History program space computed) :
    (∀ s ∈ computed, ∀ t, t = s ∨ (k.valueAnalysis config).widen s = .ok t →
      (k.valueAnalysis config).Lossless space.reached t) ∧
    ∀ run fuel, ∃ more, (k.valueAnalysis config).History program
      (((k.valueAnalysis config).run run fuel).on space).2 (computed ++ more) := by
  have keeps := (k.numbered_invariant (DataState.analysis config) program).and
    (k.honest_invariant (DataState.analysis config) program)
  have relates := (k.relates (DataState.analysis config)).and
    (.trivial _ fun _ => k.Honest (DataState.analysis config))
  have tracks := point.tracks keeps relates
  refine ⟨fun s hs t wide => ?_, point.run⟩
  obtain ⟨honest, akin⟩ : k.Honest (DataState.analysis config) t ∧
      ∀ r ∈ space.reached.toList, k.Akin t r := by
    rcases wide with rfl | widened
    · exact ⟨(tracks.known t hs).2, fun r hr => (tracks.reached t hs r hr).1⟩
    · exact ⟨(keeps.widen .intro (tracks.known s hs) widened).2, fun r hr =>
        ((relates.widen widened r).2 (tracks.reached s hs r hr)).1⟩
  refine .of_filed tracks.filed (k.stopEach config) fun r hr matters => ?_
  apply k.keys_eq config honest (tracks.holds.reached r hr).2
  rcases matters with covers | merges
  · exact k.threads_of_stop config (akin r hr) covers
  · exact k.threads_of_shouldMerge config merges

namespace Loop

def body : Relation := ⟨0, "loop", .singleton 0, ∅, [⟨0, .skip, 0⟩]⟩

theorem distinct : (relationIds [⟨"a", [⟨0, .bootstrap, body⟩], []⟩]).Nodup := by decide

def program : Program := ⟨[⟨"a", [⟨0, .bootstrap, body⟩], []⟩], ∅, distinct⟩

/-- All states are under one key. -/
abbrev stack : Stack :=
  timed ⟨16⟩ (graph ⟨.standard, .delegate⟩ (scheduled program ⟨false, 1000⟩ (fun _ => 0)))

abbrev analysis : Analysis (stack.State DataState) := stack.valueAnalysis ⟨true, .all⟩

def threads : List Thread := [.start 0 "a" 0 0]

def root : stack.State DataState :=
  Timed.mk [] (Node.mk 0 ∅ (.singleton 0) (.start threads (.known ∅)) (.singleton 0))

def again : stack.State DataState :=
  Timed.mk [1] (Node.mk 1 (.singleton 0) (.singleton 1) ⟨threads, .singleton 0, ∅, .known ∅⟩
    (.singleton 0))

theorem seed_on : ∃ count, (analysis.seed program).on ⟨.start, ∅, ∅⟩ = (.ok count,
    (⟨⟨1, 1⟩, ∅, ∅⟩ : Space (stack.State DataState)).add root (analysis.keys root)) :=
  Analysis.seed_one (show (analysis.initial program).run .start = (.ok [root], ⟨1, 1⟩) from rfl)

theorem expanded : ∃ space, analysis.History program space [again] ∧
    root ∈ space.reached.toList := by
  have point : analysis.History program ((analysis.seed program).on ⟨.start, ∅, ∅⟩).2 [] :=
    .seeded .start
  obtain ⟨count, starts⟩ := seed_on
  rw [starts] at point
  have waits := Analysis.queue_add (s := root) (Space.valid_empty ⟨1, 1⟩) rfl (analysis.keys root)
  obtain ⟨popped, -, taken, -⟩ := Analysis.popNext_one (A := analysis) point.valid waits .fifo
  have succ : (analysis.succ root).run popped.ids = (.ok [again], ⟨1, 2⟩) := by
    rw [taken.ids]
    rfl
  refine ⟨_, point.expanded ⟨.fifo, none, false, false⟩ {} 0 taken succ, ?_⟩
  show root ∈ popped.reached.toList
  rw [taken.reached]
  exact (Space.mem_reached_add (Space.valid_empty _) _ _ _).mpr (.inl rfl)

end Loop

theorem covered_successor_is_found : ∃ space,
    Loop.analysis.History Loop.program space [Loop.again] ∧
      Loop.analysis.stop Loop.again
        (space.reached.partitionOf (Loop.analysis.keys Loop.again)) = true := by
  obtain ⟨space, point, reached⟩ := Loop.expanded
  obtain ⟨lossless, -⟩ := lookup_is_lossless ⟨true, .all⟩ Loop.stack Loop.program point
  have found := (lossless Loop.again List.mem_cons_self Loop.again (.inl rfl)).1
  refine ⟨space, point, found.trans ?_⟩
  exact (Loop.stack.stopEach ⟨true, .all⟩ _ _).mpr ⟨Loop.root, reached, by decide⟩

end Stack
end ActorAnalysis
