import ActorAnalysis.Proofs.Data.Order
import ActorAnalysis.Proofs.Merging
import ActorAnalysis.Proofs.Run.Trace
import ActorAnalysis.Proofs.Space.Partition
import ActorAnalysis.Proofs.Stack.Layers
import ActorAnalysis.Proofs.Stack.Scheduling
import ActorAnalysis.Proofs.Stack.Shape

namespace ActorAnalysis

theorem Analysis.Lifts.orders {O S : Type} {A : Analysis O} {I : Analysis S} {view : O → S}
    {below : S → S → Prop} (lifts : A.Lifts I view) (orders : I.Orders below)
    (stop : ∀ s t, I.stop (view s) [view t] = true → A.stop s [t] = true) :
    A.Orders (fun s t => below (view s) (view t)) where
  refl s := orders.refl (view s)
  trans first second := orders.trans first second
  merge should done := by
    obtain ⟨mid, ran, -⟩ := lifts.merge done
    exact orders.merge (lifts.shouldMerge should) ran
  stop h := stop _ _ (orders.stop h)

theorem DataState.orders (config : DataConfig) :
    (DataState.analysis config).Orders (fun s t => s.included t = true) where
  refl := included_refl
  trans := included_trans
  merge := by
    intro s t m ids after _ done
    obtain ⟨rfl, -⟩ := Alloc.run_pure_ok.mp done
    exact ⟨included_join_left s t, included_join_right s t⟩
  stop h := by
    simp [analysis, h]

namespace Scheduled

variable {program : Program} {config : ScheduleConfig} {key : List Thread → PartitionKey}
  {data : DataConfig}

def Below (s t : Scheduled DataState) : Prop :=
  s.threads = t.threads ∧ s.data.included t.data = true

theorem orders : (analysis program config key (DataState.analysis data)).Orders Below where
  refl s := ⟨rfl, DataState.included_refl s.data⟩
  trans first second :=
    ⟨first.1.trans second.1, DataState.included_trans first.2 second.2⟩
  merge := by
    intro s t m ids after should done
    obtain ⟨same, d, ran, rfl⟩ := run_merge_ok done
    obtain ⟨left, right⟩ := (DataState.orders data).merge (Bool.and_eq_true_iff.mp should).2 ran
    exact ⟨⟨rfl, left⟩, ⟨same.symm, right⟩⟩
  stop := by
    intro s t h
    simp [analysis, h.1, (DataState.orders data).stop h.2]

theorem merges : (analysis program config key (DataState.analysis data)).Merges
    (fun _ _ => True) where
  grows _ _ := trivial
  merge := by
    intro ids s t _ _ should
    have same : s.threads = t.threads := of_decide_eq_true (Bool.and_eq_true_iff.mp should).1
    refine ⟨s.combine t (s.data.join t.data), ids, ?_, trivial⟩
    simp only [analysis, if_pos same]
    rfl

end Scheduled

namespace Node

variable {W : Type} {A : Analysis W}

theorem orders {below : W → W → Prop} (config : GraphConfig) (inner : A.Orders below) :
    (analysis config A).Orders (fun m n => below m.inner n.inner) := by
  apply (lifts config A).orders inner
  intro m n stops
  exact Bool.or_eq_true_iff.mpr (.inr stops)

theorem run_fresh {predecessors : SortedSet NodeId} (mergeOf : SortedSet NodeId) (inner : W)
    {ids : Ids} (drawn : ∀ p ∈ predecessors, p < ids.nodes) :
    (fresh A predecessors mergeOf inner).run ids =
      (.ok ⟨ids.nodes, predecessors, mergeOf.insert ids.nodes, inner, A.keys inner⟩,
        { ids with nodes := ids.nodes + 1 }) := by
  have foreign : ids.nodes ∉ predecessors := fun own => Nat.lt_irrefl _ (drawn _ own)
  have inside : ids.nodes ∈ mergeOf.insert ids.nodes := (SortedSet.mem_insert ..).mpr (.inl rfl)
  simp only [fresh, Alloc.run_bind, Alloc.freshNode, Alloc.next_ok, make, if_neg foreign,
    if_pos inside]
  rfl

theorem run_combine {m n : Node W} (inner : W) {ids : Ids}
    (hm : ∀ p ∈ m.predecessors, p < ids.nodes) (hn : ∀ p ∈ n.predecessors, p < ids.nodes) :
    ∃ united after, (combine A m n inner).run ids = (.ok united, after) ∧ united.inner = inner ∧
      ∀ p ∈ united.predecessors, p < after.nodes := by
  have drawn : ∀ p ∈ (m.predecessors.union n.predecessors).filter
      (fun p => decide (p ∉ m.mergeOf.union n.mergeOf)), p < ids.nodes := by
    intro p hp
    rcases (SortedSet.mem_union ..).mp (SortedSet.mem_filter.mp hp).1 with old | old
    · exact hm p old
    · exact hn p old
  refine ⟨_, _, run_fresh (A := A) (m.mergeOf.union n.mergeOf) inner drawn, rfl, fun p hp => ?_⟩
  exact Nat.lt_succ_of_lt (drawn p hp)

theorem merges {inv : Ids → W → Prop} (config : GraphConfig) (inner : A.Merges inv) :
    (analysis config A).Merges
      (fun ids n => (∀ p ∈ n.predecessors, p < ids.nodes) ∧ inv ids n.inner) where
  grows h later := ⟨fun p hp => Nat.lt_of_lt_of_le (h.1 p hp) later.2, inner.grows h.2 later⟩
  merge := by
    intro ids m n hm hn should
    obtain ⟨w, mid, ran, kept⟩ := inner.merge hm.2 hn.2 should
    have later : ids ≤ mid := Alloc.le_of_run ran
    obtain ⟨united, after, made, rfl, drawn⟩ := run_combine (A := A) w
      (fun p hp => Nat.lt_of_lt_of_le (hm.1 p hp) later.2)
      (fun p hp => Nat.lt_of_lt_of_le (hn.1 p hp) later.2)
    exact ⟨united, after, Alloc.run_bind_ok.mpr ⟨_, mid, ran, made⟩, drawn,
      inner.grows kept (Alloc.le_of_run made)⟩

end Node

namespace Timed

variable {W : Type} {A : Analysis W}

theorem orders {below : W → W → Prop} (config : TimeConfig) (inner : A.Orders below) :
    (analysis config A).Orders (fun s t => below s.inner t.inner) := by
  apply (lifts config A).orders inner
  intro s t stops
  exact stops

theorem merges {inv : Ids → W → Prop} (config : TimeConfig) (inner : A.Merges inv) :
    (analysis config A).Merges (fun ids s => inv ids s.inner) where
  grows h later := inner.grows h later
  merge := by
    intro ids s t hs ht should
    obtain ⟨w, mid, ran, kept⟩ := inner.merge hs ht (Bool.and_eq_true_iff.mp should).2
    exact ⟨⟨s.profile.merge t.profile, w⟩, mid, Alloc.run_bind_ok.mpr ⟨w, mid, ran, rfl⟩, kept⟩

end Timed

namespace Stack

/-- The order that the data and the threads give to the states of a stack. -/
def Below : (k : Stack) → k.State DataState → k.State DataState → Prop
  | data, s, t => s.included t = true
  | scheduled _ _ _, s, t => Scheduled.Below s t
  | graph _ below, m, n => below.Below m.inner n.inner
  | timed _ below, s, t => below.Below s.inner t.inner

def Drawn {D : Type} (ids : Ids) : (k : Stack) → k.State D → Prop
  | data, _ => True
  | scheduled _ _ _, _ => True
  | graph _ below, n => (∀ p ∈ n.predecessors, p < ids.nodes) ∧ below.Drawn ids n.inner
  | timed _ below, s => below.Drawn ids s.inner

abbrev valueAnalysis (config : DataConfig) (k : Stack) : Analysis (k.State DataState) :=
  k.analysis (DataState.analysis config)

theorem orders (config : DataConfig) (k : Stack) : (k.valueAnalysis config).Orders k.Below := by
  induction k with
  | data => exact DataState.orders config
  | scheduled => exact Scheduled.orders
  | graph graph below ih => exact Node.orders graph ih
  | timed time below ih => exact Timed.orders time ih

theorem merges (config : DataConfig) (k : Stack) :
    (k.valueAnalysis config).Merges (fun ids => k.Drawn ids) := by
  induction k with
  | data =>
    refine ⟨fun _ _ => trivial, fun {ids s t} _ _ _ => ?_⟩
    exact ⟨s.join t, ids, rfl, trivial⟩
  | scheduled => exact Scheduled.merges
  | graph graph below ih => exact Node.merges graph ih
  | timed time below ih => exact Timed.merges time ih

/-- Standard merging gives a result if the predecessors in all states have been numbered. Whenever
it does, it has absorbed the counted states, and no coverage is lost. -/
theorem merging_loses_no_coverage (config : DataConfig) (k : Stack)
    {space : Space (k.State DataState)} {state : k.State DataState} (valid : space.Valid)
    (reached : state ∈ space.reached.toList) :
    ((∀ s ∈ space.reached.toList, k.Drawn space.ids s) → ∃ n after,
      (MergePolicy.standard.mergeInto (k.valueAnalysis config) state).on space = (.ok n, after)) ∧
    ∀ n after,
      (MergePolicy.standard.mergeInto (k.valueAnalysis config) state).on space = (.ok n, after) →
      ∃ absorbed, n = absorbed.length ∧
        (k.valueAnalysis config).Absorption k.Below state absorbed space after := by
  constructor
  · intro drawn
    obtain ⟨merged, absorbed, ids, ran⟩ := (k.merges config).absorb (drawn state reached)
      fun r hr => drawn r (Analysis.mem_of_mem_candidates hr).1
    exact ⟨_, _, Analysis.mergeInto_standard ran⟩
  · intro n after done
    have orders := k.orders config
    obtain ⟨merged, absorbed, ids, ran, rfl, rfl⟩ := Analysis.mergeInto_standard_ok done
    obtain ⟨own, above⟩ := orders.absorb ran
    obtain ⟨chosen, none⟩ := Analysis.absorb_sublist ran
    have distinct := chosen.nodup (Analysis.nodup_candidates valid)
    have others : ∀ r ∈ absorbed, r ∈ space.reached.toList ∧ r ≠ state := fun r hr =>
      Analysis.mem_of_mem_candidates (chosen.subset hr)
    have valid : (space.withIds ids).Valid := valid
    refine ⟨absorbed, rfl, ?_⟩
    by_cases alone : absorbed = []
    · rw [if_pos alone]
      exact ⟨distinct, others, none, fun _ => ⟨rfl, rfl⟩, fun some => absurd alone some,
        List.filter_sublist, orders.covered_self _, orders.covered_self _⟩
    · rw [if_neg alone]
      have found := Analysis.mem_reached_replaced (k.valueAnalysis config) state merged absorbed valid
      have waits := Analysis.mem_frontier_replaced (k.valueAnalysis config) state merged absorbed valid
      exact ⟨distinct, others, none, fun none => absurd none alone, fun _ => ⟨merged, found⟩,
        Analysis.untouched_replaced valid, orders.covered_replaced found own above,
        orders.covered_replaced waits own above⟩

namespace Pair

abbrev stack : Stack :=
  timed ⟨16⟩ (graph ⟨.standard, .passThrough⟩
    (scheduled Chain.program ⟨false, 1000⟩ (fun _ => 0)))

abbrev analysis : Analysis (stack.State DataState) := stack.valueAnalysis ⟨true, .all⟩

def holding (id : NodeId) (predecessors : SortedSet NodeId) (value : Int64) :
    stack.State DataState :=
  Timed.mk [1] (Node.mk id predecessors (.singleton id)
    (.start [] (.known ((∅ : SortedMap String Int64).insert "x" value))) (.singleton 0))

abbrev first : stack.State DataState := holding 0 ∅ 1

abbrev second : stack.State DataState := holding 1 (.singleton 0) 2

def before : Space (stack.State DataState) :=
  ((⟨⟨0, 2⟩, ∅, ∅⟩ : Space (stack.State DataState)).add first (analysis.keys first)).add second
    (analysis.keys second)

theorem valid_before : before.Valid := ((Space.valid_empty _).add _ _).add _ _

theorem mem_before (s : stack.State DataState) :
    s ∈ before.reached.toList ↔ s = second ∨ s = first := by
  have valid := Space.valid_empty (S := stack.State DataState) ⟨0, 2⟩
  unfold before
  rw [Space.mem_reached_add (valid.add first _), Space.mem_reached_add valid, Reached.toList_empty]
  simp

theorem candidate : first ∈ analysis.candidates second before := by
  have indexed : before.reached.Indexed :=
    Reached.indexed_insert (Reached.indexed_insert Reached.indexed_empty first _) second _
  have stored : Reached.Entry.mk first (analysis.keys first) ∈ before.reached.entries := by
    have alone : Reached.Entry.mk first (analysis.keys first) ∈
        ((∅ : Reached (stack.State DataState)).insert first (analysis.keys first)).2.entries := by
      have new : ¬(∅ : Reached (stack.State DataState)).contains first = true := by
        simp [Reached.contains_iff Reached.valid_empty, Reached.toList_empty]
      rw [Reached.entries_insert, if_neg new]
      exact List.mem_append_right _ List.mem_cons_self
    change _ ∈ (Reached.insert _ second _).2.entries
    rw [Reached.entries_insert]
    split
    · exact alone
    · exact List.mem_append_left _ alone
  apply List.mem_filter.mpr
  rw [Reached.partitionOf_eq indexed]
  constructor
  · exact List.mem_map.mpr ⟨_, List.mem_filter.mpr ⟨stored, by decide⟩, rfl⟩
  · decide

theorem merged_state_covers_both : ∃ n after,
    (MergePolicy.standard.mergeInto analysis second).on before = (.ok n, after) ∧ 0 < n ∧
      ∀ s ∈ [first, second], ∃ t ∈ after.reached.toList,
        analysis.stop s [t] = true ∧ stack.Below s t := by
  have reached : second ∈ before.reached.toList := (mem_before second).mpr (.inl rfl)
  obtain ⟨returns, spec⟩ := merging_loses_no_coverage ⟨true, .all⟩ stack valid_before reached
  obtain ⟨n, after, done⟩ := returns fun s hs => by
    rcases (mem_before s).mp hs with rfl | rfl
    · exact ⟨by decide, trivial⟩
    · exact ⟨by decide, trivial⟩
  obtain ⟨absorbed, rfl, absorption⟩ := spec n after done
  refine ⟨_, after, done, List.length_pos_iff.mpr fun none => ?_, fun s hs => ?_⟩
  · have apart := absorption.none.mp none first candidate
    exact absurd apart (by decide)
  · apply absorption.reached
    apply (mem_before s).mpr
    simpa [or_comm] using hs

end Pair
end Stack
end ActorAnalysis
