import ActorAnalysis.Proofs.Stack.Merging

namespace ActorAnalysis

/-- An analysis joins exactly the states that are comparable, and it does so by merging them. It
refuses all others before it has drawn a number. -/
structure Analysis.Joins {S : Type} (A : Analysis S) (inv : Ids → S → Prop)
    (comparable : S → S → Prop) : Prop where
  unites : ∀ {ids s t}, inv ids s → inv ids t → comparable s t → ∃ j after,
    (A.join s t).run ids = (.ok j, after) ∧ (A.merge s t).run ids = (.ok j, after)
  refuses : ∀ {s t}, ¬ comparable s t → ∀ ids, ∃ e, (A.join s t).run ids = (.error e, ids)
  should : ∀ {s t}, A.shouldMerge s t = true → comparable s t

theorem DataState.joins (config : DataConfig) :
    (DataState.analysis config).Joins (fun _ _ => True) (fun _ _ => True) where
  unites {ids s t} _ _ _ := ⟨s.join t, ids, rfl, rfl⟩
  refuses apart := absurd trivial apart
  should _ := trivial

theorem Scheduled.joins {program : Program} {config : ScheduleConfig}
    {key : List Thread → PartitionKey} (data : DataConfig) :
    (analysis program config key (DataState.analysis data)).Joins (fun _ _ => True)
      (fun s t => s.threads = t.threads) where
  unites := by
    intro ids s t _ _ same
    refine ⟨s.combine t (s.data.join t.data), ids, ?_, ?_⟩
    · simp only [analysis, if_pos same]
      rfl
    · simp only [analysis, if_pos same]
      rfl
  refuses := by
    intro s t other ids
    refine ⟨.joinOfThreads, ?_⟩
    simp only [analysis, if_neg other]
    rfl
  should h := of_decide_eq_true (Bool.and_eq_true_iff.mp h).1

theorem Node.joins {W : Type} {A : Analysis W} {inv : Ids → W → Prop} {comparable : W → W → Prop}
    (config : GraphConfig) (inner : A.Joins inv comparable) :
    (analysis config A).Joins
      (fun ids n => (∀ p ∈ n.predecessors, p < ids.nodes) ∧ inv ids n.inner)
      (fun m n => comparable m.inner n.inner) where
  unites := by
    intro ids m n hm hn alike
    obtain ⟨w, mid, joined, merged⟩ := inner.unites hm.2 hn.2 alike
    -- the inner states may have drawn numbers, so the predecessors are older still
    have later : ids ≤ mid := Alloc.le_of_run joined
    obtain ⟨united, after, made, -⟩ := run_combine (A := A) w
      (fun p hp => Nat.lt_of_lt_of_le (hm.1 p hp) later.2)
      (fun p hp => Nat.lt_of_lt_of_le (hn.1 p hp) later.2)
    exact ⟨united, after, Alloc.run_bind_ok.mpr ⟨w, mid, joined, made⟩,
      Alloc.run_bind_ok.mpr ⟨w, mid, merged, made⟩⟩
  refuses := by
    intro m n apart ids
    obtain ⟨e, refused⟩ := inner.refuses apart ids
    exact ⟨e, Alloc.run_bind_error refused⟩
  should h := inner.should h

theorem Timed.joins {W : Type} {A : Analysis W} {inv : Ids → W → Prop}
    {comparable : W → W → Prop} (config : TimeConfig) (inner : A.Joins inv comparable) :
    (analysis config A).Joins (fun ids s => inv ids s.inner)
      (fun s t => s.profile.length = t.profile.length ∧ comparable s.inner t.inner) where
  unites := by
    intro ids s t hs ht alike
    obtain ⟨w, after, joined, merged⟩ := inner.unites hs ht alike.2
    refine ⟨⟨s.profile.merge t.profile, w⟩, after, ?_, ?_⟩
    · simp only [analysis, if_pos alike.1]
      exact Alloc.run_bind_ok.mpr ⟨w, after, joined, rfl⟩
    · exact Alloc.run_bind_ok.mpr ⟨w, after, merged, rfl⟩
  refuses := by
    intro s t apart ids
    by_cases long : s.profile.length = t.profile.length
    · obtain ⟨e, refused⟩ := inner.refuses (fun alike => apart ⟨long, alike⟩) ids
      simp only [analysis, if_pos long]
      exact ⟨e, Alloc.run_bind_error refused⟩
    · simp only [analysis, if_neg long]
      exact ⟨.joinOfProfiles, rfl⟩
  should h := by
    obtain ⟨long, h⟩ := Bool.and_eq_true_iff.mp h
    exact ⟨of_decide_eq_true long, inner.should h⟩

namespace Stack

/-- The states have the same threads, and profiles of the same length at each layer of time. -/
def Comparable {D : Type} : (k : Stack) → k.State D → k.State D → Prop
  | data, _, _ => True
  | scheduled _ _ _, s, t => s.threads = t.threads
  | graph _ below, m, n => below.Comparable m.inner n.inner
  | timed _ below, s, t =>
    s.profile.length = t.profile.length ∧ below.Comparable s.inner t.inner

theorem joins (config : DataConfig) (k : Stack) :
    (k.valueAnalysis config).Joins (fun ids => k.Drawn ids) k.Comparable := by
  induction k with
  | data => exact DataState.joins config
  | scheduled => exact Scheduled.joins config
  | graph graph below ih => exact Node.joins graph ih
  | timed time below ih => exact Timed.joins time ih

/-- In any stack, a join that succeeds has the same result as the merge, and draws the same numbers;
states that should be merged can be joined; and a join that fails has drawn no number. Of the
numbers in both states, only those of predecessors need to have been drawn before. -/
theorem join_agrees_with_merge (config : DataConfig) (k : Stack) {ids : Ids}
    {s t : k.State DataState} (hs : k.Drawn ids s) (ht : k.Drawn ids t) :
    (∀ j after, ((k.valueAnalysis config).join s t).run ids = (.ok j, after) →
      ((k.valueAnalysis config).merge s t).run ids = (.ok j, after)) ∧
    ((k.valueAnalysis config).shouldMerge s t = true →
      ∃ j after, ((k.valueAnalysis config).join s t).run ids = (.ok j, after)) ∧
    ∀ e after, ((k.valueAnalysis config).join s t).run ids = (.error e, after) → after = ids := by
  have joins := k.joins config
  by_cases alike : k.Comparable s t
  · obtain ⟨j, after, joined, merged⟩ := joins.unites hs ht alike
    rw [joined]
    refine ⟨fun j' after' same => ?_, fun _ => ⟨j, after, rfl⟩, fun e after' failed => ?_⟩
    · cases same
      exact merged
    · cases failed
  · obtain ⟨e, refused⟩ := joins.refuses alike ids
    rw [refused]
    refine ⟨fun j after joined => ?_, fun should => absurd (joins.should should) alike,
      fun e' after same => ?_⟩
    · cases joined
    · cases same
      rfl

namespace Nested

abbrev stack : Stack := graph ⟨.standard, .passThrough⟩ Pair.stack

abbrev analysis : Analysis (stack.State DataState) := stack.valueAnalysis ⟨true, .all⟩

def numbered (id : NodeId) (inner : Pair.stack.State DataState) : stack.State DataState :=
  Node.mk id ∅ (.singleton id) inner (.singleton 0)

abbrev first : stack.State DataState := numbered 2 Pair.first

abbrev second : stack.State DataState := numbered 3 Pair.second

abbrev late : stack.State DataState := numbered 4 { Pair.second with profile := [1, 2] }

theorem drawn {n : stack.State DataState} (member : n ∈ [first, second, late]) :
    stack.Drawn ⟨0, 5⟩ n := by
  have foreign (p : NodeId) (inside : p ∈ (∅ : SortedSet NodeId)) : p < 5 :=
    absurd inside (SortedSet.not_mem_empty p)
  have known (p : NodeId) (inside : p ∈ SortedSet.singleton 0) : p < 5 := by
    rw [SortedSet.mem_singleton.mp inside]
    decide
  simp only [List.mem_cons, List.not_mem_nil, or_false] at member
  rcases member with rfl | rfl | rfl
  · exact ⟨foreign, foreign, trivial⟩
  · exact ⟨foreign, known, trivial⟩
  · exact ⟨foreign, known, trivial⟩

end Nested

/-- Both graphs number the joined state. The profiles differ below the outer graph, which has not
drawn a number either when the join is refused. -/
theorem nested_graphs_join_as_they_merge :
    (∀ n ∈ [Nested.first, Nested.second, Nested.late], Nested.stack.Drawn ⟨0, 5⟩ n) ∧
    (∃ j after, (Nested.analysis.join Nested.first Nested.second).run ⟨0, 5⟩ = (.ok j, after) ∧
      (Nested.analysis.merge Nested.first Nested.second).run ⟨0, 5⟩ = (.ok j, after) ∧
      after = ⟨0, 7⟩) ∧
    ∃ after, (Nested.analysis.join Nested.first Nested.late).run ⟨0, 5⟩ =
      (.error .joinOfProfiles, after) ∧ after = ⟨0, 5⟩ := by
  have drawn (n) (member : n ∈ [Nested.first, Nested.second, Nested.late]) := Nested.drawn member
  have first := drawn Nested.first (by simp)
  obtain ⟨agrees, should, -⟩ := join_agrees_with_merge ⟨true, .all⟩ Nested.stack first
    (drawn Nested.second (by simp))
  obtain ⟨-, -, refuses⟩ := join_agrees_with_merge ⟨true, .all⟩ Nested.stack first
    (drawn Nested.late (by simp))
  refine ⟨drawn, ?_, _, rfl, refuses .joinOfProfiles _ rfl⟩
  obtain ⟨j, after, joined⟩ := should (by decide)
  refine ⟨j, after, joined, agrees j after joined, ?_⟩
  cases joined
  rfl

end Stack
end ActorAnalysis
