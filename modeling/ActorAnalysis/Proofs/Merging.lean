import ActorAnalysis.Proofs.Run.Invariant
import ActorAnalysis.Proofs.Space.Order

namespace ActorAnalysis

namespace Analysis

section Absorb

variable {S : Type}

/-- An order in which a merge gives an upper bound, and a state covers what is below it. -/
structure Orders (A : Analysis S) (below : S → S → Prop) : Prop where
  refl : ∀ s, below s s
  trans : ∀ {s t u}, below s t → below t u → below s u
  merge : ∀ {s t m ids after}, A.shouldMerge s t = true →
    (A.merge s t).run ids = (.ok m, after) → below s m ∧ below t m
  stop : ∀ {s t}, below s t → A.stop s [t] = true

/-- States with `inv` are merged without an error, and the result has `inv` as well. -/
structure Merges (A : Analysis S) (inv : Ids → S → Prop) : Prop where
  grows : ∀ {ids after s}, inv ids s → ids ≤ after → inv after s
  merge : ∀ {ids s t}, inv ids s → inv ids t → A.shouldMerge s t = true →
    ∃ m after, (A.merge s t).run ids = (.ok m, after) ∧ inv after m

variable {A : Analysis S} {state final : S} {l absorbed : List S} {ids after : Ids}

theorem Merges.absorb {inv : Ids → S → Prop} (merges : A.Merges inv) (h : inv ids state)
    (others : ∀ r ∈ l, inv ids r) :
    ∃ final absorbed after, (A.absorb state l).run ids = (.ok (final, absorbed), after) := by
  induction l generalizing state ids with
  | nil => exact ⟨state, [], ids, rfl⟩
  | cons r rest ih =>
    unfold Analysis.absorb
    split
    · rename_i should
      obtain ⟨m, mid, ran, kept⟩ := merges.merge h (others r List.mem_cons_self) should
      have later : ids ≤ mid := Alloc.le_of_run ran
      obtain ⟨final, absorbed, after, rest⟩ := ih kept fun x hx =>
        merges.grows (others x (List.mem_cons_of_mem r hx)) later
      refine ⟨final, r :: absorbed, after, ?_⟩
      simp only [Alloc.run_bind, ran, Alloc.next_ok, rest, Alloc.run_pure]
    · exact ih h fun x hx => others x (List.mem_cons_of_mem r hx)

theorem Orders.absorb {below : S → S → Prop} (orders : A.Orders below)
    (ran : (A.absorb state l).run ids = (.ok (final, absorbed), after)) :
    below state final ∧ ∀ r ∈ absorbed, below r final := by
  have start : below state state ∧ ∀ r ∈ [], below r state :=
    ⟨orders.refl state, fun _ hr => absurd hr List.not_mem_nil⟩
  have step {ids after : Ids} {s r m : S} {done : List S}
      (above : below state s ∧ ∀ x ∈ done, below x s) (_ : r ∈ l)
      (should : A.shouldMerge s r = true) (merged : (A.merge s r).run ids = (.ok m, after)) :
      below state m ∧ ∀ x ∈ done ++ [r], below x m := by
    obtain ⟨left, right⟩ := orders.merge should merged
    refine ⟨orders.trans above.1 left, fun x hx => ?_⟩
    rcases List.mem_append.mp hx with hx | hx
    · exact orders.trans (above.2 x hx) left
    · exact List.mem_singleton.mp hx ▸ right
  exact (absorb_rule (fun _ s done => below state s ∧ ∀ r ∈ done, below r s) step (fun _ h => h) []
    start ran).1

/-- The absorbed states are some of the candidates, and none exactly if the state itself may be
merged with none of them. -/
theorem absorb_sublist (ran : (A.absorb state l).run ids = (.ok (final, absorbed), after)) :
    absorbed.Sublist l ∧ (absorbed = [] ↔ ∀ r ∈ l, A.shouldMerge state r = false) := by
  induction l generalizing state ids absorbed final after with
  | nil =>
    obtain ⟨same, -⟩ := Alloc.run_pure_ok.mp ran
    obtain ⟨-, rfl⟩ := Prod.mk.inj same
    simp
  | cons r rest ih =>
    unfold absorb at ran
    split at ran
    · rename_i should
      obtain ⟨m, mid, -, ran⟩ := Alloc.run_bind_ok.mp ran
      obtain ⟨⟨last, more⟩, mid', others, result⟩ := Alloc.run_bind_ok.mp ran
      obtain ⟨same, -⟩ := Alloc.run_pure_ok.mp result
      obtain ⟨-, rfl⟩ := Prod.mk.inj same
      exact ⟨(ih others).1.cons_cons r, by simp [should]⟩
    · rename_i apart
      obtain ⟨sublist, none⟩ := ih ran
      exact ⟨sublist.cons r, by simp [none, apart]⟩

/-- Each old state is covered by a new one that is above it. -/
def Covered (A : Analysis S) (below : S → S → Prop) (old new : List S) : Prop :=
  ∀ s ∈ old, ∃ t ∈ new, A.stop s [t] = true ∧ below s t

theorem Orders.covered_self {below : S → S → Prop} (orders : A.Orders below) (l : List S) :
    A.Covered below l l := by
  intro s hs
  exact ⟨s, hs, orders.stop (orders.refl s), orders.refl s⟩

theorem Orders.covered_replaced {below : S → S → Prop} (orders : A.Orders below)
    {old new : List S} (members : ∀ t, t ∈ new ↔ t = final ∨ t ∈ old ∧ t ∉ absorbed ++ [state])
    (own : below state final) (above : ∀ r ∈ absorbed, below r final) :
    A.Covered below old new := by
  intro s hs
  by_cases gone : s ∈ absorbed ++ [state]
  · have higher : below s final := by
      rcases List.mem_append.mp gone with gone | gone
      · exact above s gone
      · exact List.mem_singleton.mp gone ▸ own
    exact ⟨final, (members final).mpr (.inl rfl), orders.stop higher, higher⟩
  · exact ⟨s, (members s).mpr (.inr ⟨hs, gone⟩), orders.stop (orders.refl s), orders.refl s⟩

end Absorb

variable {S : Type} [DecidableEq S] [Hashable S]

/-- A space before and after a state has absorbed others. Unless there are none, one state takes
the place of all of them; the entries of all other states stay as they are, in their order. -/
structure Absorption (A : Analysis S) (below : S → S → Prop) (state : S) (absorbed : List S)
    (before after : Space S) : Prop where
  distinct : absorbed.Nodup
  others : ∀ r ∈ absorbed, r ∈ before.reached.toList ∧ r ≠ state
  none : absorbed = [] ↔ ∀ r ∈ A.candidates state before, A.shouldMerge state r = false
  unchanged : absorbed = [] → after.frontier = before.frontier ∧ after.reached = before.reached
  replaced : absorbed ≠ [] → ∃ merged, ∀ t, t ∈ after.reached.toList ↔
    t = merged ∨ t ∈ before.reached.toList ∧ t ∉ absorbed ++ [state]
  untouched : (before.reached.entries.filter
    (fun e => decide (e.state ∉ absorbed ++ [state]))).Sublist after.reached.entries
  reached : A.Covered below before.reached.toList after.reached.toList
  waiting : A.Covered below before.frontier.queue after.frontier.queue

variable {A : Analysis S} {state merged : S} {absorbed : List S} {space : Space S}

theorem mergeInto_standard {ids : Ids}
    (ran : (A.absorb state (A.candidates state space)).run space.ids =
      (.ok (merged, absorbed), ids)) :
    (MergePolicy.standard.mergeInto A state).on space = (.ok absorbed.length,
      if absorbed = [] then space.withIds ids
      else A.replaced state merged absorbed (space.withIds ids)) := by
  change (MergePolicy.mergeStandard A state).on space = _
  rw [mergeStandard_on, ran]
  cases absorbed with
  | nil => rfl
  | cons r rest => rfl

theorem mergeInto_standard_ok {after : Space S} {n : Nat}
    (done : (MergePolicy.standard.mergeInto A state).on space = (.ok n, after)) :
    ∃ merged absorbed ids, (A.absorb state (A.candidates state space)).run space.ids =
        (.ok (merged, absorbed), ids) ∧ n = absorbed.length ∧
      after = if absorbed = [] then space.withIds ids
        else A.replaced state merged absorbed (space.withIds ids) := by
  cases ran : (A.absorb state (A.candidates state space)).run space.ids with | mk result ids =>
  cases result with
  | error e =>
    have failed : (MergePolicy.mergeStandard A state).on space = (.ok n, after) := done
    simp [mergeStandard_on, ran] at failed
  | ok result =>
    obtain ⟨count, rfl⟩ := Prod.mk.inj ((mergeInto_standard ran).symm.trans done)
    exact ⟨result.1, result.2, ids, rfl, (Except.ok.inj count).symm, rfl⟩

theorem mem_of_mem_candidates {r : S} (member : r ∈ A.candidates state space) :
    r ∈ space.reached.toList ∧ r ≠ state :=
  ⟨mem_reached_of_mem_candidates member, of_decide_eq_true (List.mem_filter.mp member).2⟩

theorem nodup_candidates (valid : space.Valid) : (A.candidates state space).Nodup :=
  (Reached.nodup_partitionOf valid.2 (A.keys state)).filter _

theorem untouched_replaced (valid : space.Valid) :
    (space.reached.entries.filter (fun e => decide (e.state ∉ absorbed ++ [state]))).Sublist
      (A.replaced state merged absorbed space).reached.entries := by
  rw [← Space.entries_dropAll (absorbed ++ [state]) valid]
  unfold replaced Space.add
  rw [Reached.entries_insert]
  split
  · exact List.Sublist.refl _
  · exact List.sublist_append_left _ _

end Analysis
end ActorAnalysis
