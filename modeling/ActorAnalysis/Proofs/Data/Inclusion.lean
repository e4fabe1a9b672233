import ActorAnalysis.Proofs.Data.Transfer

/-! The order on data states against memories. A state describes a memory variable by variable, and
every value that it allows to a variable occurs in a memory that it describes; so the order, which
looks only at the variables bound above, is inclusion of the described memories. -/
namespace ActorAnalysis

namespace Flat

/-- There are at least two words, so nothing but the top stands for all of them. -/
theorem included_of_fits {a b : Flat Int64} (below : ∀ v, a.Fits v → b.Fits v) :
    a.included b = true := by
  cases a with
  | bottom => exact bottom_included b
  | value v =>
    rcases (below v rfl).top_or_value with rfl | rfl
    · exact included_top _
    · exact included_refl _
  | top =>
    cases b with
    | bottom => exact (below 0 trivial).elim
    | value w =>
      have same : w + 1 = w := below (w + 1) trivial
      simp at same
    | top => exact included_refl _

theorem fits_meet {α : Type} [DecidableEq α] {a b : Flat α} {v : α} :
    (a.meet b).Fits v ↔ a.Fits v ∧ b.Fits v := by
  cases a <;> cases b <;> simp only [meet] <;> grind [Fits]

end Flat

namespace DataState

variable {s t : DataState} {σ : Valuation}

theorem describes_iff_get : s.Describes σ ↔ ∀ x, (s.get x).Fits (σ x) := by
  refine ⟨Describes.get, fun fits => ?_⟩
  cases s with
  | infeasible => exact fits ""
  | known m =>
    intro x v bound
    exact (fits x).eq (get_eq_value.mpr bound)

theorem exists_memory (feasible : s.isInfeasible = false) : ∃ σ, s.Describes σ := by
  cases s with
  | infeasible => cases feasible
  | known m =>
    refine ⟨fun x => (m.get? x).getD 0, fun x v bound => ?_⟩
    simp [bound]

theorem exists_describes (feasible : s.isInfeasible = false) {x : String} {v : Int64}
    (fits : (s.get x).Fits v) : ∃ σ, s.Describes σ ∧ σ x = v := by
  obtain ⟨σ, describes⟩ := exists_memory feasible
  have changed := describes.put fits x
  rw [put_get] at changed
  exact ⟨σ.set x v, changed, by simp [Valuation.set]⟩

theorem included_iff_describes :
    s.included t = true ↔ ∀ σ, s.Describes σ → t.Describes σ := by
  constructor
  · intro below σ describes
    exact describes.included below
  · intro below
    cases feasible : s.isInfeasible with
    | true =>
      cases s with
      | infeasible => rfl
      | known m => cases feasible
    | false =>
      apply included_iff_get.mpr
      intro x
      apply Flat.included_of_fits
      intro v fits
      obtain ⟨σ, describes, rfl⟩ := exists_describes feasible fits
      exact (below σ describes).get x

theorem describes_meet : (s.meet t).Describes σ ↔ s.Describes σ ∧ t.Describes σ := by
  obtain ⟨left, right⟩ := included_meet.mp (included_refl (s.meet t))
  refine ⟨fun describes => ⟨describes.included left, describes.included right⟩, ?_⟩
  rintro ⟨hs, ht⟩
  cases s with
  | infeasible => exact hs.elim
  | known m =>
    cases t with
    | infeasible => exact ht.elim
    | known n =>
      -- the common memory rules out a clash
      have fits (x : String) : (((known m).get x).meet ((known n).get x)).Fits (σ x) :=
        Flat.fits_meet.mpr ⟨hs.get x, ht.get x⟩
      have compatible (x : String) : ((known m).get x).meet ((known n).get x) ≠ .bottom := by
        intro clash
        have none := fits x
        rw [clash] at none
        exact none
      apply describes_iff_get.mpr
      intro x
      rw [get_meet compatible]
      exact fits x

/-- An infeasible state binds nothing, so there is only one. Up to that, a state is the set of its
memories: inclusion of states is inclusion of memories, a meet describes the common memories, and
the join of a list is the least state above its members, in whatever order and number they come. -/
theorem lattice_is_inclusion_of_memories :
    (∀ s : DataState, s.isInfeasible = true → s = AbstractLattice.bottom) ∧
    (∀ s t : DataState, s.included t = true ↔ ∀ σ, s.Describes σ → t.Describes σ) ∧
    AbstractLattice.Lawful DataState ∧
    (∀ (s t : DataState) (σ : Valuation),
      (s.meet t).Describes σ ↔ s.Describes σ ∧ t.Describes σ) ∧
    (∀ (l : List DataState) (u : DataState),
      (AbstractLattice.joinAll l).included u = true ↔ ∀ s ∈ l, s.included u = true) ∧
    ∀ l l' : List DataState, (∀ s, s ∈ l ↔ s ∈ l') →
      AbstractLattice.joinAll l = AbstractLattice.joinAll l' := by
  refine ⟨fun s none => ?_, fun s t => included_iff_describes, lawful,
    fun s t σ => describes_meet, fun l u => lawful.joinAll_included,
    fun l l' same => lawful.joinAll_congr same⟩
  cases s with
  | infeasible => rfl
  | known m => cases none

namespace Clash

def left : DataState := .known (((∅ : SortedMap String Int64).insert "x" 1).insert "y" 2)

def right : DataState := .known (((∅ : SortedMap String Int64).insert "x" 1).insert "y" 3)

def shared : DataState := .known ((∅ : SortedMap String Int64).insert "x" 1)

end Clash

theorem clashing_states_share_no_memory :
    (∀ σ, Clash.left.Describes σ → Clash.shared.Describes σ) ∧
      (∀ σ, ¬(Clash.left.Describes σ ∧ Clash.right.Describes σ)) ∧
      AbstractLattice.joinAll [Clash.left, Clash.right, Clash.left] = Clash.shared := by
  obtain ⟨-, inclusion, -, meet, -, regardless⟩ := lattice_is_inclusion_of_memories
  refine ⟨(inclusion Clash.left Clash.shared).mp (by decide), fun σ common => ?_, ?_⟩
  · exact (meet Clash.left Clash.right σ).mpr common
  · have twice : ∀ s, s ∈ [Clash.left, Clash.right, Clash.left] ↔
        s ∈ [Clash.right, Clash.left] := by
      intro s
      simp only [List.mem_cons]
      grind
    rw [regardless _ _ twice]
    decide

end DataState
end ActorAnalysis
