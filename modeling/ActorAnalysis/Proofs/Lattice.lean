import ActorAnalysis.Lattice

namespace ActorAnalysis

namespace AbstractLattice

/-- Inclusion is a partial order between bottom and top, in which `meet` is the greatest lower bound
and `join` is the least upper bound. -/
structure Lawful (E : Type) [AbstractLattice E] : Prop where
  refl (a : E) : included a a = true
  trans {a b c : E} : included a b = true → included b c = true → included a c = true
  antisymm {a b : E} : included a b = true → included b a = true → a = b
  bottom_included (a : E) : included bottom a = true
  included_top (a : E) : included a top = true
  included_meet {a b c : E} :
    included c (meet a b) = true ↔ included c a = true ∧ included c b = true
  join_included {a b c : E} :
    included (join a b) c = true ↔ included a c = true ∧ included b c = true

namespace Lawful

variable {E : Type} [AbstractLattice E] (lawful : Lawful E)
include lawful

theorem foldl_join_included {l : List E} {a u : E} :
    included (l.foldl join a) u = true ↔
      included a u = true ∧ ∀ b ∈ l, included b u = true := by
  induction l generalizing a with
  | nil => simp
  | cons b rest ih =>
    rw [List.foldl_cons, ih, lawful.join_included, and_assoc, List.forall_mem_cons]

theorem joinAll_included {l : List E} {u : E} :
    included (joinAll l) u = true ↔ ∀ a ∈ l, included a u = true := by
  unfold joinAll
  rw [lawful.foldl_join_included]
  exact and_iff_right (lawful.bottom_included u)

theorem included_joinAll {l : List E} {a : E} (member : a ∈ l) :
    included a (joinAll l) = true :=
  lawful.joinAll_included.mp (lawful.refl _) a member

theorem joinAll_congr {l l' : List E} (same : ∀ a, a ∈ l ↔ a ∈ l') : joinAll l = joinAll l' := by
  apply lawful.antisymm
  · apply lawful.joinAll_included.mpr
    intro a ha
    exact lawful.included_joinAll ((same a).mp ha)
  · apply lawful.joinAll_included.mpr
    intro a ha
    exact lawful.included_joinAll ((same a).mpr ha)

end Lawful
end AbstractLattice

namespace Flat

variable {α β γ : Type} [DecidableEq α] [DecidableEq β] [DecidableEq γ]

theorem included_iff {a b : Flat α} : a.included b = true ↔ a = bottom ∨ a = b ∨ b = top := by
  cases a <;> cases b <;> simp [included]

@[simp] theorem bottom_included (a : Flat α) : bottom.included a = true :=
  included_iff.mpr (.inl rfl)

@[simp] theorem included_refl (a : Flat α) : a.included a = true :=
  included_iff.mpr (.inr (.inl rfl))

@[simp] theorem included_top (a : Flat α) : a.included top = true :=
  included_iff.mpr (.inr (.inr rfl))

theorem included_trans {a b c : Flat α} (first : a.included b = true)
    (second : b.included c = true) : a.included c = true := by
  rcases included_iff.mp first with rfl | rfl | rfl
  · exact bottom_included c
  · exact second
  · rcases included_iff.mp second with h | rfl | rfl
    · exact nomatch h
    · exact first
    · exact included_top a

theorem included_antisymm {a b : Flat α} (first : a.included b = true)
    (second : b.included a = true) : a = b := by
  rcases included_iff.mp first with rfl | rfl | rfl
  · cases b <;> simp_all [included]
  · rfl
  · cases a <;> simp_all [included]

theorem meet_top (a : Flat α) : a.meet top = a := by
  cases a <;> rfl

theorem included_meet {a b c : Flat α} :
    c.included (a.meet b) = true ↔ c.included a = true ∧ c.included b = true := by
  cases a <;> cases b <;> cases c <;> simp only [meet] <;> grind [included]

theorem join_included {a b c : Flat α} :
    (a.join b).included c = true ↔ a.included c = true ∧ b.included c = true := by
  cases a <;> cases b <;> cases c <;> simp only [join] <;> grind [included]

omit [DecidableEq α] [DecidableEq β] [DecidableEq γ] in
theorem lift₂_bottom (f : α → β → γ) (a : Flat α) : lift₂ f a bottom = bottom := by
  cases a <;> rfl

omit [DecidableEq α] [DecidableEq β] [DecidableEq γ] in
theorem lift₂_eq_value {f : α → β → γ} {a : Flat α} {b : Flat β} {w : γ} :
    lift₂ f a b = value w ↔ ∃ u v, a = value u ∧ b = value v ∧ f u v = w := by
  cases a <;> cases b <;> simp [lift₂]

theorem lift₂_mono (f : α → β → γ) {a a' : Flat α} {b b' : Flat β} (ha : a.included a' = true)
    (hb : b.included b' = true) : (lift₂ f a b).included (lift₂ f a' b') = true := by
  rcases included_iff.mp ha with rfl | rfl | rfl
  · exact bottom_included _
  · rcases included_iff.mp hb with rfl | rfl | rfl
    · rw [lift₂_bottom]
      exact bottom_included _
    · exact included_refl _
    · cases a <;> simp [lift₂]
  · -- only a second bottom keeps the upper side from being unknown
    cases b' with
    | bottom =>
      have gone : b = bottom := included_antisymm hb (bottom_included b)
      rw [gone, lift₂_bottom]
      exact bottom_included _
    | value v => exact included_top _
    | top => exact included_top _

end Flat
end ActorAnalysis
