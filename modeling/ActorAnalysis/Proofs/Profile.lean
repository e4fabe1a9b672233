import ActorAnalysis.Timed

namespace ActorAnalysis.Profile

variable {a b : Nat} {p q r : Profile}

/-- The second profile is no shorter, and no time stamp of the first is later than its own. -/
structure Below (p q : Profile) : Prop where
  length : p.length ≤ q.length
  stamps : ∀ (i : Nat) (_ : i < p.length) (_ : i < q.length), p[i] ≤ q[i]

theorem nil_below (q : Profile) : Below [] q where
  length := Nat.zero_le q.length
  stamps _ outside := absurd outside (Nat.not_lt_zero _)

theorem not_cons_below_nil : ¬ Below (a :: p) [] := fun below =>
  absurd below.length (Nat.not_succ_le_zero _)

theorem cons_below_cons : Below (a :: p) (b :: q) ↔ a ≤ b ∧ Below p q := by
  constructor
  · intro below
    have first : a ≤ b := below.stamps 0 (Nat.succ_pos _) (Nat.succ_pos _)
    refine ⟨first, Nat.le_of_succ_le_succ below.length, fun i hp hq => ?_⟩
    exact below.stamps (i + 1) (Nat.succ_lt_succ hp) (Nat.succ_lt_succ hq)
  · rintro ⟨first, below⟩
    refine ⟨Nat.succ_le_succ below.length, fun i hp hq => ?_⟩
    cases i with
    | zero => exact first
    | succ i => exact below.stamps i (Nat.lt_of_succ_lt_succ hp) (Nat.lt_of_succ_lt_succ hq)

theorem Below.refl (p : Profile) : Below p p := ⟨Nat.le_refl _, fun _ _ _ => Nat.le_refl _⟩

theorem Below.trans (pq : Below p q) (qr : Below q r) : Below p r where
  length := Nat.le_trans pq.length qr.length
  stamps i hp hr := by
    have inside : i < q.length := Nat.lt_of_lt_of_le hp pq.length
    exact Nat.le_trans (pq.stamps i hp inside) (qr.stamps i inside hr)

theorem Below.antisymm (pq : Below p q) (qp : Below q p) : p = q := by
  apply List.ext_getElem (Nat.le_antisymm pq.length qp.length)
  intro i hp hq
  exact Nat.le_antisymm (pq.stamps i hp hq) (qp.stamps i hq hp)

theorem eq_of_same_above (same : ∀ r, Below p r ↔ Below q r) : p = q :=
  ((same q).mpr (Below.refl q)).antisymm ((same p).mp (Below.refl p))

@[simp] theorem merge_nil (p : Profile) : p.merge [] = p := by
  cases p <;> rfl

theorem merge_below_iff : Below (p.merge q) r ↔ Below p r ∧ Below q r := by
  induction p generalizing q r with
  | nil => simp [merge, nil_below]
  | cons a p ih =>
    cases q with
    | nil => simp [nil_below]
    | cons b q =>
      cases r with
      | nil => simp [merge, not_cons_below_nil]
      | cons c r =>
        simp only [merge, cons_below_cons, ih, Nat.max_le]
        exact and_and_and_comm

theorem mem_or_mem_of_mem_merge {t : Nat} (member : t ∈ p.merge q) : t ∈ p ∨ t ∈ q := by
  induction p generalizing q with
  | nil => exact .inr member
  | cons a p ih =>
    cases q with
    | nil => exact .inl member
    | cons b q =>
      rcases List.mem_cons.mp member with rfl | later
      · rcases Nat.le_total a b with le | le <;> simp [le]
      · exact (ih later).imp (List.mem_cons_of_mem a) (List.mem_cons_of_mem b)

/-- The merged profile is the one least upper bound, and its time stamps are those of the operands;
so merging is commutative, associative and idempotent, and the empty profile is its unit. -/
theorem merge_is_least_upper_bound :
    (∀ p q m : Profile, p.merge q = m ↔
      Below p m ∧ Below q m ∧ ∀ r, Below p r → Below q r → Below m r) ∧
    (∀ p q : Profile, ∀ t ∈ p.merge q, t ∈ p ∨ t ∈ q) ∧
    (∀ p q : Profile, p.merge q = q.merge p) ∧
    (∀ p q r : Profile, (p.merge q).merge r = p.merge (q.merge r)) ∧
    (∀ p : Profile, p.merge p = p) ∧
    ∀ p : Profile, merge [] p = p ∧ p.merge [] = p := by
  refine ⟨fun p q m => ⟨?_, ?_⟩, fun p q t => mem_or_mem_of_mem_merge, fun p q => ?_,
    fun p q r => ?_, fun p => ?_, fun p => ⟨rfl, merge_nil p⟩⟩
  · rintro rfl
    obtain ⟨left, right⟩ := merge_below_iff.mp (Below.refl (p.merge q))
    exact ⟨left, right, fun r hp hq => merge_below_iff.mpr ⟨hp, hq⟩⟩
  · rintro ⟨left, right, least⟩
    apply eq_of_same_above
    intro r
    rw [merge_below_iff]
    exact ⟨fun both => least r both.1 both.2, fun above => ⟨left.trans above, right.trans above⟩⟩
  · exact eq_of_same_above fun above => by simp only [merge_below_iff, and_comm]
  · exact eq_of_same_above fun above => by simp only [merge_below_iff, and_assoc]
  · exact eq_of_same_above fun above => by simp only [merge_below_iff, and_self]

/-- Each of the three is the latest at one position. -/
example : merge (merge [3] [1, 5]) [2, 2, 7] = [3, 5, 7] := rfl

end ActorAnalysis.Profile
