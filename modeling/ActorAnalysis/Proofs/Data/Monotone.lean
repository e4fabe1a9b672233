import ActorAnalysis.Proofs.Data.Inclusion

namespace ActorAnalysis

namespace DataState

theorem negated_mono {a b : Flat Bool} (below : a.included b = true) :
    (negated a).included (negated b) = true := by
  rcases Flat.included_iff.mp below with rfl | rfl | rfl
  · exact Flat.bottom_included _
  · exact Flat.included_refl _
  · exact Flat.included_top _

theorem both_comm (a b : Flat Bool) : both a b = both b a := by
  rcases a with _ | (_ | _) | _ <;> rcases b with _ | (_ | _) | _ <;> rfl

theorem both_mono_right (a : Flat Bool) {b b' : Flat Bool} (below : b.included b' = true) :
    (both a b).included (both a b') = true := by
  rcases Flat.included_iff.mp below with rfl | rfl | rfl
  · rw [both_comm]
    exact Flat.bottom_included _
  · exact Flat.included_refl _
  · cases a with
    | bottom => exact Flat.bottom_included _
    | value v =>
      cases v with
      | false => cases b <;> simp [both]
      | true => exact Flat.included_top _
    | top => exact Flat.included_top _

theorem both_mono {a a' b b' : Flat Bool} (ha : a.included a' = true)
    (hb : b.included b' = true) : (both a b).included (both a' b') = true := by
  have right := both_mono_right a hb
  have left := both_mono_right b' ha
  rw [both_comm b' a, both_comm b' a'] at left
  exact Flat.included_trans right left

theorem both_eq_true {a b : Flat Bool} :
    both a b = .value true ↔ a = .value true ∧ b = .value true := by
  rcases a with _ | (_ | _) | _ <;> rcases b with _ | (_ | _) | _ <;> simp [both]

variable {s t : DataState}

theorem eval_mono (below : s.included t = true) (e : Expr) :
    (s.eval e).included (t.eval e) = true := by
  induction e with
  | const c =>
    cases none : s.isInfeasible with
    | true => simp [eval, none]
    | false => simp [eval, none, feasible_of_included below none]
  | var name => exact included_iff_get.mp below name
  | add a b iha ihb => exact Flat.lift₂_mono _ iha ihb
  | sub a b iha ihb => exact Flat.lift₂_mono _ iha ihb

theorem holds_mono (below : s.included t = true) (c : Cond) :
    (s.holds c).included (t.holds c) = true := by
  induction c with
  | always | never =>
    cases none : s.isInfeasible with
    | true => simp [holds, none]
    | false => simp [holds, none, feasible_of_included below none]
  | eq a b => exact Flat.lift₂_mono _ (eval_mono below a) (eval_mono below b)
  | lt a b => exact Flat.lift₂_mono _ (eval_mono below a) (eval_mono below b)
  | not c ih => exact negated_mono ih
  | and a b iha ihb => exact both_mono iha ihb

theorem put_mono (below : s.included t = true) {f g : Flat Int64} (narrower : f.included g = true)
    (x : String) : (s.put x f).included (t.put x g) = true := by
  by_cases none : f = .bottom
  · rw [none, put_bottom]
    rfl
  · have possible : g ≠ .bottom := by
      rintro rfl
      exact none (Flat.included_antisymm narrower (Flat.bottom_included f))
    cases s with
    | infeasible => rfl
    | known m =>
      cases t with
      | infeasible => cases below
      | known n =>
        rw [included_iff_get] at below ⊢
        intro y
        rw [get_put m none, get_put n possible]
        split
        · exact narrower
        · exact below y

theorem assign_mono (below : s.included t = true) (x : String) (e : Expr) :
    (s.assign x e).included (t.assign x e) = true :=
  put_mono below (eval_mono below e) x

theorem assume_included (s : DataState) (c : Cond) : (s.assume c).included s = true :=
  included_iff_describes.mpr fun _ describes => describes.of_assume

theorem holds_cases (s : DataState) (c : Cond) :
    s.assume c = infeasible ∨ s.holds c = .value true ∨ s.holds c = .top := by
  cases h : s.holds c with
  | bottom => exact .inl (assume_of_refuted (by simp [h]))
  | value b =>
    cases b with
    | false => exact .inl (assume_of_refuted (by simp [h]))
    | true => exact .inr (.inl rfl)
  | top => exact .inr (.inr rfl)

theorem eval_const {c v : Int64} (is : s.eval (.const c) = .value v) : v = c := by
  unfold eval at is
  split at is
  · cases is
  · cases is
    rfl

theorem assume_equation (s : DataState) {cond : Cond} {x : String} {c : Int64}
    (equation : cond = .eq (.var x) (.const c) ∨ cond = .eq (.const c) (.var x)) :
    s.assume cond = infeasible ∨ s.assume cond = s.put x (.value c) := by
  rcases s.holds_cases cond with gone | known | undecided
  · exact .inl gone
  · have bound : s.get x = .value c := by
      rcases equation with rfl | rfl
      · obtain ⟨u, v, hu, hv, same⟩ := Flat.lift₂_eq_value.mp known
        rw [← eval_const hv, ← of_decide_eq_true same]
        exact hu
      · obtain ⟨u, v, hu, hv, same⟩ := Flat.lift₂_eq_value.mp known
        rw [← eval_const hu, of_decide_eq_true same]
        exact hv
    rw [assume_of_holds known, ← bound, put_get]
    exact .inr rfl
  · right
    rcases equation with rfl | rfl
    · rw [assume, undecided]
    · rw [assume, undecided]

theorem assume_equation_mono (below : s.included t = true) {cond : Cond} {x : String} {c : Int64}
    (equation : cond = .eq (.var x) (.const c) ∨ cond = .eq (.const c) (.var x)) :
    (s.assume cond).included (t.put x (.value c)) = true := by
  rcases s.assume_equation equation with gone | bound
  · rw [gone]
    rfl
  · rw [bound]
    exact put_mono below (Flat.included_refl _) x

theorem assume_and (s : DataState) (a b : Cond) :
    s.assume (.and a b) = infeasible ∨ s.assume (.and a b) = (s.assume a).assume b := by
  rcases s.holds_cases (.and a b) with gone | known | undecided
  · exact .inl gone
  · obtain ⟨ha, hb⟩ := both_eq_true.mp known
    rw [assume_of_holds known, assume_of_holds ha, assume_of_holds hb]
    exact .inr rfl
  · right
    rw [assume, undecided]

theorem assume_mono (below : s.included t = true) (c : Cond) :
    (s.assume c).included (t.assume c) = true := by
  have narrower := holds_mono below c
  fun_induction DataState.assume t c generalizing s with
  | case1 c t contradictory =>
    rw [contradictory] at narrower
    rw [assume_of_refuted (Flat.included_trans narrower (Flat.bottom_included _))]
    rfl
  | case2 c t refuted =>
    rw [refuted] at narrower
    rw [assume_of_refuted narrower]
    rfl
  | case3 => exact included_trans (assume_included s _) below
  | case4 => exact assume_equation_mono below (.inl rfl)
  | case5 => exact assume_equation_mono below (.inr rfl)
  | case6 t a b _ first second =>
    rcases s.assume_and a b with gone | sides
    · rw [gone]
      rfl
    · rw [sides]
      have kept := first below (holds_mono below a)
      exact second kept (holds_mono kept b)
  | case7 => exact included_trans (assume_included s _) below

theorem after_mono (below : s.included t = true) (op : Operation) :
    (s.after op).included (t.after op) = true := by
  cases op with
  | assign var expr => exact assign_mono below var expr
  | assume cond => exact assume_mono below cond
  | _ => exact below

theorem step_mono (below : s.included t = true) {op : Operation} {s' : DataState}
    (steps : s' ∈ s.step op) : ∃ t' ∈ t.step op, s'.included t' = true := by
  obtain ⟨feasible, rfl, left⟩ := mem_step.mp steps
  have narrower := after_mono below op
  exact ⟨t.after op, mem_step.mpr ⟨feasible_of_included below feasible, rfl,
    feasible_of_included narrower left⟩, narrower⟩

/-- Evaluation, assumptions, assignments and steps keep the order of data states. -/
theorem transfer_is_monotone (config : DataConfig) (below : s.included t = true) :
    (∀ e, (s.eval e).included (t.eval e) = true) ∧
    (∀ c, (s.holds c).included (t.holds c) = true) ∧
    (∀ c, (s.assume c).included (t.assume c) = true) ∧
    (∀ x e, (s.assign x e).included (t.assign x e) = true) ∧
    ∀ op, ∃ lower upper, (analysis config).succFor s op = .ok lower ∧
      (analysis config).succFor t op = .ok upper ∧
      ∀ s' ∈ lower, ∃ t' ∈ upper, s'.included t' = true :=
  ⟨eval_mono below, holds_mono below, assume_mono below, assign_mono below,
    fun op => ⟨s.step op, t.step op, rfl, rfl, fun _ steps => step_mono below steps⟩⟩

namespace Known

def lower : DataState := .known ((∅ : SortedMap String Int64).insert "x" 4)

/-- The first side tells the value of `x`, if it is not known, and decides the second one. -/
def cond : Cond := .and (.eq (.var "x") (.const 4)) (.lt (.var "x") (.const 5))

end Known

theorem known_state_stays_below_narrowed_one :
    Known.lower.holds Known.cond = .value true ∧ unknown.holds Known.cond = .top ∧
      unknown.assume Known.cond ≠ unknown ∧
      ∃ t ∈ unknown.step (.assume Known.cond), Known.lower.included t = true := by
  have below : Known.lower.included unknown = true := by decide
  obtain ⟨-, -, -, -, steps⟩ := transfer_is_monotone ⟨true, .all⟩ below
  obtain ⟨lower, upper, hlower, hupper, covered⟩ := steps (.assume Known.cond)
  cases hlower
  cases hupper
  refine ⟨by decide, by decide, by decide, covered Known.lower ?_⟩
  decide

end DataState
end ActorAnalysis
