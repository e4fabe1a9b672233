import ActorAnalysis.Data.Analysis
import ActorAnalysis.Proofs.Data.Order

namespace ActorAnalysis

/-- A memory that gives every variable a value. -/
abbrev Valuation := String → Int64

def Expr.value (σ : Valuation) : Expr → Int64
  | const c => c
  | var name => σ name
  | add a b => a.value σ + b.value σ
  | sub a b => a.value σ - b.value σ

def Cond.holdsIn (σ : Valuation) : Cond → Bool
  | always => true
  | never => false
  | eq a b => decide (a.value σ = b.value σ)
  | lt a b => decide (a.value σ < b.value σ)
  | not c => !c.holdsIn σ
  | and a b => a.holdsIn σ && b.holdsIn σ

namespace Valuation

def set (σ : Valuation) (var : String) (v : Int64) : Valuation :=
  fun x => if x = var then v else σ x

def step (σ : Valuation) : Operation → List Valuation
  | .assign var expr => [σ.set var (expr.value σ)]
  | .assume cond => if cond.holdsIn σ then [σ] else []
  | _ => [σ]

theorem mem_step_assume {σ τ : Valuation} {cond : Cond} :
    τ ∈ σ.step (.assume cond) ↔ τ = σ ∧ cond.holdsIn σ = true := by
  simp only [step]
  split
  · rename_i holds
    simp [holds]
  · rename_i fails
    simp [fails]

end Valuation

def Flat.Fits {α : Type} : Flat α → α → Prop
  | bottom, _ => False
  | value a, b => b = a
  | top, _ => True

theorem Flat.Fits.eq {α : Type} {f : Flat α} {a b : α} (fits : f.Fits b) (is : f = .value a) :
    b = a := by
  subst is
  exact fits

theorem Flat.fits_lift₂ {α β γ : Type} (f : α → β → γ) {a : Flat α} {b : Flat β} {x : α} {y : β}
    (ha : a.Fits x) (hb : b.Fits y) : (lift₂ f a b).Fits (f x y) := by
  cases a <;> cases b <;> simp_all [Fits, lift₂]

namespace DataState

/-- The memories that a data state stands for. -/
def Describes : DataState → Valuation → Prop
  | infeasible, _ => False
  | known m, σ => ∀ x v, m.get? x = some v → σ x = v

def Binds (s : DataState) (names : List String) : Prop := ∀ x ∈ names, ∃ v, s.get x = .value v

def after (s : DataState) : Operation → DataState
  | .assign var expr => s.assign var expr
  | .assume cond => s.assume cond
  | _ => s

theorem mem_step {s t : DataState} {op : Operation} :
    t ∈ s.step op ↔ s.isInfeasible = false ∧ t = s.after op ∧ t.isInfeasible = false := by
  cases s with
  | infeasible => simp [step, isInfeasible]
  | known m =>
    have unfolded : (known m).step op =
        if ((known m).after op).isInfeasible then [] else [(known m).after op] := by
      cases op <;> rfl
    rw [unfolded]
    split
    · rename_i gone
      constructor
      · exact fun h => absurd h List.not_mem_nil
      · rintro ⟨-, rfl, left⟩
        simp [gone] at left
    · rename_i left
      rw [List.mem_singleton]
      constructor
      · rintro rfl
        exact ⟨rfl, rfl, by simpa using left⟩
      · exact fun h => h.2.1

section Soundness

variable {s t : DataState} {σ : Valuation}

theorem Describes.feasible (describes : s.Describes σ) : s.isInfeasible = false := by
  cases s with
  | infeasible => exact describes.elim
  | known m => rfl

theorem Describes.get (describes : s.Describes σ) (x : String) : (s.get x).Fits (σ x) := by
  cases s with
  | infeasible => exact describes.elim
  | known m =>
    cases bound : m.get? x with
    | none => simp [DataState.get, bound, Flat.Fits]
    | some v => simpa [DataState.get, bound, Flat.Fits] using describes x v bound

theorem Describes.put (describes : s.Describes σ) {f : Flat Int64} {v : Int64} (fits : f.Fits v)
    (var : String) : (s.put var f).Describes (σ.set var v) := by
  cases s with
  | infeasible => exact describes
  | known m =>
    cases f with
    | bottom => exact fits
    | value w =>
      intro x u bound
      rw [SortedMap.get?_insert] at bound
      unfold Valuation.set
      split
      · rename_i same
        rw [if_pos same] at bound
        exact Eq.trans fits (Option.some.inj bound)
      · rename_i other
        rw [if_neg other] at bound
        exact describes x u bound
    | top =>
      intro x u bound
      rw [SortedMap.get?_erase] at bound
      unfold Valuation.set
      split
      · rename_i same
        simp [same] at bound
      · rename_i other
        exact describes x u (by simpa [other] using bound)

theorem Describes.eval (describes : s.Describes σ) (e : Expr) :
    (s.eval e).Fits (e.value σ) := by
  induction e with
  | const c => simp [DataState.eval, describes.feasible, Flat.Fits, Expr.value]
  | var name => exact describes.get name
  | add a b iha ihb => exact Flat.fits_lift₂ (· + ·) iha ihb
  | sub a b iha ihb => exact Flat.fits_lift₂ (· - ·) iha ihb

theorem fits_negated {a : Flat Bool} {x : Bool} (h : a.Fits x) : (negated a).Fits (!x) := by
  cases a <;> simp_all [Flat.Fits, negated]

theorem fits_both {a b : Flat Bool} {x y : Bool} (ha : a.Fits x) (hb : b.Fits y) :
    (both a b).Fits (x && y) := by
  cases a with
  | bottom => exact ha.elim
  | value u =>
    cases b with
    | bottom => exact hb.elim
    | value v => cases u <;> cases v <;> simp_all [Flat.Fits, both]
    | top => cases u <;> simp_all [Flat.Fits, both]
  | top =>
    cases b with
    | bottom => exact hb.elim
    | value v => cases v <;> simp_all [Flat.Fits, both]
    | top => trivial

theorem Describes.holds (describes : s.Describes σ) (c : Cond) :
    (s.holds c).Fits (c.holdsIn σ) := by
  induction c with
  | always => simp [DataState.holds, describes.feasible, Flat.Fits, Cond.holdsIn]
  | never => simp [DataState.holds, describes.feasible, Flat.Fits, Cond.holdsIn]
  | eq a b => exact Flat.fits_lift₂ _ (describes.eval a) (describes.eval b)
  | lt a b => exact Flat.fits_lift₂ _ (describes.eval a) (describes.eval b)
  | not c ih => exact fits_negated ih
  | and a b iha ihb => exact fits_both iha ihb

theorem Describes.learn (describes : s.Describes σ) {x : String} {c : Int64} (is : σ x = c) :
    (s.put x (.value c)).Describes σ := by
  have same : σ.set x c = σ := by
    funext y
    unfold Valuation.set
    split
    · rename_i h
      rw [h, is]
    · rfl
  exact same ▸ describes.put (f := .value c) rfl x

theorem assume_of_refuted {c : Cond} (refuted : (s.holds c).included (.value false) = true) :
    s.assume c = infeasible := by
  unfold assume
  rcases Flat.included_iff.mp refuted with h | h | h
  · simp [h]
  · simp [h]
  · cases h

theorem assume_of_holds {c : Cond} (holds : s.holds c = .value true) : s.assume c = s := by
  unfold assume
  simp [holds]

theorem Describes.assume (describes : s.Describes σ) {c : Cond} (holds : c.holdsIn σ = true) :
    (s.assume c).Describes σ := by
  have fits := describes.holds c
  fun_induction DataState.assume s c with
  | case1 c s contradictory =>
    rw [contradictory] at fits
    exact fits.elim
  | case2 c s refuted =>
    rw [refuted, holds] at fits
    exact nomatch fits
  | case3 => exact describes
  | case4 s x c => exact describes.learn (of_decide_eq_true holds)
  | case5 s c x => exact describes.learn (of_decide_eq_true holds).symm
  | case6 s a b _ first second =>
    obtain ⟨ha, hb⟩ := Bool.and_eq_true_iff.mp holds
    have kept := first describes ha (describes.holds a)
    exact second kept hb (kept.holds b)
  | case7 => exact describes

theorem Describes.step (describes : s.Describes σ) {op : Operation} {τ : Valuation}
    (steps : τ ∈ σ.step op) : ∃ t ∈ s.step op, t.Describes τ := by
  have after : (s.after op).Describes τ := by
    cases op with
    | assign var expr =>
      rw [List.mem_singleton.mp steps]
      exact describes.put (describes.eval expr) var
    | assume cond =>
      obtain ⟨rfl, holds⟩ := Valuation.mem_step_assume.mp steps
      exact describes.assume holds
    | _ =>
      rw [List.mem_singleton.mp steps]
      exact describes
  exact ⟨s.after op, mem_step.mpr ⟨describes.feasible, rfl, after.feasible⟩, after⟩

theorem Describes.included (describes : s.Describes σ) (below : s.included t = true) :
    t.Describes σ := by
  cases s with
  | infeasible => exact describes.elim
  | known m =>
    cases t with
    | infeasible => exact nomatch below
    | known n =>
      intro x v bound
      exact describes x v (included_known.mp below x v bound)

theorem Describes.join_left (describes : s.Describes σ) : (s.join t).Describes σ :=
  describes.included (included_join_left s t)

theorem Describes.join_right (describes : t.Describes σ) : (s.join t).Describes σ :=
  describes.included (included_join_right s t)

theorem Describes.widen (describes : s.Describes σ) (precision : Precision) :
    (s.widen precision).Describes σ :=
  describes.included (included_widen s precision)

theorem join_feasible {t : DataState} (feasible : s.isInfeasible = false) :
    (s.join t).isInfeasible = false := by
  cases s with
  | infeasible => exact nomatch feasible
  | known m => cases t <;> rfl

theorem widen_feasible (feasible : s.isInfeasible = false) (precision : Precision) :
    (s.widen precision).isInfeasible = false := by
  cases s with
  | infeasible => exact nomatch feasible
  | known m => rfl

theorem feasible_eq (s : DataState) : AbstractLattice.feasible s = !s.isInfeasible := by
  cases s <;> rfl

end Soundness
end DataState

def Expr.reads : Expr → List String
  | const _ => []
  | var name => [name]
  | add a b | sub a b => a.reads ++ b.reads

def Cond.reads : Cond → List String
  | always | never => []
  | eq a b | lt a b => a.reads ++ b.reads
  | not c => c.reads
  | and a b => a.reads ++ b.reads

theorem Cond.reads_negate (c : Cond) : c.negate.reads = c.reads := by
  cases c <;> rfl

def Operation.reads : Operation → List String
  | assign _ expr => expr.reads
  | assume cond | waitUntil cond | assert cond _ => cond.reads
  | _ => []

namespace DataState

section Precision

variable {s t : DataState} {σ : Valuation} {names : List String}

theorem Binds.eval (binds : s.Binds names) (feasible : s.isInfeasible = false) {e : Expr}
    (reads : ∀ x ∈ e.reads, x ∈ names) : ∃ v, s.eval e = .value v := by
  induction e with
  | const c => exact ⟨c, by simp [DataState.eval, feasible]⟩
  | var name => exact binds name (reads name List.mem_cons_self)
  | add a b iha ihb =>
    obtain ⟨v, hv⟩ := iha fun x hx => reads x (List.mem_append_left _ hx)
    obtain ⟨w, hw⟩ := ihb fun x hx => reads x (List.mem_append_right _ hx)
    exact ⟨v + w, by simp [DataState.eval, hv, hw, Flat.lift₂]⟩
  | sub a b iha ihb =>
    obtain ⟨v, hv⟩ := iha fun x hx => reads x (List.mem_append_left _ hx)
    obtain ⟨w, hw⟩ := ihb fun x hx => reads x (List.mem_append_right _ hx)
    exact ⟨v - w, by simp [DataState.eval, hv, hw, Flat.lift₂]⟩

theorem Binds.holds (binds : s.Binds names) (feasible : s.isInfeasible = false) {c : Cond}
    (reads : ∀ x ∈ c.reads, x ∈ names) : ∃ b, s.holds c = .value b := by
  have sides {a b : Expr} (reads : ∀ x ∈ a.reads ++ b.reads, x ∈ names) :
      ∃ v w, s.eval a = .value v ∧ s.eval b = .value w := by
    obtain ⟨v, hv⟩ := binds.eval feasible fun x hx => reads x (List.mem_append_left _ hx)
    obtain ⟨w, hw⟩ := binds.eval feasible fun x hx => reads x (List.mem_append_right _ hx)
    exact ⟨v, w, hv, hw⟩
  induction c with
  | always => exact ⟨true, by simp [DataState.holds, feasible]⟩
  | never => exact ⟨false, by simp [DataState.holds, feasible]⟩
  | eq a b =>
    obtain ⟨v, w, hv, hw⟩ := sides reads
    exact ⟨decide (v = w), by simp [DataState.holds, hv, hw, Flat.lift₂]⟩
  | lt a b =>
    obtain ⟨v, w, hv, hw⟩ := sides reads
    exact ⟨decide (v < w), by simp [DataState.holds, hv, hw, Flat.lift₂]⟩
  | not c ih =>
    obtain ⟨b, hb⟩ := ih reads
    exact ⟨!b, by simp [DataState.holds, hb, negated]⟩
  | and a b iha ihb =>
    obtain ⟨v, hv⟩ := iha fun x hx => reads x (List.mem_append_left _ hx)
    obtain ⟨w, hw⟩ := ihb fun x hx => reads x (List.mem_append_right _ hx)
    exact ⟨v && w, by cases v <;> cases w <;> simp [DataState.holds, hv, hw, both]⟩

theorem Binds.put (binds : s.Binds names) (feasible : s.isInfeasible = false) (x : String)
    (v : Int64) : (s.put x (.value v)).Binds names := by
  cases s with
  | infeasible => exact nomatch feasible
  | known m =>
    intro y hy
    by_cases same : y = x
    · exact ⟨v, by simp [DataState.put, DataState.get, same]⟩
    · obtain ⟨u, hu⟩ := binds y hy
      exact ⟨u, by simpa [DataState.put, DataState.get, same] using hu⟩

/-- The memories described after a step come from those described before, if all that is read is
bound. -/
theorem Binds.step (binds : s.Binds names) (describes : s.Describes σ) {op : Operation}
    (reads : ∀ x ∈ op.reads, x ∈ names) (steps : t ∈ s.step op) :
    t.Binds names ∧ ∃ τ ∈ σ.step op, t.Describes τ := by
  have feasible := describes.feasible
  obtain ⟨-, rfl, left⟩ := mem_step.mp steps
  cases op with
  | assign var expr =>
    obtain ⟨v, hv⟩ := binds.eval feasible reads
    have same : s.after (.assign var expr) = s.put var (.value v) := congrArg (s.put var) hv
    have fits : (Flat.value v).Fits (expr.value σ) := (describes.eval expr).eq hv
    rw [same]
    exact ⟨binds.put feasible var v, _, List.mem_cons_self, describes.put fits var⟩
  | assume cond =>
    obtain ⟨b, hb⟩ := binds.holds feasible reads
    cases b with
    | false =>
      have gone : s.after (.assume cond) = infeasible :=
        assume_of_refuted (by rw [hb]; exact Flat.included_refl _)
      rw [gone] at left
      exact nomatch left
    | true =>
      have same : s.after (.assume cond) = s := assume_of_holds hb
      rw [same]
      exact ⟨binds, σ, Valuation.mem_step_assume.mpr ⟨rfl, (describes.holds cond).eq hb⟩, describes⟩
  | _ => exact ⟨binds, σ, List.mem_cons_self, describes⟩

theorem Binds.get (binds : s.Binds names) (describes : s.Describes σ) {x : String}
    (member : x ∈ names) : s.get x = .value (σ x) := by
  obtain ⟨v, hv⟩ := binds x member
  rw [hv, (describes.get x).eq hv]

end Precision
end DataState
end ActorAnalysis
