import ActorAnalysis.Proofs.Data.Valuation

/-! What the transfer of constant propagation says about memories. A state that describes a memory
evaluates everything to the value in that memory or to nothing definite, no operation loses the
memory, and an assumption never adds one: it only binds variables of which nothing was known. -/
namespace ActorAnalysis

namespace Flat

variable {α β γ : Type}

theorem Fits.top_or_value {f : Flat α} {a : α} (fits : f.Fits a) : f = .top ∨ f = .value a := by
  cases f with
  | bottom => exact fits.elim
  | value b =>
    have same : a = b := fits
    exact .inr (same ▸ rfl)
  | top => exact .inl rfl

theorem top_of_lift₂ {f : α → β → γ} {a : Flat α} {b : Flat β} (undecided : lift₂ f a b = .top) :
    a = .top ∨ b = .top := by
  cases a <;> cases b <;> simp_all [lift₂]

end Flat

namespace DataState

variable {s : DataState} {σ : Valuation}

theorem eval_const_ne_top (s : DataState) (c : Int64) : s.eval (.const c) ≠ .top := by
  cases s <;> simp [eval, isInfeasible]

/-- What an undecided equation can tell about a variable was not known before. -/
theorem Describes.of_put {x : String} {c : Int64} (unknown : s.get x = .top)
    (describes : (s.put x (.value c)).Describes σ) : s.Describes σ := by
  cases s with
  | infeasible => simp [DataState.get] at unknown
  | known m =>
    intro y v bound
    have other : y ≠ x := by
      rintro rfl
      simp [DataState.get, bound] at unknown
    apply describes y v
    rw [SortedMap.get?_insert, if_neg other]
    exact bound

theorem Describes.of_assume {c : Cond} (describes : (s.assume c).Describes σ) :
    s.Describes σ := by
  fun_induction DataState.assume s c with
  | case1 => exact describes.elim
  | case2 => exact describes.elim
  | case3 => exact describes
  | case4 s x c undecided =>
    exact describes.of_put ((Flat.top_of_lift₂ undecided).resolve_right (s.eval_const_ne_top c))
  | case5 s c x undecided =>
    exact describes.of_put ((Flat.top_of_lift₂ undecided).resolve_left (s.eval_const_ne_top c))
  | case6 s a b _ first second =>
    -- the second side was assumed in the state that the first one had narrowed
    exact first (second describes)
  | case7 => exact describes

/-- In a memory that the state describes, expressions and conditions have the value that the state
gives them, if it gives one, and no step loses the memory. Under an assumption, a state describes
only memories that it described before. -/
theorem transfer_is_sound_and_reductive (config : DataConfig) (s : DataState) (σ : Valuation) :
    (s.Describes σ →
      (∀ e, s.eval e = .top ∨ s.eval e = .value (e.value σ)) ∧
      (∀ c, s.holds c = .top ∨ s.holds c = .value (c.holdsIn σ)) ∧
      ∀ op, ∃ states, (analysis config).succFor s op = .ok states ∧
        ∀ τ ∈ σ.step op, ∃ t ∈ states, t.Describes τ) ∧
    ∀ c, (s.assume c).Describes σ → s.Describes σ := by
  constructor
  · intro describes
    refine ⟨fun e => (describes.eval e).top_or_value, fun c => (describes.holds c).top_or_value,
      fun op => ⟨s.step op, rfl, fun τ steps => ?_⟩⟩
    exact describes.step steps
  · intro c describes
    exact describes.of_assume

namespace Narrowing

def state : DataState := .known ((∅ : SortedMap String Int64).insert "x" 4)

def memory : Valuation := fun name => if name = "x" then 4 else 9

/-- The first side is known to hold, and the second one tells the value of a variable. -/
def cond : Cond := .and (.lt (.var "x") (.const 5)) (.eq (.const 9) (.var "y"))

theorem described : state.Describes memory := by
  intro x v bound
  rw [SortedMap.get?_insert] at bound
  split at bound
  · rename_i same
    simpa [memory, same] using bound
  · simp at bound

end Narrowing

theorem narrowing_keeps_the_memory :
    Narrowing.state.Describes Narrowing.memory ∧
      (∃ t ∈ Narrowing.state.step (.assume Narrowing.cond), t.Describes Narrowing.memory) ∧
      Narrowing.state.assume Narrowing.cond ≠ Narrowing.state ∧
      ∀ σ, (Narrowing.state.assume Narrowing.cond).Describes σ → Narrowing.state.Describes σ := by
  have transfer := transfer_is_sound_and_reductive ⟨true, .all⟩ Narrowing.state
  obtain ⟨-, -, step⟩ := (transfer Narrowing.memory).1 Narrowing.described
  obtain ⟨states, gives, kept⟩ := step (.assume Narrowing.cond)
  cases gives
  refine ⟨Narrowing.described, kept Narrowing.memory ?_, by decide, fun σ => (transfer σ).2 _⟩
  exact Valuation.mem_step_assume.mpr ⟨rfl, by decide⟩

end DataState
end ActorAnalysis
