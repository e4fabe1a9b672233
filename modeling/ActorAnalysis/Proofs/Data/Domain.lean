import ActorAnalysis.Data.Domain
import ActorAnalysis.Proofs.Data.Valuation

namespace ActorAnalysis

namespace Precision

def inter : Precision → Precision → Precision
  | all, q => q
  | only vars, q => only (vars.filter q.tracks)

theorem tracks_inter (p q : Precision) (x : String) :
    (p.inter q).tracks x = (p.tracks x && q.tracks x) := by
  cases p with
  | all => rfl
  | only vars =>
    simp only [inter, tracks, SortedSet.mem_filter, Bool.decide_and, Bool.decide_eq_true]

end Precision

namespace DataState

variable {s t : DataState}

theorem widen_mono (below : s.included t = true) (p : Precision) :
    (s.widen p).included (t.widen p) = true := by
  cases s with
  | infeasible => rfl
  | known m =>
    cases t with
    | infeasible => cases below
    | known n =>
      rw [included_iff_get] at below ⊢
      intro x
      rw [get_widen, get_widen]
      split
      · exact below x
      · exact Flat.included_refl _

theorem widen_widen (s : DataState) (p q : Precision) :
    (s.widen p).widen q = s.widen (p.inter q) := by
  cases s with
  | infeasible => rfl
  | known m =>
    apply ext_get
    intro x
    have twice : (((known m).widen p).widen q).get x =
        if q.tracks x then ((known m).widen p).get x else .top := get_widen _ q x
    rw [twice, get_widen, get_widen, Precision.tracks_inter]
    cases p.tracks x <;> cases q.tracks x <;> simp

theorem widen_congr (s : DataState) {p q : Precision} (same : ∀ x, p.tracks x = q.tracks x) :
    s.widen p = s.widen q := by
  have tracks : p.tracks = q.tracks := funext same
  cases s with
  | infeasible => rfl
  | known m => simp only [widen, tracks]

theorem widen_idem (s : DataState) (p : Precision) : (s.widen p).widen p = s.widen p := by
  rw [widen_widen]
  apply widen_congr
  intro x
  rw [Precision.tracks_inter, Bool.and_self]

end DataState

namespace DataDomain

variable (d : DataDomain)

def restrict (memory : Memory) : Memory := memory.filter (fun x _ => decide (x ∈ d.vars))

theorem get?_restrict (memory : Memory) (x : String) :
    (d.restrict memory).get? x = if x ∈ d.vars then memory.get? x else none := by
  unfold restrict
  rw [SortedMap.get?_filter]
  cases memory.get? x <;> by_cases inside : x ∈ d.vars <;> simp [Option.filter, inside]

theorem foldlM_transfer {bindings : Memory} {vars : List String}
    (bound : ∀ x ∈ vars, ∃ v, bindings.get? x = some v) (memory : Memory) :
    ∃ result, vars.foldlM (transfer bindings) memory = .ok result ∧
      ∀ x, result.get? x = if x ∈ vars then bindings.get? x else memory.get? x := by
  induction vars generalizing memory with
  | nil => exact ⟨memory, rfl, by simp⟩
  | cons x rest ih =>
    obtain ⟨⟨v, hv⟩, later⟩ := List.forall_mem_cons.mp bound
    obtain ⟨result, folded, reads⟩ := ih later (memory.insert x v)
    refine ⟨result, ?_, fun y => ?_⟩
    · have first : transfer bindings memory x = .ok (memory.insert x v) := by simp [transfer, hv]
      rw [List.foldlM_cons, first]
      exact folded
    · rw [reads y, SortedMap.get?_insert]
      by_cases same : y = x
      · simp [same, hv]
      · simp [same]

theorem any_isTop_eq_false {m : Memory} {vars : List String} :
    vars.any (fun x => ((DataState.known m).get x).isTop) = false ↔
      (DataState.known m).Binds vars := by
  have closed (x : String) : ((DataState.known m).get x).isTop = false ↔
      ∃ v, (DataState.known m).get x = .value v := by
    cases h : (DataState.known m).get x with
    | bottom => exact absurd h (DataState.get_ne_bottom m x)
    | value v => simp [Flat.isTop]
    | top => simp [Flat.isTop]
  simp only [List.any_eq_false, Bool.not_eq_true, closed]
  rfl

theorem concretize_known {m : Memory} (binds : (DataState.known m).Binds d.vars.toList) :
    d.concretize (.known m) = .ok [d.restrict m] := by
  have bound (x : String) (member : x ∈ d.vars.toList) : ∃ v, m.get? x = some v := by
    obtain ⟨v, hv⟩ := binds x member
    exact ⟨v, DataState.get_eq_value.mp hv⟩
  obtain ⟨result, folded, reads⟩ := foldlM_transfer bound ∅
  have same : result = d.restrict m := by
    apply SortedMap.ext_get?
    intro x
    rw [reads, get?_restrict, SortedMap.get?_empty]
    rfl
  rw [concretize, any_isTop_eq_false.mpr binds, if_neg Bool.false_ne_true, folded, same]
  rfl

theorem concretize_open {m : Memory} (unbound : ¬(DataState.known m).Binds d.vars.toList) :
    d.concretize (.known m) = .error .openConcretization := by
  have some : d.vars.toList.any (fun x => ((DataState.known m).get x).isTop) = true := by
    rw [← Bool.not_eq_false, any_isTop_eq_false]
    exact unbound
  rw [concretize, if_pos some]

theorem concretize_cases (e : DataState) :
    (e = .infeasible ∧ d.concretize e = .ok []) ∨
    (∃ m, e = .known m ∧ e.Binds d.vars.toList ∧ d.concretize e = .ok [d.restrict m]) ∨
    (e ≠ .infeasible ∧ ¬e.Binds d.vars.toList ∧
      d.concretize e = .error .openConcretization) := by
  cases e with
  | infeasible => exact .inl ⟨rfl, rfl⟩
  | known m =>
    by_cases binds : (DataState.known m).Binds d.vars.toList
    · exact .inr (.inl ⟨m, rfl, binds, d.concretize_known binds⟩)
    · exact .inr (.inr ⟨DataState.noConfusion, binds, d.concretize_open binds⟩)

theorem concretize_ok {e : DataState} {memories : List Memory}
    (done : d.concretize e = .ok memories) :
    (e = .infeasible ∧ memories = []) ∨
      ∃ m, e = .known m ∧ e.Binds d.vars.toList ∧ memories = [d.restrict m] := by
  rcases d.concretize_cases e with ⟨none, listed⟩ | ⟨m, is, binds, listed⟩ | ⟨-, -, refused⟩
  · exact .inl ⟨none, Except.ok.inj (done.symm.trans listed)⟩
  · exact .inr ⟨m, is, binds, Except.ok.inj (done.symm.trans listed)⟩
  · rw [refused] at done
    cases done

theorem concretize_error {e : DataState} {err : Error} (failed : d.concretize e = .error err) :
    err = .openConcretization := by
  rcases d.concretize_cases e with ⟨-, listed⟩ | ⟨m, -, -, listed⟩ | ⟨-, -, refused⟩
  · rw [listed] at failed
    cases failed
  · rw [listed] at failed
    cases failed
  · exact Except.error.inj (failed.symm.trans refused)

theorem concretize_ok_iff {e : DataState} : (∃ memories, d.concretize e = .ok memories) ↔
    e = .infeasible ∨ e.Binds d.vars.toList := by
  rcases d.concretize_cases e with ⟨none, listed⟩ | ⟨m, -, binds, listed⟩ |
    ⟨feasible, unbound, refused⟩
  · exact ⟨fun _ => .inl none, fun _ => ⟨_, listed⟩⟩
  · exact ⟨fun _ => .inr binds, fun _ => ⟨_, listed⟩⟩
  · simp [refused, feasible, unbound]

theorem abstract_included {cs : List Memory} {e : DataState} :
    (d.abstract cs).included e = true ↔ ∀ c ∈ cs, (DataState.known c).included e = true :=
  DataState.lawful.joinAll_included.trans List.forall_mem_map

variable {d} {e : DataState} {memories : List Memory}

theorem abstract_concretize (done : d.concretize e = .ok memories) :
    d.abstract memories = e.widen (.only d.vars) := by
  rcases d.concretize_ok done with ⟨rfl, rfl⟩ | ⟨m, rfl, -, rfl⟩
  · rfl
  · rfl

theorem widen_eq_self (inside : ∀ x v, e.get x = .value v → x ∈ d.vars) :
    e.widen (.only d.vars) = e := by
  cases e with
  | infeasible => rfl
  | known m =>
    apply DataState.ext_get
    intro x
    rw [DataState.get_widen]
    split
    · rfl
    · rename_i untracked
      cases h : (DataState.known m).get x with
      | bottom => exact absurd h (DataState.get_ne_bottom m x)
      | value v => exact absurd (decide_eq_true (inside x v h)) untracked
      | top => rfl

/-- If the join of some memories has no open variable, they agree on the domain. -/
theorem restrict_mem_concretize {cs : List Memory}
    (done : d.concretize (d.abstract cs) = .ok memories) {c : Memory} (member : c ∈ cs) :
    d.restrict c ∈ memories := by
  have below := d.abstract_included.mp (DataState.included_refl (d.abstract cs)) c member
  rcases d.concretize_ok done with ⟨none, -⟩ | ⟨m, is, binds, rfl⟩
  · rw [none] at below
    cases below
  · rw [is] at below binds
    have same : d.restrict c = d.restrict m := by
      apply SortedMap.ext_get?
      intro x
      rw [get?_restrict, get?_restrict]
      split
      · rename_i inside
        obtain ⟨v, hv⟩ := binds x inside
        have bound := DataState.get_eq_value.mp hv
        rw [bound]
        exact DataState.included_known.mp below x v bound
      · rfl
    rw [same]
    exact List.mem_cons_self

/-- The state of some memories is the least one above them. A state is listed exactly if it has no
open variable in the domain, and is refused else, but no unbound variable is ever read; what is
listed stands for the state again, up to variables outside of the domain, and a list of memories
that has no open variable is found again over the domain. Widening is a closure operator, and
widening twice keeps what both precisions track. -/
theorem abstraction_concretization_and_widening_fit (d : DataDomain) :
    (∀ (cs : List Memory) (e : DataState), (d.abstract cs).included e = true ↔
      ∀ c ∈ cs, (DataState.known c).included e = true) ∧
    (∀ (e : DataState) (err : Error), d.concretize e = .error err →
      err = .openConcretization ∧ err.kind ≠ .breach) ∧
    (∀ e : DataState, (∃ memories, d.concretize e = .ok memories) ↔
      e = .infeasible ∨ e.Binds d.vars.toList) ∧
    (∀ (e : DataState) (memories : List Memory), d.concretize e = .ok memories →
      e.included (d.abstract memories) = true ∧
      ((∀ x v, e.get x = .value v → x ∈ d.vars) → d.abstract memories = e)) ∧
    (∀ cs memories : List Memory, d.concretize (d.abstract cs) = .ok memories →
      ∀ c ∈ cs, d.restrict c ∈ memories) ∧
    (∀ (p : Precision) (e : DataState), e.included (e.widen p) = true ∧
      (e.widen p).widen p = e.widen p ∧
      ∀ e' : DataState, e.included e' = true → (e.widen p).included (e'.widen p) = true) ∧
    ∀ (p q : Precision), (∀ x, (p.inter q).tracks x = (p.tracks x && q.tracks x)) ∧
      ∀ e : DataState, (e.widen p).widen q = e.widen (p.inter q) := by
  refine ⟨fun cs e => d.abstract_included, fun e err failed => ?_, fun e => d.concretize_ok_iff,
    fun e memories done => ?_, fun cs memories done c member => restrict_mem_concretize done member,
    fun p e => ⟨e.included_widen p, e.widen_idem p, fun e' below => DataState.widen_mono below p⟩,
    fun p q => ⟨p.tracks_inter q, fun e => e.widen_widen p q⟩⟩
  · rw [d.concretize_error failed]
    exact ⟨rfl, by decide⟩
  · rw [abstract_concretize done]
    exact ⟨e.included_widen _, widen_eq_self⟩

namespace Agreement

def domain : DataDomain := ⟨.ofList ["x", "y"]⟩

def first : Memory := .ofList [("x", 1), ("y", 5), ("z", 7)]

def second : Memory := .ofList [("x", 1), ("y", 5), ("z", 8)]

def shared : Memory := .ofList [("x", 1), ("y", 5)]

end Agreement

theorem agreeing_memories_are_found_again :
    Agreement.domain.concretize (Agreement.domain.abstract [Agreement.first, Agreement.second]) =
      .ok [Agreement.shared] ∧
    Agreement.domain.restrict Agreement.first ∈ [Agreement.shared] ∧
    Agreement.domain.abstract [Agreement.shared] =
      Agreement.domain.abstract [Agreement.first, Agreement.second] := by
  obtain ⟨-, -, -, listed, found, -, -⟩ :=
    abstraction_concretization_and_widening_fit Agreement.domain
  have joined : Agreement.domain.abstract [Agreement.first, Agreement.second] =
    .known Agreement.shared := by decide
  have done : Agreement.domain.concretize
      (Agreement.domain.abstract [Agreement.first, Agreement.second]) = .ok [Agreement.shared] := by
    rw [joined]
    rfl
  have keys : Agreement.shared.keys = Agreement.domain.vars.toList := by decide
  refine ⟨done, found _ _ done Agreement.first List.mem_cons_self, (listed _ _ done).2 ?_⟩
  intro x v bound
  rw [joined] at bound
  have member := Agreement.shared.mem_keys_of_get? (DataState.get_eq_value.mp bound)
  rw [keys] at member
  exact member

end DataDomain
end ActorAnalysis
