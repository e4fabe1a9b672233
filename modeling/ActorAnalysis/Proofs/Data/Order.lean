import ActorAnalysis.Data.Domain
import ActorAnalysis.Proofs.Lattice
import ActorAnalysis.Proofs.Sorted

namespace ActorAnalysis

namespace DataState

theorem get_known (m : SortedMap String Int64) (x : String) :
    (known m).get x = (m.get? x).elim .top .value := by
  cases bound : m.get? x <;> simp [get, bound]

theorem get_eq_value {m : SortedMap String Int64} {x : String} {v : Int64} :
    (known m).get x = .value v ↔ m.get? x = some v := by
  rw [get_known]
  cases m.get? x <;> simp

theorem get_ne_bottom (m : SortedMap String Int64) (x : String) : (known m).get x ≠ .bottom := by
  rw [get_known]
  cases m.get? x <;> simp

theorem eq_infeasible_of_get {s : DataState} {x : String} (nothing : s.get x = .bottom) :
    s = infeasible := by
  cases s with
  | infeasible => rfl
  | known m => exact absurd nothing (get_ne_bottom m x)

theorem ext_get {s t : DataState} (same : ∀ x, s.get x = t.get x) : s = t := by
  cases s with
  | infeasible => exact (eq_infeasible_of_get (same "").symm).symm
  | known m =>
    cases t with
    | infeasible => exact eq_infeasible_of_get (same "")
    | known n =>
      refine congrArg known (SortedMap.ext_get? fun x => Option.ext fun v => ?_)
      rw [← get_eq_value, ← get_eq_value, same x]

theorem included_iff_get {s t : DataState} :
    s.included t = true ↔ ∀ x, (s.get x).included (t.get x) = true := by
  cases s with
  | infeasible => exact ⟨fun _ x => Flat.bottom_included (t.get x), fun _ => rfl⟩
  | known m =>
    cases t with
    | infeasible =>
      constructor
      · intro below
        cases below
      · intro below
        exact absurd (Flat.included_antisymm (below "") (Flat.bottom_included _))
          (get_ne_bottom m "")
    | known n =>
      unfold included
      rw [List.all_eq_true]
      constructor
      · intro below x
        cases bound : n.get? x with
        | none => simp [get_known n, bound]
        | some v => exact below x (n.mem_keys_of_get? bound)
      · intro below x _
        exact below x

theorem included_known {m n : SortedMap String Int64} :
    (known m).included (known n) = true ↔ ∀ x v, n.get? x = some v → m.get? x = some v := by
  rw [included_iff_get]
  constructor
  · intro below x v bound
    have shared := below x
    rw [get_eq_value.mpr bound] at shared
    rcases Flat.included_iff.mp shared with nothing | same | unknown
    · exact absurd nothing (get_ne_bottom m x)
    · exact get_eq_value.mp same
    · cases unknown
  · intro below x
    cases bound : n.get? x with
    | none => simp [get_known n, bound]
    | some v =>
      rw [get_eq_value.mpr bound, get_eq_value.mpr (below x v bound)]
      exact Flat.included_refl _

theorem included_infeasible {s : DataState} : s.included infeasible = true ↔ s = infeasible := by
  cases s <;> simp [included]

theorem included_refl (s : DataState) : s.included s = true :=
  included_iff_get.mpr fun x => Flat.included_refl (s.get x)

theorem included_trans {s t u : DataState} (first : s.included t = true)
    (second : t.included u = true) : s.included u = true := by
  rw [included_iff_get] at first second ⊢
  intro x
  exact Flat.included_trans (first x) (second x)

theorem included_antisymm {s t : DataState} (first : s.included t = true)
    (second : t.included s = true) : s = t := by
  rw [included_iff_get] at first second
  exact ext_get fun x => Flat.included_antisymm (first x) (second x)

theorem included_unknown (s : DataState) : s.included unknown = true :=
  included_iff_get.mpr fun x => Flat.included_top (s.get x)

theorem feasible_of_included {s t : DataState} (below : s.included t = true)
    (feasible : s.isInfeasible = false) : t.isInfeasible = false := by
  cases t with
  | infeasible =>
    rw [included_infeasible.mp below] at feasible
    exact feasible
  | known n => rfl

theorem get_join (s t : DataState) (x : String) :
    (s.join t).get x = (s.get x).join (t.get x) := by
  cases s with
  | infeasible => cases h : t.get x <;> simpa [join, Flat.join, get] using h
  | known m =>
    cases t with
    | infeasible => cases h : (known m).get x <;> simpa [join, Flat.join, get] using h
    | known n =>
      unfold join
      rw [get_known, get_known, get_known, SortedMap.get?_filter]
      cases m.get? x with
      | none => cases n.get? x <;> rfl
      | some v =>
        cases n.get? x with
        | none => simp [Flat.join, Option.filter]
        | some w =>
          by_cases same : v = w
          · simp [Flat.join, Option.filter, same]
          · have differ : w ≠ v := fun h => same h.symm
            simp [Flat.join, Option.filter, same, differ]

theorem join_included {s t u : DataState} :
    (s.join t).included u = true ↔ s.included u = true ∧ t.included u = true := by
  simp only [included_iff_get, get_join, Flat.join_included, forall_and]

theorem included_join_left (s t : DataState) : s.included (s.join t) = true :=
  (join_included.mp (included_refl _)).1

theorem included_join_right (s t : DataState) : t.included (s.join t) = true :=
  (join_included.mp (included_refl _)).2

theorem get_widen (m : SortedMap String Int64) (p : Precision) (x : String) :
    ((known m).widen p).get x = if p.tracks x then (known m).get x else .top := by
  unfold widen
  rw [get_known, get_known, SortedMap.get?_filter]
  cases m.get? x with
  | none => simp
  | some v => cases p.tracks x <;> simp [Option.filter]

theorem included_widen (s : DataState) (p : Precision) : s.included (s.widen p) = true := by
  cases s with
  | infeasible => rfl
  | known m =>
    apply included_iff_get.mpr
    intro x
    rw [get_widen]
    split
    · exact Flat.included_refl _
    · exact Flat.included_top _

theorem put_bottom (s : DataState) (x : String) : s.put x .bottom = infeasible := by
  cases s <;> rfl

theorem get_put (m : SortedMap String Int64) {f : Flat Int64} (possible : f ≠ .bottom)
    (x y : String) : ((known m).put x f).get y = if y = x then f else (known m).get y := by
  cases f with
  | bottom => exact absurd rfl possible
  | value v =>
    simp only [put, get_known, SortedMap.get?_insert]
    split <;> rfl
  | top =>
    simp only [put, get_known, SortedMap.get?_erase]
    split <;> rfl

theorem put_get (s : DataState) (x : String) : s.put x (s.get x) = s := by
  cases s with
  | infeasible => rfl
  | known m =>
    apply ext_get
    intro y
    rw [get_put m (get_ne_bottom m x)]
    split
    · rename_i same
      rw [same]
    · rfl

theorem foldl_put_infeasible (f : String → Flat Int64) (vars : List String) :
    vars.foldl (fun s x => s.put x (f x)) infeasible = infeasible := by
  induction vars with
  | nil => rfl
  | cons x rest ih => exact ih

theorem foldl_put_clash {f : String → Flat Int64} {vars : List String} {x : String}
    (member : x ∈ vars) (clash : f x = .bottom) (s : DataState) :
    vars.foldl (fun s x => s.put x (f x)) s = infeasible := by
  induction vars generalizing s with
  | nil => exact absurd member List.not_mem_nil
  | cons y rest ih =>
    rw [List.foldl_cons]
    rcases List.mem_cons.mp member with rfl | later
    · rw [clash, put_bottom]
      exact foldl_put_infeasible f rest
    · exact ih later _

theorem get_foldl_put {f : String → Flat Int64} {vars : List String}
    (possible : ∀ x ∈ vars, f x ≠ .bottom) (m : SortedMap String Int64) (y : String) :
    (vars.foldl (fun s x => s.put x (f x)) (known m)).get y =
      if y ∈ vars then f y else (known m).get y := by
  induction vars generalizing m with
  | nil => simp
  | cons x rest ih =>
    obtain ⟨first, later⟩ := List.forall_mem_cons.mp possible
    have head := get_put m first x y
    obtain ⟨n, feasible⟩ : ∃ n, (known m).put x (f x) = known n := by
      cases h : f x with
      | bottom => exact absurd h first
      | value v => exact ⟨_, rfl⟩
      | top => exact ⟨_, rfl⟩
    rw [List.foldl_cons, feasible, ih later, ← feasible, head]
    by_cases same : y = x
    · simp [same]
    · simp [same]

theorem get_eq_top {m : SortedMap String Int64} {x : String} (unbound : x ∉ m.keys) :
    (known m).get x = .top := by
  rw [get_known]
  cases bound : m.get? x with
  | none => rfl
  | some v => exact absurd (m.mem_keys_of_get? bound) unbound

theorem get_meet {m n : SortedMap String Int64}
    (compatible : ∀ x, ((known m).get x).meet ((known n).get x) ≠ .bottom) (x : String) :
    ((known m).meet (known n)).get x = ((known m).get x).meet ((known n).get x) := by
  have folded : ((known m).meet (known n)).get x =
      if x ∈ n.keys then ((known m).get x).meet ((known n).get x) else (known m).get x :=
    get_foldl_put (fun x _ => compatible x) m x
  rw [folded]
  split
  · rfl
  · rename_i unbound
    rw [get_eq_top unbound, Flat.meet_top]

theorem meet_eq_infeasible {m n : SortedMap String Int64} {x : String}
    (clash : ((known m).get x).meet ((known n).get x) = .bottom) :
    (known m).meet (known n) = infeasible := by
  by_cases bound : x ∈ n.keys
  · exact foldl_put_clash bound clash (known m)
  · rw [get_eq_top bound, Flat.meet_top] at clash
    exact absurd clash (get_ne_bottom m x)

theorem included_meet {s t u : DataState} :
    u.included (s.meet t) = true ↔ u.included s = true ∧ u.included t = true := by
  cases s with
  | infeasible =>
    refine ⟨fun below => ?_, And.left⟩
    rw [included_infeasible.mp below]
    exact ⟨rfl, rfl⟩
  | known m =>
    cases t with
    | infeasible =>
      refine ⟨fun below => ?_, And.right⟩
      rw [included_infeasible.mp below]
      exact ⟨rfl, rfl⟩
    | known n =>
      by_cases clash : ∃ x, ((known m).get x).meet ((known n).get x) = .bottom
      · obtain ⟨x, clash⟩ := clash
        rw [meet_eq_infeasible clash, included_infeasible]
        constructor
        · rintro rfl
          exact ⟨rfl, rfl⟩
        · rintro ⟨left, right⟩
          have both := Flat.included_meet.mpr
            ⟨included_iff_get.mp left x, included_iff_get.mp right x⟩
          rw [clash] at both
          exact eq_infeasible_of_get (Flat.included_antisymm both (Flat.bottom_included _))
      · simp only [included_iff_get, get_meet (not_exists.mp clash), Flat.included_meet,
          forall_and]

theorem lawful : AbstractLattice.Lawful DataState where
  refl := included_refl
  trans := included_trans
  antisymm := included_antisymm
  bottom_included _ := rfl
  included_top := included_unknown
  included_meet := included_meet
  join_included := join_included

end DataState
end ActorAnalysis
