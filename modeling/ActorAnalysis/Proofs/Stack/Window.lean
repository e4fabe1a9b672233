import ActorAnalysis.Proofs.Graph.Session
import Mathlib.Data.List.DropRight

/-! Profiles as windows on logical time. However a state comes about, its time stamps are consecutive
numbers, and they begin with the first of all until the window is full. The pointwise maximum of two
windows of one length is a window again: short ones are equal, and full ones differ by a shift. -/
namespace ActorAnalysis

namespace Analysis

variable {S : Type}

/-- The states that an analysis makes by any of its operations, if it merges only what may be
merged. -/
inductive Attained (A : Analysis S) : S → Prop where
  | initial {program : Program} {ids after : Ids} {out : List S} {s : S} :
      (A.initial program).run ids = (.ok out, after) → s ∈ out → Attained A s
  | succ {ids after : Ids} {s t : S} {out : List S} : Attained A s →
      (A.succ s).run ids = (.ok out, after) → t ∈ out → Attained A t
  | widen {s t : S} : Attained A s → A.widen s = .ok t → Attained A t
  | join {ids after : Ids} {s t u : S} : Attained A s → Attained A t →
      (A.join s t).run ids = (.ok u, after) → Attained A u
  | merge {ids after : Ids} {s t u : S} : Attained A s → Attained A t →
      A.shouldMerge s t = true → (A.merge s t).run ids = (.ok u, after) → Attained A u
  | refine {s t : S} : Attained A s → A.refiner.refine s = .ok (some t) → Attained A t

/-- The states that an analysis makes in `n` steps without uniting any two. -/
inductive Trail (A : Analysis S) : Nat → S → Prop where
  | initial {program : Program} {ids after : Ids} {out : List S} {s : S} :
      (A.initial program).run ids = (.ok out, after) → s ∈ out → Trail A 0 s
  | succ {n : Nat} {ids after : Ids} {s t : S} {out : List S} : Trail A n s →
      (A.succ s).run ids = (.ok out, after) → t ∈ out → Trail A (n + 1) t
  | widen {n : Nat} {s t : S} : Trail A n s → A.widen s = .ok t → Trail A n t
  | refine {n : Nat} {s t : S} : Trail A n s → A.refiner.refine s = .ok (some t) → Trail A n t

theorem Trail.attained {A : Analysis S} {n : Nat} {s : S} (trail : A.Trail n s) :
    A.Attained s := by
  induction trail with
  | initial done member => exact .initial done member
  | succ _ done member ih => exact .succ ih done member
  | widen _ done ih => exact .widen ih done
  | refine _ done ih => exact .refine ih done

end Analysis

namespace Profile

variable {window first length : Nat} {p q : Profile}

/-- Consecutive time stamps, as many as the window holds; fewer only from the first one on. -/
def Windowed (window : Nat) (p : Profile) : Prop :=
  ∃ first length, p = List.range' first length ∧ length ≤ window ∧ (length < window → first = 1)

/-- A window grows at its end until it is full; then it moves along. -/
theorem advance_range' (short : length < window → first = 1) :
    advance window (List.range' first length) =
      List.range' (first + (length + 1 - window)) (min window (length + 1)) := by
  cases length with
  | zero =>
    cases window with
    | zero => rfl
    | succ w => simp [advance, short (Nat.succ_pos w)]
  | succ n =>
    have last : (List.range' first (n + 1)).getLast? = some (first + n) := by
      simp [List.getLast?_range']
    have next : List.range' first (n + 1) ++ [first + n + 1] = List.range' first (n + 2) :=
      List.range'_1_concat.symm
    have left : n + 2 - (n + 1 + 1 - window) = min window (n + 1 + 1) := by omega
    simp only [advance, last, next, List.length_range', List.drop_range', Nat.mul_one, left]

theorem merge_range' (first second length : Nat) :
    merge (List.range' first length) (List.range' second length) =
      List.range' (max first second) length := by
  induction length generalizing first second with
  | zero => rfl
  | succ n ih =>
    have shift : max (first + 1) (second + 1) = max first second + 1 := by omega
    simp only [List.range'_succ, merge, ih, shift]

theorem windowed_nil (window : Nat) : Windowed window [] :=
  ⟨1, 0, rfl, Nat.zero_le window, fun _ => rfl⟩

theorem Windowed.advance (windowed : Windowed window p) :
    Windowed window (p.advance window) := by
  obtain ⟨first, length, rfl, few, short⟩ := windowed
  refine ⟨_, _, advance_range' short, Nat.min_le_left _ _, fun less => ?_⟩
  have early : length + 1 < window := by omega
  have start : first = 1 := short (by omega)
  omega

/-- Windows of one length that are not full begin at the same time stamp. -/
theorem Windowed.merge (left : Windowed window p) (right : Windowed window q)
    (same : p.length = q.length) : Windowed window (p.merge q) := by
  obtain ⟨first, length, rfl, few, short⟩ := left
  obtain ⟨second, length', rfl, few', short'⟩ := right
  obtain rfl : length = length' := by simpa using same
  refine ⟨_, _, merge_range' first second length, few, fun less => ?_⟩
  rw [short less, short' less, Nat.max_self]

theorem Windowed.contiguous (windowed : Windowed window p) :
    p.length ≤ window ∧ p.IsChain (fun a b => b = a + 1) ∧
      (0 < p.length → p.length < window → p.head? = some 1) := by
  obtain ⟨first, length, rfl, few, short⟩ := windowed
  rw [List.length_range']
  refine ⟨few, List.isChain_range' first length 1, fun some less => ?_⟩
  simp [List.head?_range', Nat.ne_of_gt some, short less]

theorem rtake_range' (window n : Nat) :
    (List.range' 1 n).rtake (min window n) = List.range' (1 + (n - window)) (min window n) := by
  have dropped : n - min window n = n - window := by omega
  have left : n - (n - window) = min window n := by omega
  rw [List.rtake, List.length_range', dropped, List.drop_range', Nat.mul_one, left]

theorem advance_rtake (window n : Nat) :
    advance window ((List.range' 1 n).rtake (min window n)) =
      (List.range' 1 (n + 1)).rtake (min window (n + 1)) := by
  have short : min window n < window → 1 + (n - window) = 1 := by omega
  have first : 1 + (n - window) + (min window n + 1 - window) = 1 + (n + 1 - window) := by omega
  have length : min window (min window n + 1) = min window (n + 1) := by omega
  rw [rtake_range', rtake_range', advance_range' short, first, length]

end Profile

namespace Timed

variable {W : Type} {config : TimeConfig} {A : Analysis W} {s t u : Timed W} {ids after : Ids}

theorem profile_initial {program : Program} {out : List (Timed W)}
    (done : ((analysis config A).initial program).run ids = (.ok out, after)) (member : s ∈ out) :
    s.profile = [] := by
  obtain ⟨states, mid, -, done⟩ := Alloc.run_bind_ok.mp done
  obtain ⟨rfl, -⟩ := Alloc.run_pure_ok.mp done
  obtain ⟨inner, -, rfl⟩ := List.mem_map.mp member
  rfl

theorem profile_succ {out : List (Timed W)}
    (done : ((analysis config A).succ s).run ids = (.ok out, after)) (member : t ∈ out) :
    t.profile = s.profile.advance config.window := by
  obtain ⟨states, mid, -, done⟩ := Alloc.run_bind_ok.mp done
  obtain ⟨rfl, -⟩ := Alloc.run_pure_ok.mp done
  obtain ⟨inner, -, rfl⟩ := List.mem_map.mp member
  rfl

theorem profile_widen (done : (analysis config A).widen s = .ok t) : t.profile = s.profile := by
  obtain ⟨inner, -, rfl⟩ := except_map_ok done
  rfl

theorem profile_refine (done : (analysis config A).refiner.refine s = .ok (some t)) :
    t.profile = s.profile := by
  obtain ⟨inner, -, rfl⟩ := Refiner.refine_through done
  rfl

theorem profile_join (done : ((analysis config A).join s t).run ids = (.ok u, after)) :
    s.profile.length = t.profile.length ∧ u.profile = s.profile.merge t.profile := by
  by_cases same : s.profile.length = t.profile.length
  · simp only [analysis, if_pos same] at done
    obtain ⟨inner, mid, -, done⟩ := Alloc.run_bind_ok.mp done
    obtain ⟨rfl, -⟩ := Alloc.run_pure_ok.mp done
    exact ⟨same, rfl⟩
  · simp only [analysis, if_neg same] at done
    cases done

theorem profile_merge (done : ((analysis config A).merge s t).run ids = (.ok u, after)) :
    u.profile = s.profile.merge t.profile := by
  obtain ⟨inner, mid, -, done⟩ := Alloc.run_bind_ok.mp done
  obtain ⟨rfl, -⟩ := Alloc.run_pure_ok.mp done
  rfl

theorem windowed_of_attained (attained : (analysis config A).Attained s) :
    s.profile.Windowed config.window := by
  induction attained with
  | initial done member =>
    rw [profile_initial done member]
    exact Profile.windowed_nil config.window
  | succ _ done member ih =>
    rw [profile_succ done member]
    exact ih.advance
  | widen _ done ih =>
    rw [profile_widen done]
    exact ih
  | join _ _ done left right =>
    obtain ⟨same, profile⟩ := profile_join done
    rw [profile]
    exact left.merge right same
  | merge _ _ should done left right =>
    have same := of_decide_eq_true (Bool.and_eq_true_iff.mp should).1
    rw [profile_merge done]
    exact left.merge right same
  | refine _ done ih =>
    rw [profile_refine done]
    exact ih

/-- Profiles are contiguous windows: never longer than the window, of consecutive time stamps, and
starting at 1 unless they fill it. As long as no states are united, they show the last steps. -/
theorem profiles_are_windows (config : TimeConfig) (A : Analysis W) :
    (∀ s, (analysis config A).Attained s → s.profile.length ≤ config.window ∧
      s.profile.IsChain (fun a b => b = a + 1) ∧
      (0 < s.profile.length → s.profile.length < config.window → s.profile.head? = some 1)) ∧
    ∀ n s, (analysis config A).Trail n s →
      s.profile = (List.range' 1 n).rtake (min config.window n) := by
  refine ⟨fun s attained => (windowed_of_attained attained).contiguous, fun n s trail => ?_⟩
  induction trail with
  | initial done member => rw [profile_initial done member, Nat.min_zero, List.rtake_zero]
  | succ _ done member ih => rw [profile_succ done member, ih, Profile.advance_rtake]
  | widen _ done ih => rw [profile_widen done, ih]
  | refine _ done ih => rw [profile_refine done, ih]

end Timed

namespace Clock

/-- The only state leads to itself and may be merged with itself. -/
def table : Table :=
  { Chain.table with succ := (∅ : SortedMap Nat (List Nat)).insert 0 [0], mergeMod := 1 }

abbrev analysis : Analysis (Timed Table.State) := Timed.analysis ⟨2⟩ table.analysis

abbrev showing (p : Profile) : Timed Table.State := ⟨p, ⟨0⟩⟩

theorem starts : (analysis.initial Chain.program).run .start = (.ok [showing []], .start) := rfl

theorem ticks (p : Profile) :
    (analysis.succ (showing p)).run .start = (.ok [showing (p.advance 2)], .start) := rfl

theorem trail_two : analysis.Trail 2 (showing [1, 2]) :=
  .succ (.succ (.initial starts List.mem_cons_self) (ticks []) List.mem_cons_self) (ticks [1])
    List.mem_cons_self

theorem trail_three : analysis.Trail 3 (showing [2, 3]) :=
  .succ trail_two (ticks [1, 2]) List.mem_cons_self

theorem merges : (analysis.merge (showing [1, 2]) (showing [2, 3])).run .start =
    (.ok (showing [2, 3]), .start) := rfl

/-- Two times are merged to the later one, which then goes on. -/
theorem merged_clock_goes_on : analysis.Trail 3 (showing [2, 3]) ∧
    [2, 3] = (List.range' 1 3).rtake 2 ∧ analysis.Attained (showing [3, 4]) ∧
    [3, 4].length ≤ 2 ∧ [3, 4].IsChain (fun a b => b = a + 1) := by
  obtain ⟨window, last⟩ := Timed.profiles_are_windows ⟨2⟩ table.analysis
  have merged : analysis.Attained (showing [2, 3]) :=
    .merge trail_two.attained trail_three.attained (by decide) merges
  have later : analysis.Attained (showing [3, 4]) :=
    .succ merged (ticks [2, 3]) List.mem_cons_self
  obtain ⟨few, consecutive, -⟩ := window (showing [3, 4]) later
  exact ⟨trail_three, last 3 (showing [2, 3]) trail_three, later, few, consecutive⟩

end Clock
end ActorAnalysis
