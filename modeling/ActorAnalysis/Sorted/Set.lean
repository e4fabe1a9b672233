/-! Finite sets as strictly ascending lists. Equal sets are equal values, and a set is listed in
ascending order wherever it is shown. Strings are ordered by code point. -/
namespace ActorAnalysis

class TotalLT (α : Type) [LT α] : Prop where
  irrefl (a : α) : ¬ a < a
  trans {a b c : α} : a < b → b < c → a < c
  connected {a b : α} : ¬ a < b → ¬ b < a → a = b

instance : TotalLT Nat where
  irrefl := Nat.lt_irrefl
  trans := Nat.lt_trans
  connected hab hba := Nat.le_antisymm (Nat.le_of_not_lt hba) (Nat.le_of_not_lt hab)

instance : TotalLT String where
  irrefl := String.lt_irrefl
  trans := String.lt_trans
  connected hab hba := String.le_antisymm (String.not_lt.mp hba) (String.not_lt.mp hab)

theorem TotalLT.asymm {α : Type} [LT α] [TotalLT α] {a b : α} (h : a < b) : ¬ b < a :=
  fun back => TotalLT.irrefl a (TotalLT.trans h back)

structure SortedSet (α : Type) [LT α] where
  toList : List α
  ascending : toList.Pairwise (· < ·)
deriving DecidableEq

namespace SortedSet

variable {α : Type} [LT α]

instance [Hashable α] : Hashable (SortedSet α) := ⟨fun s => hash s.toList⟩
instance : Membership α (SortedSet α) := ⟨fun s a => a ∈ s.toList⟩
instance : EmptyCollection (SortedSet α) := ⟨⟨[], .nil⟩⟩

instance [DecidableEq α] (a : α) (s : SortedSet α) : Decidable (a ∈ s) :=
  inferInstanceAs (Decidable (a ∈ s.toList))

def isEmpty (s : SortedSet α) : Bool := s.toList.isEmpty

def size (s : SortedSet α) : Nat := s.toList.length

def place [DecidableLT α] (a : α) : List α → List α
  | [] => [a]
  | b :: rest => if a < b then a :: b :: rest else if b < a then b :: place a rest else b :: rest

theorem mem_of_mem_place [DecidableLT α] {a x : α} {l : List α} (h : x ∈ place a l) :
    x = a ∨ x ∈ l := by
  induction l with
  | nil => simpa [place] using h
  | cons b rest ih =>
    unfold place at h
    split at h
    · simpa using h
    · split at h
      · rcases List.mem_cons.mp h with rfl | h
        · simp
        · rcases ih h with rfl | h <;> simp [*]
      · exact .inr h

theorem place_ascending [DecidableLT α] [TotalLT α] (a : α) {l : List α}
    (h : l.Pairwise (· < ·)) : (place a l).Pairwise (· < ·) := by
  induction l with
  | nil => simp [place]
  | cons b rest ih =>
    have ⟨below, tail⟩ := List.pairwise_cons.mp h
    unfold place
    split
    · rename_i hab
      refine List.pairwise_cons.mpr ⟨fun x hx => ?_, h⟩
      rcases List.mem_cons.mp hx with rfl | hx
      · exact hab
      · exact TotalLT.trans hab (below x hx)
    · split
      · rename_i hba
        refine List.pairwise_cons.mpr ⟨fun x hx => ?_, ih tail⟩
        rcases mem_of_mem_place hx with rfl | hx
        · exact hba
        · exact below x hx
      · exact h

def insert [DecidableLT α] [TotalLT α] (s : SortedSet α) (a : α) : SortedSet α :=
  ⟨place a s.toList, place_ascending a s.ascending⟩

def filter (s : SortedSet α) (keep : α → Bool) : SortedSet α :=
  ⟨s.toList.filter keep, s.ascending.sublist List.filter_sublist⟩

def erase [DecidableEq α] (s : SortedSet α) (a : α) : SortedSet α :=
  s.filter (fun b => decide (b ≠ a))

def singleton (a : α) : SortedSet α := ⟨[a], by simp⟩

def union [DecidableLT α] [TotalLT α] (s t : SortedSet α) : SortedSet α :=
  t.toList.foldl insert s

def ofList [DecidableLT α] [TotalLT α] (l : List α) : SortedSet α := l.foldl insert ∅

def meets [DecidableEq α] (s t : SortedSet α) : Bool := s.toList.any (fun a => decide (a ∈ t))

theorem mem_place [DecidableLT α] [TotalLT α] {a x : α} {l : List α} :
    x ∈ place a l ↔ x = a ∨ x ∈ l := by
  refine ⟨mem_of_mem_place, fun h => ?_⟩
  induction l with
  | nil => simpa [place] using h
  | cons b rest ih =>
    unfold place
    split
    · simpa using h
    · rename_i hab
      split
      · rcases h with h | h
        · simp [ih (.inl h)]
        · rcases List.mem_cons.mp h with rfl | h
          · simp
          · simp [ih (.inr h)]
      · rename_i hba
        rcases h with rfl | h
        · simp [TotalLT.connected hab hba]
        · exact h

@[simp] theorem mem_toList {s : SortedSet α} {a : α} : a ∈ s.toList ↔ a ∈ s := Iff.rfl

@[simp] theorem not_mem_empty (a : α) : ¬ a ∈ (∅ : SortedSet α) := List.not_mem_nil

@[simp] theorem mem_singleton {a b : α} : a ∈ singleton b ↔ a = b := List.mem_singleton

@[simp] theorem mem_insert [DecidableLT α] [TotalLT α] {s : SortedSet α} {a x : α} :
    x ∈ s.insert a ↔ x = a ∨ x ∈ s := mem_place

@[simp] theorem mem_filter {s : SortedSet α} {keep : α → Bool} {a : α} :
    a ∈ s.filter keep ↔ a ∈ s ∧ keep a = true := List.mem_filter

@[simp] theorem mem_erase [DecidableEq α] {s : SortedSet α} {a x : α} :
    x ∈ s.erase a ↔ x ∈ s ∧ x ≠ a := by simp [erase]

theorem mem_foldl_insert [DecidableLT α] [TotalLT α] {l : List α} {s : SortedSet α} {x : α} :
    x ∈ l.foldl insert s ↔ x ∈ s ∨ x ∈ l := by
  induction l generalizing s with
  | nil => simp
  | cons a rest ih => simp [ih, or_assoc, or_left_comm]

@[simp] theorem mem_union [DecidableLT α] [TotalLT α] {s t : SortedSet α} {x : α} :
    x ∈ s.union t ↔ x ∈ s ∨ x ∈ t := mem_foldl_insert

@[simp] theorem mem_ofList [DecidableLT α] [TotalLT α] {l : List α} {x : α} :
    x ∈ ofList l ↔ x ∈ l := by simp [ofList, mem_foldl_insert]

theorem ascending_ext [TotalLT α] {xs ys : List α} (hx : xs.Pairwise (· < ·))
    (hy : ys.Pairwise (· < ·)) (same : ∀ a, a ∈ xs ↔ a ∈ ys) : xs = ys := by
  induction xs generalizing ys with
  | nil =>
    cases ys with
    | nil => rfl
    | cons y ys => exact absurd ((same y).mpr (by simp)) (by simp)
  | cons x xs ih =>
    cases ys with
    | nil => exact absurd ((same x).mp (by simp)) (by simp)
    | cons y ys =>
      have ⟨xBelow, xTail⟩ := List.pairwise_cons.mp hx
      have ⟨yBelow, yTail⟩ := List.pairwise_cons.mp hy
      have head : x = y := by
        rcases List.mem_cons.mp ((same x).mp (by simp)) with h | h
        · exact h
        · rcases List.mem_cons.mp ((same y).mpr (by simp)) with h' | h'
          · exact h'.symm
          · exact absurd (xBelow y h') (TotalLT.asymm (yBelow x h))
      subst head
      have tail : ∀ a, a ∈ xs ↔ a ∈ ys := fun a => by
        refine ⟨fun ha => ?_, fun ha => ?_⟩
        · rcases List.mem_cons.mp ((same a).mp (List.mem_cons_of_mem x ha)) with rfl | h
          · exact absurd (xBelow a ha) (TotalLT.irrefl a)
          · exact h
        · rcases List.mem_cons.mp ((same a).mpr (List.mem_cons_of_mem x ha)) with rfl | h
          · exact absurd (yBelow a ha) (TotalLT.irrefl a)
          · exact h
      rw [ih xTail yTail tail]

theorem ext [TotalLT α] {s t : SortedSet α} (same : ∀ a, a ∈ s ↔ a ∈ t) : s = t := by
  cases s with | mk xs hx =>
  cases t with | mk ys hy =>
  have h : xs = ys := ascending_ext hx hy same
  subst h
  rfl

end SortedSet
end ActorAnalysis
