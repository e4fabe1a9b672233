import ActorAnalysis.Space.Frontier
import ActorAnalysis.Space.Reached

namespace ActorAnalysis

variable {S : Type} [DecidableEq S] [Hashable S]

namespace Frontier

structure Valid (f : Frontier S) : Prop where
  distinct : f.queue.Nodup
  members : ∀ s, f.contains s = true ↔ s ∈ f.queue

theorem valid_empty : (∅ : Frontier S).Valid where
  distinct := List.nodup_nil
  members s := by
    have absent : (∅ : Frontier S).contains s = false := Std.HashSet.contains_empty
    have waiting : (∅ : Frontier S).queue = [] := rfl
    simp [absent, waiting]

theorem mem_push {f : Frontier S} (valid : f.Valid) (s x : S) :
    x ∈ (f.push s).2.queue ↔ x = s ∨ x ∈ f.queue := by
  unfold push
  split
  · rename_i waits
    have known : s ∈ f.queue := (valid.members s).mp waits
    constructor
    · exact .inr
    · rintro (rfl | hx)
      · exact known
      · exact hx
  · simp [or_comm]

theorem valid_push {f : Frontier S} (valid : f.Valid) (s : S) : (f.push s).2.Valid := by
  unfold push
  split
  · exact valid
  · rename_i waits
    have fresh : s ∉ f.queue := fun h => waits ((valid.members s).mpr h)
    refine ⟨?_, fun x => ?_⟩
    · refine List.nodup_append.mpr ⟨valid.distinct, by simp, ?_⟩
      intro a ha b hb same
      have hb : b = s := List.mem_singleton.mp hb
      exact fresh (hb ▸ same ▸ ha)
    · have table : f.members.contains x = true ↔ x ∈ f.queue := valid.members x
      simp only [contains, Std.HashSet.contains_insert, Bool.or_eq_true, beq_iff_eq, table,
        List.mem_append, List.mem_singleton]
      constructor
      · rintro (rfl | hx)
        · exact .inr rfl
        · exact .inl hx
      · rintro (hx | rfl)
        · exact .inr hx
        · exact .inl rfl

theorem mem_remove {f : Frontier S} (valid : f.Valid) (s x : S) :
    x ∈ (f.remove s).2.queue ↔ x ∈ f.queue ∧ x ≠ s := by
  unfold remove
  split
  · exact valid.distinct.mem_erase_iff.trans and_comm
  · rename_i waits
    have absent : s ∉ f.queue := fun h => waits ((valid.members s).mpr h)
    constructor
    · intro hx
      exact ⟨hx, fun same => absent (same ▸ hx)⟩
    · exact And.left

theorem valid_of_erased {f : Frontier S} (valid : f.Valid) {s : S} {rest : List S}
    (distinct : rest.Nodup) (same : ∀ x, x ∈ rest ↔ x ∈ f.queue ∧ x ≠ s) :
    (⟨rest, f.members.erase s⟩ : Frontier S).Valid := by
  refine ⟨distinct, fun x => ?_⟩
  have table : f.members.contains x = true ↔ x ∈ f.queue := valid.members x
  simp only [contains, Std.HashSet.contains_erase, Bool.and_eq_true, Bool.not_eq_true', same,
    beq_eq_false_iff_ne, table]
  constructor
  · rintro ⟨apart, hx⟩
    exact ⟨hx, fun h => apart h.symm⟩
  · rintro ⟨hx, apart⟩
    exact ⟨fun h => apart h.symm, hx⟩

theorem valid_remove {f : Frontier S} (valid : f.Valid) (s : S) : (f.remove s).2.Valid := by
  have members := mem_remove valid s
  unfold remove at members ⊢
  split
  · rename_i waits
    rw [if_pos waits] at members
    exact valid_of_erased valid (valid.distinct.erase s) members
  · exact valid

structure Takes (rule : Frontier S → Option (S × Frontier S)) : Prop where
  nothing : ∀ f, f.Valid → rule f = none → f.queue = []
  one : ∀ f s rest, f.Valid → rule f = some (s, rest) →
    s ∈ f.queue ∧ rest.Valid ∧ ∀ x, x ∈ rest.queue ↔ x ∈ f.queue ∧ x ≠ s

theorem takes_popFront? : Takes (popFront? (S := S)) where
  nothing f _ none := by
    unfold popFront? at none
    split at none
    · assumption
    · contradiction
  one f s rest valid some := by
    unfold popFront? at some
    split at some
    · contradiction
    · rename_i head tail hq
      obtain ⟨rfl, rfl⟩ := Prod.mk.inj (Option.some.inj some)
      have distinct := valid.distinct
      rw [hq, List.nodup_cons] at distinct
      have same : ∀ x, x ∈ tail ↔ x ∈ f.queue ∧ x ≠ head := by
        intro x
        rw [hq, List.mem_cons]
        constructor
        · intro hx
          exact ⟨.inr hx, fun h => distinct.1 (h ▸ hx)⟩
        · rintro ⟨rfl | hx, apart⟩
          · exact absurd rfl apart
          · exact hx
      exact ⟨by simp [hq], valid_of_erased valid distinct.2 same, same⟩

theorem takes_popBack? : Takes (popBack? (S := S)) where
  nothing f _ none := by
    unfold popBack? at none
    exact List.getLast?_eq_none_iff.mp (Option.map_eq_none_iff.mp none)
  one f s rest valid some := by
    unfold popBack? at some
    obtain ⟨last, hlast, h⟩ := Option.map_eq_some_iff.mp some
    cases h
    obtain ⟨before, split⟩ := List.getLast?_eq_some_iff.mp hlast
    have dropped : f.queue.dropLast = before := by rw [split, List.dropLast_concat]
    have distinct := valid.distinct
    rw [split, List.nodup_append] at distinct
    have same : ∀ x, x ∈ f.queue.dropLast ↔ x ∈ f.queue ∧ x ≠ s := by
      intro x
      rw [dropped, split, List.mem_append, List.mem_singleton]
      constructor
      · intro hx
        exact ⟨.inl hx, distinct.2.2 x hx s (by simp)⟩
      · rintro ⟨hx | rfl, apart⟩
        · exact hx
        · exact absurd rfl apart
    exact ⟨List.mem_of_getLast? hlast, valid_of_erased valid (dropped ▸ distinct.1) same, same⟩

omit [DecidableEq S] [Hashable S] in
theorem leastFrom_mem {K : Type} [LT K] [DecidableLT K] (key : S → K) (best : S) (l : List S) :
    leastFrom key best l ∈ best :: l := by
  induction l generalizing best with
  | nil => simp [leastFrom]
  | cons s rest ih =>
    unfold leastFrom
    rcases List.mem_cons.mp (ih (if key s < key best then s else best)) with h | h
    · rw [h]
      split <;> simp
    · simp [h]

theorem takes_popMinBy? {K : Type} [LT K] [DecidableLT K] (key : S → K) :
    Takes (popMinBy? (S := S) key) where
  nothing f _ none := by
    unfold popMinBy? at none
    split at none
    · assumption
    · contradiction
  one f s rest valid some := by
    unfold popMinBy? at some
    split at some
    · contradiction
    · rename_i head tail hq
      cases Option.some.inj some
      exact ⟨hq ▸ leastFrom_mem key head tail, valid_remove valid _, mem_remove valid _⟩

end Frontier

namespace Reached

/-- The index finds exactly the slot that holds a state. -/
def Valid (r : Reached S) : Prop :=
  ∀ s slot, r.index[s]? = some slot ↔ ∃ keys, r.entryAt? slot = some ⟨s, keys⟩

theorem mem_toList {r : Reached S} {s : S} :
    s ∈ r.toList ↔ ∃ slot keys, r.entryAt? slot = some ⟨s, keys⟩ := by
  simp only [toList, entries, entryAt?, Option.join_eq_some_iff, List.mem_map,
    List.mem_filterMap, id_eq, exists_eq_right, Array.mem_toList_iff, Array.mem_iff_getElem?]
  constructor
  · rintro ⟨⟨_, keys⟩, ⟨slot, hslot⟩, rfl⟩
    exact ⟨slot, keys, hslot⟩
  · rintro ⟨slot, keys, hslot⟩
    exact ⟨⟨s, keys⟩, ⟨slot, hslot⟩, rfl⟩

theorem contains_iff {r : Reached S} (valid : r.Valid) (s : S) :
    r.contains s = true ↔ s ∈ r.toList := by
  rw [mem_toList]
  unfold contains
  rw [Std.HashMap.contains_eq_isSome_getElem?, Option.isSome_iff_exists]
  exact exists_congr (valid s)

theorem valid_empty : (∅ : Reached S).Valid := by
  intro s slot
  have absent : (∅ : Reached S).index[s]? = none := Std.HashMap.getElem?_empty
  have vacant : (∅ : Reached S).entryAt? slot = none := rfl
  simp [absent, vacant]

@[simp] theorem toList_empty : (∅ : Reached S).toList = [] := rfl

theorem toList_insert (r : Reached S) (s : S) (keys : SortedSet PartitionKey) :
    (r.insert s keys).2.toList = if r.contains s then r.toList else r.toList ++ [s] := by
  unfold insert
  split
  · rfl
  · simp [toList, entries]

theorem mem_insert {r : Reached S} (valid : r.Valid) (s : S) (keys : SortedSet PartitionKey)
    (x : S) : x ∈ (r.insert s keys).2.toList ↔ x = s ∨ x ∈ r.toList := by
  rw [toList_insert]
  split
  · rename_i present
    have known := (contains_iff valid s).mp present
    constructor
    · exact .inr
    · rintro (rfl | hx)
      · exact known
      · exact hx
  · simp [or_comm]

theorem valid_insert {r : Reached S} (valid : r.Valid) (s : S) (keys : SortedSet PartitionKey) :
    (r.insert s keys).2.Valid := by
  unfold insert
  split
  · exact valid
  · rename_i present
    have unseen : ∀ slot k, r.entryAt? slot ≠ some ⟨s, k⟩ := fun slot k held =>
      present ((contains_iff valid s).mpr (mem_toList.mpr ⟨slot, k, held⟩))
    have outside : r.entryAt? r.slots.size = none := by simp [entryAt?]
    intro x slot
    have table : (r.index.insert s r.slots.size)[x]? =
        if s = x then some r.slots.size else r.index[x]? := by simp [Std.HashMap.getElem?_insert]
    have held : ((r.slots.push (some (Entry.mk s keys)))[slot]?).join =
        if slot = r.slots.size then some ⟨s, keys⟩ else r.entryAt? slot := by
      rw [Array.getElem?_push]
      split <;> rfl
    show (r.index.insert s r.slots.size)[x]? = some slot ↔
      ∃ k, ((r.slots.push (some (Entry.mk s keys)))[slot]?).join = some ⟨x, k⟩
    rw [table, held]
    by_cases last : slot = r.slots.size
    · subst last
      by_cases hx : s = x
      · simp [hx]
      · have absent : r.index[x]? ≠ some r.slots.size := fun h => by
          obtain ⟨k, hk⟩ := (valid x _).mp h
          simp [outside] at hk
        simp [hx, absent]
    · by_cases hx : s = x
      · subst hx
        simp [last, Ne.symm last, unseen]
      · simp only [hx, last, if_false]
        exact valid x slot

theorem compact_spec (l : List (Entry S)) {r : Reached S} (valid : r.Valid) :
    (l.foldl (fun c e => (c.insert e.state e.keys).2) r).Valid ∧
      ∀ x, x ∈ (l.foldl (fun c e => (c.insert e.state e.keys).2) r).toList ↔
        x ∈ r.toList ∨ x ∈ l.map Entry.state := by
  induction l generalizing r with
  | nil => simp [valid]
  | cons e rest ih =>
    have h := ih (valid_insert valid e.state e.keys)
    refine ⟨h.1, fun x => ?_⟩
    rw [List.foldl_cons, h.2 x, mem_insert valid]
    simp [or_assoc, or_left_comm]

theorem valid_compact (r : Reached S) : r.compact.Valid := (compact_spec r.entries valid_empty).1

theorem mem_compact (r : Reached S) (x : S) : x ∈ r.compact.toList ↔ x ∈ r.toList := by
  have h := (compact_spec r.entries valid_empty).2 x
  rw [toList_empty, List.mem_nil_iff, false_or] at h
  exact h

theorem thinned_spec {r : Reached S} (valid : r.Valid) (thin : Prop) [Decidable thin] :
    (if thin then r.compact else r).Valid ∧
      ∀ x, x ∈ (if thin then r.compact else r).toList ↔ x ∈ r.toList := by
  split
  · exact ⟨valid_compact r, mem_compact r⟩
  · exact ⟨valid, fun _ => Iff.rfl⟩

/-- The set without the state `s`, which lies in `slot`, before vacant slots are dropped. -/
def vacated (r : Reached S) (s : S) (slot : Nat)
    (partitions : Std.HashMap PartitionKey (SortedSet Nat)) : Reached S where
  slots := r.slots.setIfInBounds slot none
  index := r.index.erase s
  partitions := partitions

section Vacated

variable {r : Reached S} (valid : r.Valid) {s : S} {slot : Nat} (found : r.index[s]? = some slot)
  (partitions : Std.HashMap PartitionKey (SortedSet Nat))

theorem entryAt?_vacated (r : Reached S) (s : S) (slot i : Nat) :
    (r.vacated s slot partitions).entryAt? i = if i = slot then none else r.entryAt? i := by
  show ((r.slots.setIfInBounds slot none)[i]?).join = _
  rw [Array.getElem?_setIfInBounds]
  by_cases h : slot = i
  · subst h
    simp
    split <;> rfl
  · simp [h, Ne.symm h, entryAt?]

include valid found

/-- The vacated slot is the only one that held the removed state. -/
theorem entryAt?_vacated_iff (i : Nat) (x : S) (keys : SortedSet PartitionKey) :
    (r.vacated s slot partitions).entryAt? i = some ⟨x, keys⟩ ↔
      r.entryAt? i = some ⟨x, keys⟩ ∧ x ≠ s := by
  obtain ⟨held, holds⟩ := (valid s slot).mp found
  have sole : r.entryAt? i = some ⟨x, keys⟩ → (i = slot ↔ x = s) := by
    intro hi
    constructor
    · rintro rfl
      exact congrArg Entry.state (Option.some.inj (hi.symm.trans holds))
    · rintro rfl
      exact Option.some.inj (((valid x i).mpr ⟨keys, hi⟩).symm.trans found)
  rw [entryAt?_vacated]
  constructor
  · intro h
    split at h
    · contradiction
    · rename_i other
      exact ⟨h, fun same => other ((sole h).mpr same)⟩
  · rintro ⟨h, other⟩
    rw [if_neg (fun same => other ((sole h).mp same))]
    exact h

theorem valid_vacated : (r.vacated s slot partitions).Valid := by
  intro x i
  simp only [entryAt?_vacated_iff valid found, exists_and_right, ← valid x i]
  show (r.index.erase s)[x]? = some i ↔ _
  rw [Std.HashMap.getElem?_erase]
  by_cases h : s = x
  · simp [h]
  · simp [h, Ne.symm h]

theorem mem_vacated (x : S) :
    x ∈ (r.vacated s slot partitions).toList ↔ x ∈ r.toList ∧ x ≠ s := by
  simp only [mem_toList, entryAt?_vacated_iff valid found, exists_and_right]

end Vacated

theorem remove_spec {r : Reached S} (valid : r.Valid) (s : S) :
    (r.remove s).2.Valid ∧ ∀ x, x ∈ (r.remove s).2.toList ↔ x ∈ r.toList ∧ x ≠ s := by
  unfold remove
  split
  · rename_i absent
    refine ⟨valid, fun x => ⟨fun hx => ⟨hx, ?_⟩, And.left⟩⟩
    rintro rfl
    obtain ⟨slot, held⟩ := mem_toList.mp hx
    simp [(valid x slot).mpr held] at absent
  · rename_i slot found
    have thinned := fun partitions => thinned_spec (valid_vacated valid found partitions)
    exact ⟨(thinned _ _).1, fun x => ((thinned _ _).2 x).trans (mem_vacated valid found _ x)⟩

theorem mem_of_mem_partitionOf {r : Reached S} {keys : SortedSet PartitionKey} {s : S}
    (member : s ∈ r.partitionOf keys) : s ∈ r.toList := by
  unfold partitionOf at member
  split at member
  · exact member
  · obtain ⟨slot, _, found⟩ := List.mem_filterMap.mp member
    obtain ⟨e, held, rfl⟩ := Option.map_eq_some_iff.mp found
    exact mem_toList.mpr ⟨slot, e.keys, held⟩

end Reached
end ActorAnalysis
