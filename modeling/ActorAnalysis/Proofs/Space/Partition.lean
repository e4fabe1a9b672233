import ActorAnalysis.Proofs.Sorted
import ActorAnalysis.Proofs.Space.Order

namespace ActorAnalysis

namespace Reached

variable {S : Type} [DecidableEq S] [Hashable S]

/-- The table lists exactly the slots of the entries under each key. -/
def Indexed (r : Reached S) : Prop :=
  ∀ key slot, slot ∈ r.partitions.getD key ∅ ↔ ∃ e, r.entryAt? slot = some e ∧ key ∈ e.keys

theorem indexed_empty : (∅ : Reached S).Indexed := by
  intro key slot
  have unlisted : (∅ : Reached S).partitions.getD key ∅ = ∅ := Std.HashMap.getD_empty
  have vacant : (∅ : Reached S).entryAt? slot = none := rfl
  simp [unlisted, vacant]

theorem mem_foldl_attach (slot : Nat) (l : List PartitionKey)
    (table : Std.HashMap PartitionKey (SortedSet Nat)) (key : PartitionKey) (i : Nat) :
    i ∈ (l.foldl (attach slot) table).getD key ∅ ↔
      i ∈ table.getD key ∅ ∨ i = slot ∧ key ∈ l := by
  induction l generalizing table with
  | nil => simp
  | cons k rest ih =>
    rw [List.foldl_cons, ih, attach, Std.HashMap.getD_insert]
    by_cases same : k = key
    · subst same
      simp only [beq_self_eq_true, if_true, SortedSet.mem_insert, List.mem_cons, true_or, and_true]
      by_cases new : i = slot <;> simp [new]
    · simp [same, Ne.symm same]

theorem entryAt?_insert {r : Reached S} {s : S} (new : ¬r.contains s = true)
    (keys : SortedSet PartitionKey) (i : Nat) : (r.insert s keys).2.entryAt? i =
      if i = r.slots.size then some ⟨s, keys⟩ else r.entryAt? i := by
  unfold insert
  rw [if_neg new]
  show ((r.slots.push (some (Entry.mk s keys)))[i]?).join = _
  rw [Array.getElem?_push]
  split <;> rfl

theorem indexed_insert {r : Reached S} (indexed : r.Indexed) (s : S)
    (keys : SortedSet PartitionKey) : (r.insert s keys).2.Indexed := by
  by_cases known : r.contains s = true
  · have same : (r.insert s keys).2 = r := by simp [insert, known]
    rw [same]
    exact indexed
  · intro key i
    have table : (r.insert s keys).2.partitions =
        keys.toList.foldl (attach r.slots.size) r.partitions := by simp [insert, known]
    have outside : r.entryAt? r.slots.size = none := by simp [entryAt?]
    rw [table, mem_foldl_attach, indexed key i, entryAt?_insert known]
    by_cases last : i = r.slots.size
    · simp [last, outside]
    · simp [last]

theorem mem_detach (slot : Nat) (table : Std.HashMap PartitionKey (SortedSet Nat))
    (k key : PartitionKey) (i : Nat) :
    i ∈ (detach slot table k).getD key ∅ ↔ i ∈ table.getD key ∅ ∧ ¬(i = slot ∧ key = k) := by
  unfold detach
  split
  · rename_i unlisted
    by_cases same : key = k
    · subst same
      simp [Std.HashMap.getD_eq_getD_getElem?, unlisted]
    · simp [same]
  · rename_i slots listed
    by_cases same : key = k
    · subst same
      have held : table.getD key ∅ = slots := by
        rw [Std.HashMap.getD_eq_getD_getElem?, listed]
        rfl
      dsimp only
      split
      · rename_i none
        have gone := SortedSet.isEmpty_iff.mp none i
        rw [SortedSet.mem_erase] at gone
        rw [Std.HashMap.getD_erase, held]
        simpa using gone
      · rw [Std.HashMap.getD_insert, held]
        simp
    · dsimp only
      split
      · simp [Std.HashMap.getD_erase, same, Ne.symm same]
      · simp [Std.HashMap.getD_insert, same, Ne.symm same]

theorem mem_foldl_detach (slot : Nat) (l : List PartitionKey)
    (table : Std.HashMap PartitionKey (SortedSet Nat)) (key : PartitionKey) (i : Nat) :
    i ∈ (l.foldl (detach slot) table).getD key ∅ ↔
      i ∈ table.getD key ∅ ∧ ¬(i = slot ∧ key ∈ l) := by
  induction l generalizing table with
  | nil => simp
  | cons k rest ih =>
    rw [List.foldl_cons, ih, mem_detach]
    grind

theorem indexed_vacated {r : Reached S} (indexed : r.Indexed) (s : S) {slot : Nat} {e : Entry S}
    (held : r.entryAt? slot = some e) :
    (r.vacated s slot (e.keys.toList.foldl (detach slot) r.partitions)).Indexed := by
  intro key i
  have table := mem_foldl_detach slot e.keys.toList r.partitions key i
  rw [indexed key i] at table
  rw [entryAt?_vacated]
  refine table.trans ?_
  by_cases here : i = slot
  · subst here
    simp [held]
  · simp [here]

theorem indexed_compact (r : Reached S) : r.compact.Indexed := by
  have folded (l : List (Entry S)) (c : Reached S) (indexed : c.Indexed) :
      (l.foldl (fun c e => (c.insert e.state e.keys).2) c).Indexed := by
    induction l generalizing c with
    | nil => exact indexed
    | cons e rest ih => exact ih _ (indexed_insert indexed e.state e.keys)
  exact folded r.entries empty indexed_empty

theorem indexed_remove {r : Reached S} (valid : r.Valid) (indexed : r.Indexed) (s : S) :
    (r.remove s).2.Indexed := by
  unfold remove
  split
  · exact indexed
  · rename_i slot found
    obtain ⟨keys, held⟩ := (valid s slot).mp found
    have rest := indexed_vacated indexed s held
    simp only [held]
    split
    · exact indexed_compact _
    · exact rest

theorem mem_slotsUnder (r : Reached S) (keys : SortedSet PartitionKey) (i : Nat) :
    i ∈ r.slotsUnder keys ↔ ∃ key ∈ keys, i ∈ r.partitions.getD key ∅ := by
  have folded (l : List PartitionKey) (found : SortedSet Nat) :
      i ∈ l.foldl (fun slots key => slots.union (r.partitions.getD key ∅)) found ↔
        i ∈ found ∨ ∃ key ∈ l, i ∈ r.partitions.getD key ∅ := by
    induction l generalizing found with
    | nil => simp
    | cons key rest ih =>
      rw [List.foldl_cons, ih, SortedSet.mem_union, or_assoc]
      simp only [List.mem_cons, exists_eq_or_imp]
  exact (folded keys.toList ∅).trans (by simp)

/-- Values looked up at ascending places are those of the list, as far as their places are among
them. -/
theorem filterMap_places {α : Type} (keep : α → Bool) (l : List (Option α)) {places : List Nat}
    (ascending : places.Pairwise (· < ·))
    (chosen : ∀ i, i ∈ places ↔ ∃ a, l[i]? = some (some a) ∧ keep a = true) :
    places.filterMap (fun i => l[i]?.join) = (l.filterMap id).filter keep := by
  have listed : l = (List.range l.length).map (fun i => l[i]?.join) := by
    apply List.ext_getElem
    · simp
    · intro i hi _
      simp [hi]
  have same : places = (List.range l.length).filter (fun i => (l[i]?.join).any keep) := by
    refine SortedSet.ascending_ext ascending (List.pairwise_lt_range.filter _) fun i => ?_
    rw [chosen, List.mem_filter, List.mem_range, Option.any_eq_true]
    constructor
    · rintro ⟨a, held, kept⟩
      exact ⟨(List.getElem?_eq_some_iff.mp held).1, a, by simp [held], kept⟩
    · rintro ⟨-, a, held, kept⟩
      exact ⟨a, Option.join_eq_some_iff.mp held, kept⟩
  have values : l.filterMap id = (List.range l.length).filterMap (fun i => l[i]?.join) :=
    (congrArg (List.filterMap id) listed).trans List.filterMap_map
  rw [values, List.filter_filterMap, same, List.filterMap_filter]
  congr 1
  funext i
  cases l[i]?.join with
  | none => rfl
  | some a => by_cases kept : keep a = true <;> simp [kept, Option.filter]

/-- The states under one of the keys; all states if there is no key. -/
theorem partitionOf_eq {r : Reached S} (indexed : r.Indexed) (keys : SortedSet PartitionKey) :
    r.partitionOf keys =
      (r.entries.filter (fun e => keys.isEmpty || keys.meets e.keys)).map Entry.state := by
  unfold partitionOf
  split
  · rename_i unkeyed
    have all : r.entries.filter (fun _ => true) = r.entries := List.filter_eq_self.mpr (by simp)
    simp [unkeyed, all, toList]
  · rename_i keyed
    have chosen (i : Nat) : i ∈ (r.slotsUnder keys).toList ↔
        ∃ e, r.slots.toList[i]? = some (some e) ∧ keys.meets e.keys = true := by
      rw [SortedSet.mem_toList, mem_slotsUnder, Array.getElem?_toList]
      constructor
      · rintro ⟨key, member, listed⟩
        obtain ⟨e, held, under⟩ := (indexed key i).mp listed
        refine ⟨e, Option.join_eq_some_iff.mp held, ?_⟩
        exact List.any_eq_true.mpr ⟨key, member, decide_eq_true under⟩
      · rintro ⟨e, held, meets⟩
        obtain ⟨key, member, under⟩ := List.any_eq_true.mp meets
        refine ⟨key, member, (indexed key i).mpr ⟨e, ?_, of_decide_eq_true under⟩⟩
        exact Option.join_eq_some_iff.mpr held
    have places := filterMap_places (fun e : Entry S => keys.meets e.keys) r.slots.toList
      (r.slotsUnder keys).ascending chosen
    have under : r.entries.filter (fun e => keys.isEmpty || keys.meets e.keys) =
        r.entries.filter (fun e => keys.meets e.keys) := by simp [keyed]
    rw [under]
    unfold entries
    rw [← places, List.map_filterMap]
    simp [entryAt?]

theorem partitionOf_insert {r : Reached S} (indexed : r.Indexed) (s : S)
    (keys under : SortedSet PartitionKey) :
    (r.partitionOf under).Sublist ((r.insert s keys).2.partitionOf under) := by
  rw [partitionOf_eq indexed, partitionOf_eq (indexed_insert indexed s keys), entries_insert]
  split
  · exact List.Sublist.refl _
  · rw [List.filter_append, List.map_append]
    exact List.sublist_append_left _ _

structure Filed (keys : S → SortedSet PartitionKey) (r : Reached S) : Prop where
  indexed : r.Indexed
  own : ∀ e ∈ r.entries, e.keys = keys e.state

theorem filed_empty (keys : S → SortedSet PartitionKey) : (∅ : Reached S).Filed keys where
  indexed := indexed_empty
  own _ he := nomatch he

theorem Filed.insert {keys : S → SortedSet PartitionKey} {r : Reached S} (filed : r.Filed keys)
    (s : S) : (r.insert s (keys s)).2.Filed keys where
  indexed := indexed_insert filed.indexed s (keys s)
  own e he := by
    rw [entries_insert] at he
    split at he
    · exact filed.own e he
    · rcases List.mem_append.mp he with he | he
      · exact filed.own e he
      · rw [List.mem_singleton.mp he]

theorem Filed.remove {keys : S → SortedSet PartitionKey} {r : Reached S} (valid : r.Valid)
    (filed : r.Filed keys) (s : S) : (r.remove s).2.Filed keys where
  indexed := indexed_remove valid filed.indexed s
  own e he := by
    rw [entries_remove valid] at he
    exact filed.own e (List.mem_filter.mp he).1

theorem Filed.mem_partitionOf {keys : S → SortedSet PartitionKey} {r : Reached S}
    (filed : r.Filed keys) (s : S) : s ∈ r.partitionOf (keys s) ↔ s ∈ r.toList := by
  refine ⟨mem_of_mem_partitionOf, fun reached => ?_⟩
  obtain ⟨e, he, rfl⟩ := List.mem_map.mp reached
  rw [partitionOf_eq filed.indexed]
  refine List.mem_map_of_mem (List.mem_filter.mpr ⟨he, ?_⟩)
  rw [filed.own e he, Bool.or_eq_true]
  cases keyed : (keys e.state).isEmpty with
  | true => exact .inl rfl
  | false =>
    obtain ⟨key, member⟩ := SortedSet.exists_mem keyed
    exact .inr (List.any_eq_true.mpr ⟨key, member, decide_eq_true member⟩)

end Reached
end ActorAnalysis
