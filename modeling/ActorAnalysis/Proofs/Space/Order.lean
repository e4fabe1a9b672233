import ActorAnalysis.Proofs.Space.Update

namespace ActorAnalysis

variable {S : Type} [DecidableEq S] [Hashable S]

namespace Frontier

theorem queue_push {f : Frontier S} (valid : f.Valid) (s : S) :
    (f.push s).2.queue = if s ∈ f.queue then f.queue else f.queue ++ [s] := by
  have table := valid.members s
  unfold push
  by_cases waits : s ∈ f.queue
  · rw [if_pos (table.mpr waits), if_pos waits]
  · rw [if_neg fun found => waits (table.mp found), if_neg waits]

end Frontier

namespace Reached

theorem entries_insert (r : Reached S) (s : S) (keys : SortedSet PartitionKey) :
    (r.insert s keys).2.entries =
      if r.contains s then r.entries else r.entries ++ [⟨s, keys⟩] := by
  unfold insert
  split
  · rfl
  · simp [entries]

theorem nodup_toList {r : Reached S} (valid : r.Valid) : r.toList.Nodup := by
  unfold toList entries List.Nodup
  rw [List.pairwise_map, List.pairwise_filterMap, List.pairwise_iff_getElem]
  intro i j hi hj before a ha b hb same
  have slot {k : Nat} {e : Entry S} (hk : k < r.slots.toList.length)
      (held : r.slots.toList[k] = some e) : r.index[e.state]? = some k := by
    apply (valid e.state k).mpr
    refine ⟨e.keys, ?_⟩
    have inside : k < r.slots.size := by simpa using hk
    have held : r.slots[k] = some e := by simpa using held
    simp [entryAt?, inside, held]
  have first := slot hi ha
  have second := slot hj hb
  rw [same, second] at first
  exact absurd (Option.some.inj first) (Nat.ne_of_gt before)

theorem nodup_partitionOf {r : Reached S} (valid : r.Valid) (keys : SortedSet PartitionKey) :
    (r.partitionOf keys).Nodup := by
  unfold partitionOf
  split
  · exact nodup_toList valid
  · unfold List.Nodup
    rw [List.pairwise_filterMap]
    apply (r.slotsUnder keys).ascending.imp
    intro i j before s hi t hj same
    obtain ⟨e, held, rfl⟩ := Option.map_eq_some_iff.mp hi
    obtain ⟨e', held', rfl⟩ := Option.map_eq_some_iff.mp hj
    have first := (valid e.state i).mpr ⟨e.keys, held⟩
    have second := (valid e'.state j).mpr ⟨e'.keys, held'⟩
    rw [same, second] at first
    exact absurd (Option.some.inj first) (Nat.ne_of_gt before)

/-- Emptying one place of a list takes one value off the values in it, provided that `keep` tells
it from the others. -/
theorem filterMap_set_none {α : Type} (keep : α → Bool) (l : List (Option α)) (i : Nat)
    (tells : ∀ j a, l[j]? = some (some a) → (keep a = true ↔ j ≠ i)) :
    (l.set i none).filterMap id = (l.filterMap id).filter keep := by
  induction l generalizing i with
  | nil => rfl
  | cons o rest ih =>
    cases i with
    | zero =>
      have others : (rest.filterMap id).filter keep = rest.filterMap id := by
        apply List.filter_eq_self.mpr
        intro a ha
        obtain ⟨_, member, rfl⟩ := List.mem_filterMap.mp ha
        obtain ⟨j, hj⟩ := List.mem_iff_getElem?.mp member
        exact (tells (j + 1) a hj).mpr (Nat.succ_ne_zero j)
      cases o with
      | none => rw [List.set_cons_zero, List.filterMap_cons_none rfl, others]
      | some a =>
        have gone : ¬keep a = true := fun kept => (tells 0 a rfl).mp kept rfl
        have head : id (some a) = some a := rfl
        rw [List.set_cons_zero, List.filterMap_cons_none rfl, List.filterMap_cons_some head,
          List.filter_cons_of_neg gone, others]
    | succ i =>
      have later := ih i fun j a hj => by
        rw [tells (j + 1) a hj]
        omega
      cases o with
      | none => simpa using later
      | some a =>
        have kept : keep a = true := (tells 0 a rfl).mpr (Nat.succ_ne_zero i).symm
        simpa [kept] using later

theorem entries_vacated {r : Reached S} (valid : r.Valid) {s : S} {slot : Nat}
    (found : r.index[s]? = some slot) (partitions : Std.HashMap PartitionKey (SortedSet Nat)) :
    (r.vacated s slot partitions).entries = r.entries.filter (fun e => decide (e.state ≠ s)) := by
  unfold entries vacated
  dsimp only
  rw [Array.toList_setIfInBounds]
  apply filterMap_set_none
  intro i e held
  have held : r.entryAt? i = some ⟨e.state, e.keys⟩ := by
    have held : r.slots[i]? = some (some e) := by simpa using held
    simp [entryAt?, held]
  have table := (valid e.state i).mpr ⟨e.keys, held⟩
  rw [decide_eq_true_iff]
  constructor
  · rintro other rfl
    obtain ⟨keys, holds⟩ := (valid s i).mp found
    exact other (congrArg Entry.state (Option.some.inj (held.symm.trans holds)))
  · rintro apart same
    rw [same, found] at table
    exact apart (Option.some.inj table).symm

theorem entries_compact_fold (l : List (Entry S)) {r : Reached S} (valid : r.Valid)
    (distinct : (r.toList ++ l.map Entry.state).Nodup) :
    (l.foldl (fun c e => (c.insert e.state e.keys).2) r).entries = r.entries ++ l := by
  induction l generalizing r with
  | nil => simp
  | cons e rest ih =>
    have new : e.state ∉ r.toList := by
      intro known
      rw [List.nodup_append] at distinct
      exact distinct.2.2 e.state known e.state (by simp) rfl
    have absent : ¬r.contains e.state = true := fun known => new ((contains_iff valid _).mp known)
    have listed := r.toList_insert e.state e.keys
    rw [if_neg absent] at listed
    rw [List.foldl_cons, ih (valid_insert valid e.state e.keys), entries_insert, if_neg absent]
    · simp
    · simpa [listed] using distinct

theorem entries_compact {r : Reached S} (valid : r.Valid) : r.compact.entries = r.entries :=
  entries_compact_fold r.entries valid_empty (nodup_toList valid)

theorem entries_remove {r : Reached S} (valid : r.Valid) (s : S) :
    (r.remove s).2.entries = r.entries.filter (fun e => decide (e.state ≠ s)) := by
  unfold remove
  split
  · rename_i absent
    apply Eq.symm
    apply List.filter_eq_self.mpr
    intro e he
    rw [decide_eq_true_iff]
    rintro rfl
    obtain ⟨slot, held⟩ := mem_toList.mp (List.mem_map_of_mem (f := Entry.state) he)
    rw [(valid e.state slot).mpr held] at absent
    contradiction
  · rename_i slot found
    have thinned (partitions : Std.HashMap PartitionKey (SortedSet Nat)) (thin : Prop)
        [Decidable thin] : (if thin then (r.vacated s slot partitions).compact
          else r.vacated s slot partitions).entries =
            r.entries.filter (fun e => decide (e.state ≠ s)) := by
      rw [← entries_vacated valid found partitions]
      split
      · exact entries_compact (valid_vacated valid found partitions)
      · rfl
    exact thinned _ _

end Reached

namespace Space

theorem queue_add_new {space : Space S} (valid : space.Valid) {s : S}
    (new : s ∉ space.frontier.queue) (keys : SortedSet PartitionKey) :
    (space.add s keys).frontier.queue = space.frontier.queue ++ [s] :=
  (Frontier.queue_push valid.1 s).trans (if_neg new)

theorem toList_add_new {space : Space S} (valid : space.Valid) {s : S}
    (new : s ∉ space.reached.toList) (keys : SortedSet PartitionKey) :
    (space.add s keys).reached.toList = space.reached.toList ++ [s] :=
  (Reached.toList_insert _ s keys).trans
    (if_neg fun known => new ((Reached.contains_iff valid.2 s).mp known))

theorem entries_dropAll (l : List S) {space : Space S} (valid : space.Valid) :
    (l.foldl drop space).reached.entries =
      space.reached.entries.filter (fun e => decide (e.state ∉ l)) := by
  induction l generalizing space with
  | nil => exact (List.filter_eq_self.mpr (by simp)).symm
  | cons s rest ih =>
    have one : (space.drop s).reached.entries = _ := Reached.entries_remove valid.2 s
    rw [List.foldl_cons, ih (valid.drop s), one, List.filter_filter]
    apply List.filter_congr
    intro e _
    by_cases same : e.state = s <;> simp [same]

end Space
end ActorAnalysis
