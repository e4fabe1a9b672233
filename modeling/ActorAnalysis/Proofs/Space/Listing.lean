import ActorAnalysis.Proofs.Space.Partition

/-! The reached set as a plain list of entries. Slots, vacancies and tables do not show from
outside: any sequence of insertions and removals gets the answers that such a list gives. -/
namespace ActorAnalysis

namespace Reached

inductive Call (S : Type) where
  | insert (s : S) (keys : SortedSet PartitionKey)
  | remove (s : S)

@[ext] structure Answers (S : Type) where
  contains : S → Bool
  size : Nat
  isEmpty : Bool
  toList : List S
  keysOf? : S → Option (SortedSet PartitionKey)
  partitionOf : SortedSet PartitionKey → List S

/-- What calls return, one after the other, and what they leave. -/
def Call.replay {S R : Type} (perform : R → Call S → Bool × R) (r : R) :
    List (Call S) → List Bool × R
  | [] => ([], r)
  | call :: rest =>
    let later := replay perform (perform r call).2 rest
    ((perform r call).1 :: later.1, later.2)

/-- Calls that return the same and keep a relation do so in any sequence. -/
theorem Call.replay_agrees {S R R' : Type} {perform : R → Call S → Bool × R}
    {perform' : R' → Call S → Bool × R'} {related : R → R' → Prop}
    (step : ∀ r r' call, related r r' →
      (perform r call).1 = (perform' r' call).1 ∧ related (perform r call).2 (perform' r' call).2)
    (calls : List (Call S)) {r : R} {r' : R'} (start : related r r') :
    (replay perform r calls).1 = (replay perform' r' calls).1 ∧
      related (replay perform r calls).2 (replay perform' r' calls).2 := by
  induction calls generalizing r r' with
  | nil => exact ⟨rfl, start⟩
  | cons call rest ih =>
    obtain ⟨same, next⟩ := step r r' call start
    obtain ⟨later, last⟩ := ih next
    refine ⟨?_, last⟩
    simp only [replay, same, later]

end Reached

/-- States with their keys, in the order in which they came. -/
structure Listing (S : Type) where
  entries : List (Reached.Entry S)

variable {S : Type} [DecidableEq S]

namespace Listing

instance : EmptyCollection (Listing S) := ⟨⟨[]⟩⟩

def contains (l : Listing S) (s : S) : Bool := l.entries.any (fun e => decide (e.state = s))

def states (l : Listing S) : List S := l.entries.map Reached.Entry.state

def insert (l : Listing S) (s : S) (keys : SortedSet PartitionKey) : Bool × Listing S :=
  if l.contains s then (false, l) else (true, ⟨l.entries ++ [⟨s, keys⟩]⟩)

def remove (l : Listing S) (s : S) : Bool × Listing S :=
  (l.contains s, ⟨l.entries.filter (fun e => decide (e.state ≠ s))⟩)

def keysOf? (l : Listing S) (s : S) : Option (SortedSet PartitionKey) :=
  (l.entries.find? (fun e => decide (e.state = s))).map Reached.Entry.keys

def partitionOf (l : Listing S) (keys : SortedSet PartitionKey) : List S :=
  if keys.isEmpty then l.states
  else (l.entries.filter (fun e => keys.meets e.keys)).map Reached.Entry.state

def perform (l : Listing S) : Reached.Call S → Bool × Listing S
  | .insert s keys => l.insert s keys
  | .remove s => l.remove s

def answers (l : Listing S) : Reached.Answers S where
  contains := l.contains
  size := l.entries.length
  isEmpty := l.entries.isEmpty
  toList := l.states
  keysOf? := l.keysOf?
  partitionOf := l.partitionOf

theorem contains_iff (l : Listing S) (s : S) : l.contains s = true ↔ s ∈ l.states := by
  simp [contains, states]

end Listing

namespace Reached

variable [Hashable S]

def perform (r : Reached S) : Call S → Bool × Reached S
  | .insert s keys => r.insert s keys
  | .remove s => r.remove s

def answers (r : Reached S) : Answers S where
  contains := r.contains
  size := r.size
  isEmpty := r.isEmpty
  toList := r.toList
  keysOf? := r.keysOf?
  partitionOf := r.partitionOf

/-- The tables agree with the entries, and these are the listed ones. -/
structure Represents (r : Reached S) (l : Listing S) : Prop where
  valid : r.Valid
  indexed : r.Indexed
  entries : r.entries = l.entries

/-- No look-up of a slot leaves the slots, and there are no fewer slots than states. -/
structure InRange (r : Reached S) : Prop where
  index : ∀ (s : S) slot, r.index[s]? = some slot → slot < r.slots.size
  partitions : ∀ key, ∀ slot ∈ r.partitions.getD key ∅, slot < r.slots.size
  vacant : r.index.size ≤ r.slots.size

theorem mem_entries {r : Reached S} {e : Entry S} :
    e ∈ r.entries ↔ ∃ slot, r.entryAt? slot = some e := by
  simp only [entries, entryAt?, Option.join_eq_some_iff, List.mem_filterMap, id_eq,
    exists_eq_right, Array.mem_toList_iff, Array.mem_iff_getElem?]

theorem size_eq {r : Reached S} (valid : r.Valid) : r.size = r.entries.length := by
  have same : r.index.keys.Perm r.toList := by
    apply (List.perm_ext_iff_of_nodup Std.HashMap.nodup_keys (nodup_toList valid)).mpr
    intro s
    rw [Std.HashMap.mem_keys, ← Std.HashMap.contains_iff_mem]
    exact contains_iff valid s
  calc r.size = r.index.keys.length := Std.HashMap.length_keys.symm
    _ = r.toList.length := same.length_eq
    _ = r.entries.length := List.length_map _

theorem remove_fst (r : Reached S) (s : S) : (r.remove s).1 = r.contains s := by
  unfold remove contains
  rw [Std.HashMap.contains_eq_isSome_getElem?]
  split
  · rename_i absent
    simp [absent]
  · rename_i slot found
    simp [found]

namespace Represents

theorem empty : (∅ : Reached S).Represents ∅ := ⟨valid_empty, indexed_empty, rfl⟩

variable {r : Reached S} {l : Listing S} (represents : r.Represents l)
include represents

theorem toList : r.toList = l.states := congrArg (List.map Entry.state) represents.entries

theorem contains (s : S) : r.contains s = l.contains s := by
  rw [Bool.eq_iff_iff, contains_iff represents.valid, Listing.contains_iff, represents.toList]

theorem insert (s : S) (keys : SortedSet PartitionKey) :
    (r.insert s keys).1 = (l.insert s keys).1 ∧
      (r.insert s keys).2.Represents (l.insert s keys).2 := by
  have listed := entries_insert r s keys
  have same := represents.contains s
  constructor
  · unfold Reached.insert Listing.insert
    rw [same]
    split <;> rfl
  · refine ⟨valid_insert represents.valid s keys, indexed_insert represents.indexed s keys, ?_⟩
    rw [listed, same, represents.entries, Listing.insert]
    split <;> rfl

theorem remove (s : S) :
    (r.remove s).1 = (l.remove s).1 ∧ (r.remove s).2.Represents (l.remove s).2 := by
  constructor
  · rw [remove_fst]
    exact represents.contains s
  · refine ⟨(remove_spec represents.valid s).1,
      indexed_remove represents.valid represents.indexed s, ?_⟩
    rw [entries_remove represents.valid, represents.entries]
    rfl

theorem perform (call : Call S) :
    (r.perform call).1 = (l.perform call).1 ∧ (r.perform call).2.Represents (l.perform call).2 := by
  cases call with
  | insert s keys => exact represents.insert s keys
  | remove s => exact represents.remove s

theorem keysOf? (s : S) : r.keysOf? s = l.keysOf? s := by
  have valid := represents.valid
  unfold Reached.keysOf? Listing.keysOf?
  rw [← represents.entries]
  cases found : r.index[s]? with
  | none =>
    have absent : r.entries.find? (fun e => decide (e.state = s)) = none := by
      apply List.find?_eq_none.mpr
      intro e he same
      obtain ⟨slot, held⟩ := mem_entries.mp he
      have listed := (valid e.state slot).mpr ⟨e.keys, held⟩
      rw [of_decide_eq_true same, found] at listed
      contradiction
    rw [absent]
    rfl
  | some slot =>
    obtain ⟨keys, held⟩ := (valid s slot).mp found
    cases first : r.entries.find? (fun e => decide (e.state = s)) with
    | none =>
      have other := List.find?_eq_none.mp first ⟨s, keys⟩ (mem_entries.mpr ⟨slot, held⟩)
      simp at other
    | some e =>
      obtain ⟨slot', held'⟩ := mem_entries.mp (List.mem_of_find?_eq_some first)
      have own : e.state = s := by simpa using List.find?_some first
      -- a state lies in one slot only, so both look-ups find the same entry
      have here := (valid e.state slot').mpr ⟨e.keys, held'⟩
      rw [own, found] at here
      cases here
      rw [held] at held'
      simp [held, ← Option.some.inj held']

theorem partitionOf (keys : SortedSet PartitionKey) : r.partitionOf keys = l.partitionOf keys := by
  rw [partitionOf_eq represents.indexed, represents.entries, Listing.partitionOf]
  cases unkeyed : keys.isEmpty with
  | true =>
    have all : l.entries.filter (fun _ => true) = l.entries := List.filter_eq_self.mpr (by simp)
    simp [all, Listing.states]
  | false => simp

theorem inRange : r.InRange := by
  have inside {slot : Nat} {e : Entry S} (held : r.entryAt? slot = some e) :
      slot < r.slots.size := by
    have found : r.slots[slot]? = some (some e) := Option.join_eq_some_iff.mp held
    exact (Array.getElem?_eq_some_iff.mp found).1
  constructor
  case index =>
    intro s slot found
    obtain ⟨keys, held⟩ := (represents.valid s slot).mp found
    exact inside held
  case partitions =>
    intro key slot listed
    obtain ⟨e, held, -⟩ := (represents.indexed key slot).mp listed
    exact inside held
  case vacant =>
    calc r.index.size = r.entries.length := size_eq represents.valid
      _ ≤ r.slots.toList.length := List.length_filterMap_le id _
      _ = r.slots.size := Array.length_toList

theorem answers : r.answers = l.answers := by
  have size := size_eq represents.valid
  ext1
  · exact funext represents.contains
  · show r.size = l.entries.length
    rw [size, represents.entries]
  · show r.isEmpty = l.entries.isEmpty
    have none : r.isEmpty = (r.size == 0) := Std.HashMap.isEmpty_eq_size_eq_zero
    rw [none, size, represents.entries, Bool.eq_iff_iff, List.isEmpty_iff, beq_iff_eq,
      List.length_eq_zero_iff]
  · exact represents.toList
  · exact funext represents.keysOf?
  · exact funext represents.partitionOf

end Represents

theorem replay_represents (calls : List (Call S)) :
    (Call.replay perform (∅ : Reached S) calls).1 =
      (Call.replay Listing.perform (∅ : Listing S) calls).1 ∧
    (Call.replay perform (∅ : Reached S) calls).2.Represents
      (Call.replay Listing.perform (∅ : Listing S) calls).2 := by
  have step (r : Reached S) (l : Listing S) (call : Call S) (represents : r.Represents l) :
      (r.perform call).1 = (l.perform call).1 ∧
        (r.perform call).2.Represents (l.perform call).2 := represents.perform call
  exact Call.replay_agrees step calls Represents.empty

/-- Whatever is inserted and removed, a reached set returns and answers the same as a list of
entries, and no look-up gives a state twice. -/
theorem calls_answer_like_a_list (calls : List (Call S)) :
    (Call.replay perform (∅ : Reached S) calls).1 =
      (Call.replay Listing.perform (∅ : Listing S) calls).1 ∧
    (Call.replay perform (∅ : Reached S) calls).2.answers =
      (Call.replay Listing.perform (∅ : Listing S) calls).2.answers ∧
    ∀ keys, ((Call.replay perform (∅ : Reached S) calls).2.partitionOf keys).Nodup := by
  obtain ⟨returned, represents⟩ := replay_represents calls
  exact ⟨returned, represents.answers, nodup_partitionOf represents.valid⟩

end Reached
end ActorAnalysis
