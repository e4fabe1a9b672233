import ActorAnalysis.Sorted.Map
import ActorAnalysis.Sorted.Set

namespace ActorAnalysis

namespace SortedMap

variable {κ β : Type} [DecidableEq κ]

theorem lookup_cons_eq (k : κ) (v : β) (l : List (κ × β)) (x : κ) :
    ((k, v) :: l).lookup x = if x = k then some v else l.lookup x := by
  by_cases h : x = k
  · simp [h]
  · have apart : (x == k) = false := by simpa using h
    simp [List.lookup_cons, apart, h]

variable [LT κ]

theorem lookup_place [DecidableLT κ] [TotalLT κ] (k : κ) (v : β) (l : List (κ × β)) (x : κ) :
    (place k v l).lookup x = if x = k then some v else l.lookup x := by
  induction l with
  | nil => simp only [place, lookup_cons_eq, List.lookup_nil]
  | cons e rest ih =>
    obtain ⟨key, b⟩ := e
    unfold place
    split
    · simp only [lookup_cons_eq]
    · rename_i hkb
      split
      · rename_i hbk
        have apart : k ≠ key := fun same => TotalLT.irrefl k (by simpa [same] using hbk)
        simp only [lookup_cons_eq, ih]
        by_cases h : x = k
        · subst h
          simp [apart]
        · simp [h]
      · rename_i hbk
        have same : k = key := TotalLT.connected hkb hbk
        subst same
        simp only [lookup_cons_eq]
        split <;> rfl

@[simp] theorem get?_empty (x : κ) : (∅ : SortedMap κ β).get? x = none := rfl

@[simp] theorem get?_insert [DecidableLT κ] [TotalLT κ] (m : SortedMap κ β) (k : κ) (v : β)
    (x : κ) : (m.insert k v).get? x = if x = k then some v else m.get? x :=
  lookup_place k v m.entries x

theorem lookup_filter [TotalLT κ] (keep : κ → β → Bool) {l : List (κ × β)}
    (ascending : l.Pairwise (fun a b => a.1 < b.1)) (x : κ) :
    (l.filter (fun e => keep e.1 e.2)).lookup x = (l.lookup x).filter (keep x) := by
  induction l with
  | nil => rfl
  | cons e rest ih =>
    obtain ⟨key, b⟩ := e
    have ⟨below, tail⟩ := List.pairwise_cons.mp ascending
    by_cases hx : x = key
    · subst hx
      have unique : rest.lookup x = none := by
        rw [List.lookup_eq_none_iff]
        intro p hp
        have above : x < p.1 := below p hp
        have apart : x ≠ p.1 := fun same => TotalLT.irrefl x (by simpa [← same] using above)
        simpa using apart
      by_cases kept : keep x b
      · simp [kept, Option.filter]
      · simp [kept, ih tail, unique, Option.filter]
    · by_cases kept : keep key b <;> simp [lookup_cons_eq, hx, kept, ih tail]

theorem get?_filter [TotalLT κ] (m : SortedMap κ β) (keep : κ → β → Bool) (x : κ) :
    (m.filter keep).get? x = (m.get? x).filter (keep x) :=
  lookup_filter keep m.ascending x

@[simp] theorem get?_erase [TotalLT κ] (m : SortedMap κ β) (k x : κ) :
    (m.erase k).get? x = if x = k then none else m.get? x := by
  unfold erase
  rw [get?_filter]
  by_cases h : x = k
  · cases m.get? x <;> simp [h]
  · cases m.get? x <;> simp [h]

theorem mem_entries_of_get? (m : SortedMap κ β) {x : κ} {v : β} (found : m.get? x = some v) :
    (x, v) ∈ m.entries := by
  obtain ⟨before, after, split, _⟩ := List.lookup_eq_some_iff.mp found
  rw [split]
  simp

theorem get?_of_mem_entries [TotalLT κ] (m : SortedMap κ β) {x : κ} {v : β}
    (listed : (x, v) ∈ m.entries) : m.get? x = some v := by
  obtain ⟨before, after, split⟩ := List.append_of_mem listed
  refine List.lookup_eq_some_iff.mpr ⟨before, after, split, fun e he => ?_⟩
  have ascending := m.ascending
  rw [split, List.pairwise_append] at ascending
  have below : e.1 < x := ascending.2.2 e he (x, v) List.mem_cons_self
  have apart : x ≠ e.1 := fun same => TotalLT.irrefl x (by simpa [← same] using below)
  simpa using apart

theorem mem_keys_of_get? (m : SortedMap κ β) {x : κ} {v : β} (found : m.get? x = some v) :
    x ∈ m.keys :=
  List.mem_map_of_mem (m.mem_entries_of_get? found)

theorem get?_of_mem_keys (m : SortedMap κ β) {x : κ} (member : x ∈ m.keys) :
    ∃ v, m.get? x = some v := by
  obtain ⟨entry, listed, rfl⟩ := List.mem_map.mp member
  cases found : m.get? entry.1 with
  | some v => exact ⟨v, rfl⟩
  | none => simpa using List.lookup_eq_none_iff.mp found entry listed

omit [DecidableEq κ] in
theorem nodup_entries [TotalLT κ] (m : SortedMap κ β) : m.entries.Nodup := by
  apply m.ascending.imp
  intro a b below same
  rw [same] at below
  exact TotalLT.irrefl b.1 below

theorem ext_get? [TotalLT κ] {m n : SortedMap κ β} (same : ∀ x, m.get? x = n.get? x) : m = n := by
  have listed (e : κ × β) : e ∈ m.entries ↔ e ∈ n.entries := by
    obtain ⟨x, v⟩ := e
    constructor
    · intro he
      exact n.mem_entries_of_get? (same x ▸ m.get?_of_mem_entries he)
    · intro he
      exact m.mem_entries_of_get? (same x ▸ n.get?_of_mem_entries he)
  have perm : m.entries.Perm n.entries :=
    (List.perm_ext_iff_of_nodup m.nodup_entries n.nodup_entries).mpr listed
  have entries : m.entries = n.entries :=
    perm.eq_of_pairwise (fun _ _ _ _ below above => absurd above (TotalLT.asymm below))
      m.ascending n.ascending
  cases m
  cases n
  cases entries
  rfl

end SortedMap

namespace SortedSet

variable {α β : Type} [LT α] [LT β]

theorem nodup_toList [TotalLT α] (s : SortedSet α) : s.toList.Nodup := by
  apply s.ascending.imp
  intro a b below same
  rw [same] at below
  exact TotalLT.irrefl b below

theorem isEmpty_iff {s : SortedSet α} : s.isEmpty = true ↔ ∀ a, a ∉ s := by
  unfold isEmpty
  rw [List.isEmpty_iff, List.eq_nil_iff_forall_not_mem]
  rfl

theorem exists_mem {s : SortedSet α} (some : s.isEmpty = false) : ∃ a, a ∈ s := by
  apply Classical.byContradiction
  intro none
  rw [isEmpty_iff.mpr (not_exists.mp none)] at some
  exact absurd some Bool.noConfusion

variable [DecidableLT β] [TotalLT β]

def image (f : α → β) (s : SortedSet α) : SortedSet β := .ofList (s.toList.map f)

@[simp] theorem mem_image {f : α → β} {s : SortedSet α} {b : β} :
    b ∈ s.image f ↔ ∃ a ∈ s, f a = b := by simp [image]

@[simp] theorem image_empty (f : α → β) : (∅ : SortedSet α).image f = ∅ := rfl

@[simp] theorem isEmpty_image (f : α → β) (s : SortedSet α) :
    (s.image f).isEmpty = s.isEmpty := by
  rw [Bool.eq_iff_iff, isEmpty_iff, isEmpty_iff]
  constructor
  · intro none a ha
    exact none (f a) (mem_image.mpr ⟨a, ha, rfl⟩)
  · intro none b hb
    obtain ⟨a, ha, _⟩ := mem_image.mp hb
    exact none a ha

theorem image_congr {f g : α → β} {s : SortedSet α} (same : ∀ a ∈ s, f a = g a) :
    s.image f = s.image g := by
  refine ext fun b => ?_
  rw [mem_image, mem_image]
  constructor
  · rintro ⟨a, ha, rfl⟩
    exact ⟨a, ha, (same a ha).symm⟩
  · rintro ⟨a, ha, rfl⟩
    exact ⟨a, ha, same a ha⟩

theorem image_insert [DecidableLT α] [TotalLT α] (f : α → β) (s : SortedSet α) (a : α) :
    (s.insert a).image f = (s.image f).insert (f a) := by
  refine ext fun b => ?_
  simp only [mem_image, mem_insert]
  constructor
  · rintro ⟨x, rfl | hx, rfl⟩
    · exact .inl rfl
    · exact .inr ⟨x, hx, rfl⟩
  · rintro (rfl | ⟨x, hx, rfl⟩)
    · exact ⟨a, .inl rfl, rfl⟩
    · exact ⟨x, .inr hx, rfl⟩

end SortedSet
end ActorAnalysis
