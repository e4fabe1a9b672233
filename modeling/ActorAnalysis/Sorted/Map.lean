import ActorAnalysis.Sorted.Set

namespace ActorAnalysis

structure SortedMap (κ β : Type) [LT κ] where
  entries : List (κ × β)
  ascending : entries.Pairwise (fun a b => a.1 < b.1)
deriving DecidableEq

namespace SortedMap

variable {κ β : Type} [LT κ]

instance [Hashable κ] [Hashable β] : Hashable (SortedMap κ β) := ⟨fun m => hash m.entries⟩
instance : EmptyCollection (SortedMap κ β) := ⟨⟨[], .nil⟩⟩

def keys (m : SortedMap κ β) : List κ := m.entries.map Prod.fst

def get? [DecidableEq κ] (m : SortedMap κ β) (k : κ) : Option β := m.entries.lookup k

def place [DecidableLT κ] (k : κ) (v : β) : List (κ × β) → List (κ × β)
  | [] => [(k, v)]
  | e :: rest =>
    if k < e.1 then (k, v) :: e :: rest
    else if e.1 < k then e :: place k v rest
    else (k, v) :: rest

theorem mem_of_mem_place [DecidableLT κ] {k : κ} {v : β} {e : κ × β} {l : List (κ × β)}
    (h : e ∈ place k v l) : e = (k, v) ∨ e ∈ l := by
  induction l with
  | nil => simpa [place] using h
  | cons b rest ih =>
    unfold place at h
    split at h
    · simpa using h
    · split at h
      · rcases List.mem_cons.mp h with rfl | h
        · simp
        · rcases ih h with rfl | h <;> simp [*]
      · rcases List.mem_cons.mp h with rfl | h <;> simp [*]

theorem place_ascending [DecidableLT κ] [TotalLT κ] (k : κ) (v : β) {l : List (κ × β)}
    (h : l.Pairwise (fun a b => a.1 < b.1)) : (place k v l).Pairwise (fun a b => a.1 < b.1) := by
  induction l with
  | nil => simp [place]
  | cons b rest ih =>
    have ⟨below, tail⟩ := List.pairwise_cons.mp h
    unfold place
    split
    · rename_i hkb
      refine List.pairwise_cons.mpr ⟨fun x hx => ?_, h⟩
      rcases List.mem_cons.mp hx with rfl | hx
      · exact hkb
      · exact TotalLT.trans hkb (below x hx)
    · rename_i hkb
      split
      · rename_i hbk
        refine List.pairwise_cons.mpr ⟨fun x hx => ?_, ih tail⟩
        rcases mem_of_mem_place hx with rfl | hx
        · exact hbk
        · exact below x hx
      · rename_i hbk
        have same : k = b.1 := TotalLT.connected hkb hbk
        exact List.pairwise_cons.mpr ⟨fun x hx => same ▸ below x hx, tail⟩

def insert [DecidableLT κ] [TotalLT κ] (m : SortedMap κ β) (k : κ) (v : β) : SortedMap κ β :=
  ⟨place k v m.entries, place_ascending k v m.ascending⟩

def filter (m : SortedMap κ β) (keep : κ → β → Bool) : SortedMap κ β :=
  ⟨m.entries.filter (fun e => keep e.1 e.2), m.ascending.sublist List.filter_sublist⟩

def erase [DecidableEq κ] (m : SortedMap κ β) (k : κ) : SortedMap κ β :=
  m.filter (fun k' _ => decide (k' ≠ k))

/-- The last binding of a key counts. -/
def ofList [DecidableLT κ] [TotalLT κ] (l : List (κ × β)) : SortedMap κ β :=
  l.foldl (fun m e => m.insert e.1 e.2) ∅

end SortedMap
end ActorAnalysis
