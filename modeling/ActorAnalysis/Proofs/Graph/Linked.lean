import ActorAnalysis.Proofs.Stack.Layers

/-! The nodes that a set of states holds, seen as a graph. A node stands for every number in its
merge set. States are added, merged and dropped in such a way that no two of them stand for one
number, and that each edge keeps a state which stands for its source. -/
namespace ActorAnalysis

namespace Node

variable {S W : Type} (node : S → Node W)

def Resolves (l : List S) (x : NodeId) : Prop := ∃ s ∈ l, x ∈ (node s).mergeOf

/-- No two states stand for one number, and each edge comes from a number that a state stands
for. -/
structure Linked (ids : Ids) (l : List S) : Prop where
  numbered : ∀ s ∈ l, (node s).Numbered ids
  own : ∀ s ∈ l, (node s).id ∈ (node s).mergeOf
  apart : ∀ s ∈ l, ∀ t ∈ l, ∀ x, x ∈ (node s).mergeOf → x ∈ (node t).mergeOf → s = t
  edges : ∀ s ∈ l, ∀ p ∈ (node s).predecessors, Resolves node l p

/-- New states, not yet among `l`, whose edges come from there. -/
structure Awaits (ids : Ids) (l pending : List S) : Prop where
  own : ∀ t ∈ pending, ∀ x, x ∈ (node t).mergeOf ↔ x = (node t).id
  numbered : ∀ t ∈ pending, (node t).id < ids.nodes
  unresolved : ∀ t ∈ pending, ¬ Resolves node l (node t).id
  edges : ∀ t ∈ pending, ∀ p ∈ (node t).predecessors, Resolves node l p
  distinct : pending.Pairwise (fun s t => (node s).id ≠ (node t).id)

/-- States from which no edge leads to one in `l` or to one that is still to come. -/
structure Unused (targets l pending : List S) : Prop where
  members : ∀ t ∈ targets, t ∈ l
  distinct : targets.Nodup
  unused : ∀ t ∈ targets, ∀ s, s ∈ l ∨ s ∈ pending → ∀ p ∈ (node s).predecessors,
    p ∉ (node t).mergeOf

/-- The state `m` takes the place of those in `gone`, with all of their numbers. -/
structure Replaces (l gone : List S) (m : S) (l' : List S) : Prop where
  members : ∀ x, x ∈ l' ↔ x = m ∨ x ∈ l ∧ x ∉ gone
  inherits : ∀ s ∈ gone, ∀ x ∈ (node s).mergeOf, x ∈ (node m).mergeOf

/-- The state `m` holds what `parts` have been merged to since `base`. -/
structure Gathers (base ids : Ids) (parts : List S) (m : S) : Prop where
  later : base ≤ ids
  numbered : (node m).Numbered ids
  own : (node m).id ∈ (node m).mergeOf
  holds : ∀ s ∈ parts, ∀ x ∈ (node s).mergeOf, x ∈ (node m).mergeOf
  only : ∀ x ∈ (node m).mergeOf, base.nodes ≤ x ∨ Resolves node parts x
  edges : ∀ p ∈ (node m).predecessors, ∃ s ∈ parts, p ∈ (node s).predecessors

variable {node} {ids after : Ids} {l l' gone pending rest targets : List S} {m s t : S}

theorem Replaces.resolves (replaces : Replaces node l gone m l') {x : NodeId}
    (resolves : Resolves node l x) : Resolves node l' x := by
  obtain ⟨s, hs, hx⟩ := resolves
  by_cases dropped : s ∈ gone
  · exact ⟨m, (replaces.members m).mpr (.inl rfl), replaces.inherits s dropped x hx⟩
  · exact ⟨s, (replaces.members s).mpr (.inr ⟨hs, dropped⟩), hx⟩

theorem Replaces.resolved (replaces : Replaces node l gone m l') {x : NodeId}
    (resolves : Resolves node l' x) : x ∈ (node m).mergeOf ∨ Resolves node l x := by
  obtain ⟨s, hs, hx⟩ := resolves
  rcases (replaces.members s).mp hs with rfl | ⟨hs, -⟩
  · exact .inl hx
  · exact .inr ⟨s, hs, hx⟩

theorem Linked.later (linked : Linked node ids l) (later : ids ≤ after) : Linked node after l where
  numbered s hs := (linked.numbered s hs).grows later
  own := linked.own
  apart := linked.apart
  edges := linked.edges

/-- A state may take the place of others if it shares numbers with them only. -/
theorem Linked.replace (linked : Linked node ids l) (replaces : Replaces node l gone m l')
    (numbered : (node m).Numbered ids) (own : (node m).id ∈ (node m).mergeOf)
    (foreign : ∀ s ∈ l, ∀ x ∈ (node s).mergeOf, x ∈ (node m).mergeOf → s ∈ gone)
    (edges : ∀ p ∈ (node m).predecessors, Resolves node l p) : Linked node ids l' where
  numbered s hs := by
    rcases (replaces.members s).mp hs with rfl | ⟨hs, -⟩
    · exact numbered
    · exact linked.numbered s hs
  own s hs := by
    rcases (replaces.members s).mp hs with rfl | ⟨hs, -⟩
    · exact own
    · exact linked.own s hs
  apart s hs t ht x hxs hxt := by
    -- the numbers of the new state belonged to states that are gone
    rcases (replaces.members s).mp hs with rfl | ⟨hs, stays⟩
    · rcases (replaces.members t).mp ht with rfl | ⟨ht, stays⟩
      · rfl
      · exact absurd (foreign t ht x hxt hxs) stays
    · rcases (replaces.members t).mp ht with rfl | ⟨ht, -⟩
      · exact absurd (foreign s hs x hxs hxt) stays
      · exact linked.apart s hs t ht x hxs hxt
  edges s hs p hp := by
    apply replaces.resolves
    rcases (replaces.members s).mp hs with rfl | ⟨hs, -⟩
    · exact edges p hp
    · exact linked.edges s hs p hp

theorem Linked.drop (linked : Linked node ids l) (members : ∀ x, x ∈ l' ↔ x ∈ l ∧ x ≠ t)
    (unused : ∀ s ∈ l, ∀ p ∈ (node s).predecessors, p ∉ (node t).mergeOf) :
    Linked node ids l' where
  numbered s hs := linked.numbered s ((members s).mp hs).1
  own s hs := linked.own s ((members s).mp hs).1
  apart s hs t ht := linked.apart s ((members s).mp hs).1 t ((members t).mp ht).1
  edges s hs p hp := by
    have old := ((members s).mp hs).1
    obtain ⟨r, hr, held⟩ := linked.edges s old p hp
    refine ⟨r, (members r).mpr ⟨hr, ?_⟩, held⟩
    rintro rfl
    exact unused s old p hp held

theorem replaces_nothing (members : ∀ x, x ∈ l' ↔ x = s ∨ x ∈ l) : Replaces node l [] s l' where
  members x := by simp [members x]
  inherits s hs := absurd hs List.not_mem_nil

theorem Awaits.tail (awaits : Awaits node ids l (t :: rest)) : Awaits node ids l rest where
  own x hx := awaits.own x (List.mem_cons_of_mem t hx)
  numbered x hx := awaits.numbered x (List.mem_cons_of_mem t hx)
  unresolved x hx := awaits.unresolved x (List.mem_cons_of_mem t hx)
  edges x hx := awaits.edges x (List.mem_cons_of_mem t hx)
  distinct := awaits.distinct.of_cons

theorem Awaits.later (awaits : Awaits node ids l pending) (later : ids ≤ after)
    (kept : ∀ x, Resolves node l x → Resolves node l' x)
    (old : ∀ x, x < ids.nodes → Resolves node l' x → Resolves node l x) :
    Awaits node after l' pending where
  own := awaits.own
  numbered t ht := Nat.lt_of_lt_of_le (awaits.numbered t ht) later.2
  unresolved t ht resolves := awaits.unresolved t ht (old _ (awaits.numbered t ht) resolves)
  edges t ht p hp := kept p (awaits.edges t ht p hp)
  distinct := awaits.distinct

theorem Awaits.nothing : Awaits node ids l [] where
  own _ ht := absurd ht List.not_mem_nil
  numbered _ ht := absurd ht List.not_mem_nil
  unresolved _ ht := absurd ht List.not_mem_nil
  edges _ ht := absurd ht List.not_mem_nil
  distinct := .nil

theorem Born.awaits {predecessors : SortedSet NodeId} {out : List S}
    (born : Born ids after predecessors (out.map node)) (old : ∀ s ∈ l, (node s).Numbered ids)
    (edges : ∀ p ∈ predecessors, Resolves node l p) : Awaits node after l out where
  own t ht := born.own (node t) (List.mem_map_of_mem ht)
  numbered t ht := (born.drawn (node t) (List.mem_map_of_mem ht)).2
  unresolved t ht resolves := by
    obtain ⟨s, hs, held⟩ := resolves
    have new := (born.drawn (node t) (List.mem_map_of_mem ht)).1
    exact absurd ((old s hs).2 _ held) (Nat.not_lt_of_le new)
  edges t ht p hp := by
    rw [born.edges (node t) (List.mem_map_of_mem ht)] at hp
    exact edges p hp
  distinct := (List.pairwise_map.mp born.ascending).imp Nat.ne_of_lt

theorem Unused.nothing : Unused node [] l pending where
  members _ ht := absurd ht List.not_mem_nil
  distinct := .nil
  unused _ ht := absurd ht List.not_mem_nil

theorem Unused.tail (unused : Unused node targets l (t :: rest)) : Unused node targets l rest where
  members := unused.members
  distinct := unused.distinct
  unused x hx r hr := unused.unused x hx r (hr.imp_right (List.mem_cons_of_mem t))

theorem Unused.extend (unused : Unused node targets l pending)
    (members : ∀ x, x ∈ l' ↔ x = s ∨ x ∈ l)
    (edges : ∀ t ∈ targets, ∀ p ∈ (node s).predecessors, p ∉ (node t).mergeOf) :
    Unused node targets l' pending where
  members x hx := (members x).mpr (.inr (unused.members x hx))
  distinct := unused.distinct
  unused x hx r hr := by
    rcases hr with hr | hr
    · rcases (members r).mp hr with rfl | hr
      · exact edges x hx
      · exact unused.unused x hx r (.inl hr)
    · exact unused.unused x hx r (.inr hr)

theorem Unused.add (unused : Unused node targets l (t :: rest))
    (place : (node s).SamePlace (node t)) (members : ∀ x, x ∈ l' ↔ x = s ∨ x ∈ l) :
    Unused node targets l' rest := by
  apply unused.tail.extend members
  rw [place.predecessors]
  exact fun x hx => unused.unused x hx t (.inr List.mem_cons_self)

section Add

variable (awaits : Awaits node ids l (t :: rest)) (place : (node s).SamePlace (node t))
  (members : ∀ x, x ∈ l' ↔ x = s ∨ x ∈ l)
include awaits place

theorem Awaits.mem_mergeOf (x : NodeId) : x ∈ (node s).mergeOf ↔ x = (node t).id := by
  rw [place.mergeOf]
  exact awaits.own t List.mem_cons_self x

include members

theorem Linked.add (linked : Linked node ids l) : Linked node ids l' := by
  have own := awaits.mem_mergeOf place
  have low := awaits.numbered t List.mem_cons_self
  apply linked.replace (replaces_nothing members)
  · exact ⟨place.id ▸ low, fun x hx => (own x).mp hx ▸ low⟩
  · exact (own _).mpr place.id
  · intro r hr x held hx
    rw [(own x).mp hx] at held
    exact absurd ⟨r, hr, held⟩ (awaits.unresolved t List.mem_cons_self)
  · rw [place.predecessors]
    exact awaits.edges t List.mem_cons_self

theorem Awaits.add : Awaits node ids l' rest where
  own := awaits.tail.own
  numbered := awaits.tail.numbered
  unresolved x hx resolves := by
    rcases (replaces_nothing members).resolved resolves with held | resolves
    · have other := (List.pairwise_cons.mp awaits.distinct).1 x hx
      exact other ((awaits.mem_mergeOf place _).mp held).symm
    · exact awaits.tail.unresolved x hx resolves
  edges x hx p hp := (replaces_nothing members).resolves (awaits.tail.edges x hx p hp)
  distinct := awaits.tail.distinct

/-- The edges to all other states were there before. -/
theorem Awaits.unused (linked : Linked node ids l) {r : S} (hr : r ∈ l' ∨ r ∈ rest) {p : NodeId}
    (hp : p ∈ (node r).predecessors) : p ∉ (node s).mergeOf := by
  intro held
  have resolves : Resolves node l p := by
    rcases hr with hr | hr
    · rcases (members r).mp hr with rfl | hr
      · exact awaits.edges t List.mem_cons_self p (place.predecessors ▸ hp)
      · exact linked.edges r hr p hp
    · exact awaits.tail.edges r hr p hp
  rw [(awaits.mem_mergeOf place p).mp held] at resolves
  exact awaits.unresolved t List.mem_cons_self resolves

theorem Unused.report (linked : Linked node ids l) (unused : Unused node targets l (t :: rest)) :
    Unused node (targets ++ [s]) l' rest := by
  have kept := unused.add place members
  have new : s ∉ targets := by
    -- it would stand for its number already
    intro hs
    have old := unused.members s hs
    have held := linked.own s old
    rw [place.id] at held
    exact awaits.unresolved t List.mem_cons_self ⟨s, old, held⟩
  refine ⟨fun x hx => ?_, ?_, fun x hx r hr p hp => ?_⟩
  · rcases List.mem_append.mp hx with hx | hx
    · exact kept.members x hx
    · exact (members x).mpr (.inl (List.mem_singleton.mp hx))
  · apply List.nodup_append.mpr
    refine ⟨unused.distinct, by simp, fun a ha b hb => ?_⟩
    rw [List.mem_singleton.mp hb]
    rintro rfl
    exact new ha
  · rcases List.mem_append.mp hx with hx | hx
    · exact kept.unused x hx r hr p hp
    · rw [List.mem_singleton.mp hx]
      exact awaits.unused place members linked hr hp

end Add

theorem Unused.drop (unused : Unused node (t :: rest) l [])
    (members : ∀ x, x ∈ l' ↔ x ∈ l ∧ x ≠ t) : Unused node rest l' [] where
  members x hx := by
    refine (members x).mpr ⟨unused.members x (List.mem_cons_of_mem t hx), ?_⟩
    rintro rfl
    exact (List.nodup_cons.mp unused.distinct).1 hx
  distinct := (List.nodup_cons.mp unused.distinct).2
  unused x hx r hr p hp := by
    have old := hr.resolve_right List.not_mem_nil
    exact unused.unused x (List.mem_cons_of_mem t hx) r (.inl ((members r).mp old).1) p hp

theorem Linked.exchange (linked : Linked node ids l) (member : t ∈ l)
    (place : (node s).SamePlace (node t)) (members : ∀ x, x ∈ l' ↔ x = s ∨ x ∈ l ∧ x ≠ t) :
    Linked node ids l' := by
  have replaces : Replaces node l [t] s l' := by
    refine ⟨fun x => by simp [members x], fun r hr x hx => ?_⟩
    rw [List.mem_singleton.mp hr] at hx
    rwa [place.mergeOf]
  apply linked.replace replaces
  · have numbered := linked.numbered t member
    unfold Numbered
    rwa [place.id, place.mergeOf]
  · rw [place.id, place.mergeOf]
    exact linked.own t member
  · intro r hr x held hx
    rw [place.mergeOf] at hx
    exact List.mem_singleton.mpr (linked.apart r hr t member x held hx)
  · rw [place.predecessors]
    exact linked.edges t member

section Gathers

variable {base : Ids} {parts parts' : List S}

theorem Gathers.self (numbered : (node s).Numbered base) (own : (node s).id ∈ (node s).mergeOf) :
    Gathers node base base [s] s where
  later := Ids.le_refl base
  numbered := numbered
  own := own
  holds _ hr _ hx := List.mem_singleton.mp hr ▸ hx
  only _ hx := .inr ⟨s, List.mem_singleton.mpr rfl, hx⟩
  edges _ hp := ⟨s, List.mem_singleton.mpr rfl, hp⟩

theorem Gathers.unite (gathers : Gathers node base ids parts s) (numbered : (node t).Numbered base)
    (members : ∀ x, x ∈ parts' ↔ x = t ∨ x ∈ parts)
    (unites : Unites ids after (node s) (node t) (node m)) (later : ids ≤ after) :
    Gathers node base after parts' m where
  later := Ids.le_trans gathers.later later
  numbered := unites.numbered (gathers.numbered.grows later)
    (numbered.grows (Ids.le_trans gathers.later later))
  own := (unites.members _).mpr (.inl rfl)
  holds r hr x hx := by
    rcases (members r).mp hr with rfl | hr
    · exact (unites.members x).mpr (.inr (.inr hx))
    · exact (unites.members x).mpr (.inr (.inl (gathers.holds r hr x hx)))
  only x hx := by
    rcases (unites.members x).mp hx with rfl | hx | hx
    · exact .inl (Nat.le_trans gathers.later.2 unites.drawn.1)
    · rcases gathers.only x hx with new | ⟨r, hr, held⟩
      · exact .inl new
      · exact .inr ⟨r, (members r).mpr (.inr hr), held⟩
    · exact .inr ⟨t, (members t).mpr (.inl rfl), hx⟩
  edges p hp := by
    rcases unites.edges p hp with hp | hp
    · obtain ⟨r, hr, held⟩ := gathers.edges p hp
      exact ⟨r, (members r).mpr (.inr hr), held⟩
    · exact ⟨t, (members t).mpr (.inl rfl), hp⟩

variable (gathers : Gathers node ids after gone m) (inside : ∀ s ∈ gone, s ∈ l)
  (members : ∀ x, x ∈ l' ↔ x = m ∨ x ∈ l ∧ x ∉ gone)
include gathers members

theorem Gathers.replaces : Replaces node l gone m l' := ⟨members, gathers.holds⟩

include inside

theorem Gathers.linked (linked : Linked node ids l) : Linked node after l' := by
  have later := linked.later gathers.later
  apply later.replace (gathers.replaces members) gathers.numbered gathers.own
  · -- what the merged state stands for is new, or one of the parts stood for it
    intro s hs x held hx
    rcases gathers.only x hx with new | ⟨r, hr, held'⟩
    · exact absurd ((linked.numbered s hs).2 x held) (Nat.not_lt_of_le new)
    · rw [linked.apart s hs r (inside r hr) x held held']
      exact hr
  · intro p hp
    obtain ⟨r, hr, held⟩ := gathers.edges p hp
    exact linked.edges r (inside r hr) p held

theorem Gathers.resolved {x : NodeId} (old : x < ids.nodes) (resolves : Resolves node l' x) :
    Resolves node l x := by
  rcases (gathers.replaces members).resolved resolves with held | resolves
  · rcases gathers.only x held with new | ⟨r, hr, held⟩
    · exact absurd old (Nat.not_lt_of_le new)
    · exact ⟨r, inside r hr, held⟩
  · exact resolves

end Gathers
end Node
end ActorAnalysis
