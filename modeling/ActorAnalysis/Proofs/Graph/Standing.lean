import ActorAnalysis.Proofs.Graph.Session
import ActorAnalysis.Proofs.Run.Chronicle
import Mathlib.Data.List.Nodup

/-! What a merge set promises. A reached state stands for every number in its merge set: all states
that an exploration has ever made with such a number are below it. So a state whose number is found
there need not be looked at again. -/
namespace ActorAnalysis

namespace Node

variable {S W : Type} (node : S → Node W) (below : S → S → Prop)

/-- Of all states made so far, those whose number a reached or pending state stands for are below
that state. Nobody else stands for the number of a pending state. -/
structure Standing (ids : Ids) (made reached pending : List S) : Prop where
  numbered : ∀ g ∈ made, (node g).Numbered ids
  own : ∀ g ∈ made, (node g).id ∈ (node g).mergeOf
  inside : ∀ r ∈ reached, r ∈ made
  known : ∀ t ∈ pending, t ∈ made
  unresolved : ∀ t ∈ pending, ¬ Resolves node reached (node t).id
  apart : pending.Pairwise fun s t =>
    (node s).id ∉ (node t).mergeOf ∧ (node t).id ∉ (node s).mergeOf
  above : ∀ g ∈ made, ∀ r, r ∈ reached ∨ r ∈ pending → (node g).id ∈ (node r).mergeOf → below g r

namespace Standing

variable {node below} {ids after : Ids} {made reached reached' pending rest new : List S}
  {s t m : S}

theorem nothing (ids : Ids) : Standing node below ids [] [] [] :=
  ⟨by simp, by simp, by simp, by simp, by simp, .nil, by simp⟩

theorem tail (standing : Standing node below ids made reached (t :: rest)) :
    Standing node below ids made reached rest where
  numbered := standing.numbered
  own := standing.own
  inside := standing.inside
  known x hx := standing.known x (List.mem_cons_of_mem t hx)
  unresolved x hx := standing.unresolved x (List.mem_cons_of_mem t hx)
  apart := standing.apart.of_cons
  above g hg r hr := standing.above g hg r (hr.imp_right (List.mem_cons_of_mem t))

theorem untreated (standing : Standing node below ids made reached pending) :
    Standing node below ids made reached [] := by
  induction pending with
  | nil => exact standing
  | cons t rest ih => exact ih standing.tail

theorem subset (standing : Standing node below ids made reached pending)
    (old : ∀ r ∈ reached', r ∈ reached) : Standing node below ids made reached' pending where
  numbered := standing.numbered
  own := standing.own
  inside r hr := standing.inside r (old r hr)
  known := standing.known
  unresolved t ht := fun ⟨r, hr, held⟩ => standing.unresolved t ht ⟨r, old r hr, held⟩
  apart := standing.apart
  above g hg r hr := standing.above g hg r (hr.imp_left (old r))

/-- A state that stands only for what is below it may be reached, and others may leave. -/
theorem put (standing : Standing node below ids made reached pending) (old : m ∈ made)
    (members : ∀ x ∈ reached', x = m ∨ x ∈ reached)
    (free : ∀ t ∈ pending, (node t).id ∉ (node m).mergeOf)
    (above : ∀ g ∈ made, (node g).id ∈ (node m).mergeOf → below g m) :
    Standing node below ids made reached' pending where
  numbered := standing.numbered
  own := standing.own
  inside r hr := by
    rcases members r hr with rfl | hr
    · exact old
    · exact standing.inside r hr
  known := standing.known
  unresolved t ht := by
    rintro ⟨r, hr, held⟩
    rcases members r hr with rfl | hr
    · exact free t ht held
    · exact standing.unresolved t ht ⟨r, hr, held⟩
  apart := standing.apart
  above g hg r hr held := by
    rcases hr with hr | hr
    · rcases members r hr with rfl | hr
      · exact above g hg held
      · exact standing.above g hg r (.inl hr) held
    · exact standing.above g hg r (.inr hr) held

theorem add (standing : Standing node below ids made reached (s :: rest))
    (members : ∀ x ∈ reached', x = s ∨ x ∈ reached) :
    Standing node below ids made reached' rest := by
  apply standing.tail.put (standing.known s List.mem_cons_self) members
  · intro t ht
    exact ((List.pairwise_cons.mp standing.apart).1 t ht).2
  · intro g hg held
    exact standing.above g hg s (.inr List.mem_cons_self) held

theorem extend (standing : Standing node below ids made reached pending) (later : ids ≤ after)
    (drawn : ∀ g ∈ new, ids.nodes ≤ (node g).id)
    (fresh : ∀ g ∈ new, (node g).Numbered after ∧ (node g).id ∈ (node g).mergeOf) :
    Standing node below after (made ++ new) reached pending where
  numbered g hg := by
    rcases List.mem_append.mp hg with hg | hg
    · exact (standing.numbered g hg).grows later
    · exact (fresh g hg).1
  own g hg := by
    rcases List.mem_append.mp hg with hg | hg
    · exact standing.own g hg
    · exact (fresh g hg).2
  inside r hr := List.mem_append_left new (standing.inside r hr)
  known t ht := List.mem_append_left new (standing.known t ht)
  unresolved := standing.unresolved
  apart := standing.apart
  above g hg r hr held := by
    rcases List.mem_append.mp hg with hg | hg
    · exact standing.above g hg r hr held
    · have known : r ∈ made := hr.elim (standing.inside r) (standing.known r)
      exact absurd ((standing.numbered r known).2 _ held) (Nat.not_lt_of_le (drawn g hg))

theorem later (standing : Standing node below ids made reached pending) (later : ids ≤ after) :
    Standing node below after made reached pending := by
  have extended : Standing node below after (made ++ []) reached pending :=
    standing.extend later (by simp) (by simp)
  rwa [List.append_nil] at extended

theorem born {predecessors : SortedSet NodeId} (refl : ∀ s, below s s)
    (standing : Standing node below ids made reached pending) (later : ids ≤ after)
    (born : Born ids after predecessors (new.map node)) :
    Standing node below after (made ++ new) reached new := by
  have drawn (t : S) (ht : t ∈ new) := born.drawn (node t) (List.mem_map_of_mem ht)
  have own (t : S) (ht : t ∈ new) := born.own (node t) (List.mem_map_of_mem ht)
  have distinct : new.Pairwise fun s t => (node s).id < (node t).id := by
    have ascending := born.ascending
    rwa [List.pairwise_map] at ascending
  have numbers : (new.map fun t => (node t).id).Nodup :=
    List.pairwise_map.mpr (distinct.imp Nat.ne_of_lt)
  have extended : Standing node below after (made ++ new) reached [] := by
    apply standing.untreated.extend later (fun t ht => (drawn t ht).1)
    intro t ht
    exact ⟨born.numbered (List.mem_map_of_mem ht), (own t ht _).mpr rfl⟩
  constructor
  case numbered => exact extended.numbered
  case own => exact extended.own
  case inside => exact extended.inside
  case known => exact fun t ht => List.mem_append_right made ht
  case unresolved =>
    rintro t ht ⟨r, hr, held⟩
    have old := (standing.numbered r (standing.inside r hr)).2 _ held
    exact absurd old (Nat.not_lt_of_le (drawn t ht).1)
  case apart =>
    refine distinct.imp_of_mem fun {s t} hs ht before => ?_
    rw [own s hs, own t ht]
    exact ⟨Nat.ne_of_lt before, Nat.ne_of_gt before⟩
  case above =>
    intro g hg r hr held
    rcases hr with hr | hr
    · exact extended.above g hg r (.inl hr) held
    · have same := (own r hr _).mp held
      rcases List.mem_append.mp hg with hg | hg
      · have old := (standing.numbered g hg).1
        rw [same] at old
        exact absurd old (Nat.not_lt_of_le (drawn r hr).1)
      · -- the numbers ascend, so they tell newborn states apart
        have equal : g = r := List.inj_on_of_nodup_map numbers hg hr same
        exact equal ▸ refl g

theorem widen (refl : ∀ s, below s s) (trans : ∀ {s t u}, below s t → below t u → below s u)
    (standing : Standing node below ids made reached (t :: rest))
    (place : (node s).SamePlace (node t)) (higher : below t s) :
    Standing node below ids (made ++ [s]) reached (s :: rest) := by
  have known := standing.known t List.mem_cons_self
  obtain ⟨others, apart⟩ := List.pairwise_cons.mp standing.apart
  obtain ⟨id, -, mergeOf⟩ := place
  constructor
  case numbered =>
    intro g hg
    rcases List.mem_append.mp hg with hg | hg
    · exact standing.numbered g hg
    · rw [List.mem_singleton.mp hg, Numbered, id, mergeOf]
      exact standing.numbered t known
  case own =>
    intro g hg
    rcases List.mem_append.mp hg with hg | hg
    · exact standing.own g hg
    · rw [List.mem_singleton.mp hg, id, mergeOf]
      exact standing.own t known
  case inside => exact fun r hr => List.mem_append_left [s] (standing.inside r hr)
  case known =>
    intro x hx
    rcases List.mem_cons.mp hx with rfl | hx
    · exact List.mem_append_right made List.mem_cons_self
    · exact List.mem_append_left [s] (standing.known x (List.mem_cons_of_mem t hx))
  case unresolved =>
    intro x hx
    rcases List.mem_cons.mp hx with rfl | hx
    · exact id ▸ standing.unresolved t List.mem_cons_self
    · exact standing.unresolved x (List.mem_cons_of_mem t hx)
  case apart =>
    refine List.pairwise_cons.mpr ⟨fun x hx => ?_, apart⟩
    rw [id, mergeOf]
    exact others x hx
  case above =>
    intro g hg r hr held
    rcases List.mem_append.mp hg with old | new
    · rcases hr with hr | hr
      · exact standing.above g old r (.inl hr) held
      · rcases List.mem_cons.mp hr with rfl | hr
        · rw [mergeOf] at held
          exact trans (standing.above g old t (.inr List.mem_cons_self) held) higher
        · exact standing.above g old r (.inr (List.mem_cons_of_mem t hr)) held
    · -- only the state itself stands for its number
      obtain rfl := List.mem_singleton.mp new
      rw [id] at held
      rcases hr with hr | hr
      · exact absurd ⟨r, hr, held⟩ (standing.unresolved t List.mem_cons_self)
      · rcases List.mem_cons.mp hr with rfl | hr
        · exact refl r
        · exact absurd held (others r hr).1

end Standing
end Node

namespace Analysis

variable {S W : Type} {A : Analysis S} {node : S → Node W} {below : S → S → Prop}

theorem Numbers.merges (numbers : A.Numbers node) {state : S} {l : List S} {ids after : Ids}
    {r : Except Error (S × List S)} (start : (node state).Numbered ids)
    (numbered : ∀ s ∈ l, (node s).Numbered ids) (ran : (A.absorb state l).run ids = (r, after)) :
    ∀ g ∈ A.merges state l ids, ids.nodes ≤ (node g).id ∧ (node g).Numbered after ∧
      (node g).id ∈ (node g).mergeOf := by
  induction l generalizing state ids r with
  | nil => exact fun g hg => absurd hg List.not_mem_nil
  | cons x rest ih =>
    have others (s : S) (hs : s ∈ rest) := numbered s (List.mem_cons_of_mem x hs)
    rcases absorb_cons ran with ⟨ran, same⟩ | ⟨e, -, none⟩ | ⟨m, mid, last, -, merged, ran, -, new⟩
    · rw [same]
      exact ih start others ran
    · rw [none]
      exact fun g hg => absurd hg List.not_mem_nil
    · have later : ids ≤ mid := Alloc.le_of_run merged
      have unites := numbers.merge merged
      have drawn : (node m).Numbered mid := unites.numbered (start.grows later)
        ((numbered x List.mem_cons_self).grows later)
      rw [new]
      intro g hg
      rcases List.mem_cons.mp hg with rfl | hg
      · exact ⟨unites.drawn.1, drawn.grows (Alloc.le_of_run ran),
          (unites.members _).mpr (.inl rfl)⟩
      · obtain ⟨first, rest⟩ := ih drawn (fun s hs => (others s hs).grows later) ran g hg
        exact ⟨Nat.le_trans later.2 first, rest⟩

section Merge

variable {state final : S} {l absorbed made reached reached' pending : List S} {ids after : Ids}
  {r : Except Error (S × List S)} (numbers : A.Numbers node)
  (standing : Node.Standing node below ids made reached pending) (member : state ∈ reached)
  (inside : ∀ r ∈ l, r ∈ reached)
include numbers standing member inside

theorem Numbers.standing_absorbed (ran : (A.absorb state l).run ids = (r, after)) :
    Node.Standing node below after (made ++ A.merges state l ids) reached pending := by
  have numbered (r : S) (hr : r ∈ reached) := standing.numbered r (standing.inside r hr)
  have merges := numbers.merges (numbered state member) (fun r hr => numbered r (inside r hr)) ran
  exact standing.extend (Alloc.le_of_run ran) (fun g hg => (merges g hg).1)
    fun g hg => (merges g hg).2

/-- The state that replaces others inherits what they stand for, and is above all of them. -/
theorem Numbers.standing_replaced (orders : A.Orders below)
    (ran : (A.absorb state l).run ids = (.ok (final, absorbed), after))
    (members : ∀ x ∈ reached', x = final ∨ x ∈ reached) :
    Node.Standing node below after (made ++ A.merges state l ids) reached' pending := by
  have numbered (r : S) (hr : r ∈ reached) := standing.numbered r (standing.inside r hr)
  obtain ⟨gathers, some⟩ := numbers.absorb (fun r hr => numbered r (inside r hr))
    (numbered state member) (standing.own state (standing.inside state member)) ran
  obtain ⟨first, others⟩ := orders.absorb ran
  have part : ∀ s ∈ absorbed ++ [state], s ∈ reached ∧ below s final := by
    intro s hs
    rcases List.mem_append.mp hs with hs | hs
    · exact ⟨inside s (some s hs), others s hs⟩
    · exact List.mem_singleton.mp hs ▸ ⟨member, first⟩
  -- a number from before comes from one of the replaced states
  have inherited {x : NodeId} (old : x < ids.nodes) (held : x ∈ (node final).mergeOf) :
      ∃ s ∈ absorbed ++ [state], x ∈ (node s).mergeOf :=
    (gathers.only x held).resolve_left (Nat.not_le_of_lt old)
  have made_final : final ∈ made ++ A.merges state l ids := by
    rcases eq_or_mem_merges ran with rfl | new
    · exact List.mem_append_left _ (standing.inside _ member)
    · exact List.mem_append_right made new
  apply (numbers.standing_absorbed standing member inside ran).put made_final members
  · intro t ht held
    obtain ⟨s, hs, held⟩ := inherited (standing.numbered t (standing.known t ht)).1 held
    exact standing.unresolved t ht ⟨s, (part s hs).1, held⟩
  · intro g hg held
    rcases List.mem_append.mp hg with old | new
    · obtain ⟨s, hs, held⟩ := inherited (standing.numbered g old).1 held
      obtain ⟨known, higher⟩ := part s hs
      exact orders.trans (standing.above g old s (.inl known) held) higher
    · exact orders.merges ran g new

end Merge

section Chronicle

variable [DecidableEq S] [Hashable S] {program : Program} {made pending rest : List S}
  {space : Space S} (numbers : A.Numbers node) (orders : A.Orders below)
include numbers orders

omit [DecidableEq S] [Hashable S] in
theorem Widens.standing (widens : ∀ {s t}, A.widen s = .ok t → below s t) {config : RunConfig}
    {t s : S} {ids : Ids} {reached : List S}
    (standing : Node.Standing node below ids made reached (t :: rest))
    (wide : A.Widens config t s) :
    Node.Standing node below ids (made ++ [s]) reached (s :: rest) := by
  rcases wide.cases with rfl | wide
  · exact standing.widen orders.refl orders.trans (.refl (node s)) (orders.refl s)
  · exact standing.widen orders.refl orders.trans (numbers.widen wide) (widens wide)

theorem seed_standing {out : List S} {ids after : Ids}
    (ran : (A.initial program).run ids = (.ok out, after)) :
    Node.Standing node below ((A.seed program).on ⟨ids, ∅, ∅⟩).2.ids out
      ((A.seed program).on ⟨ids, ∅, ∅⟩).2.reached.toList [] := by
  have start := (Node.Standing.nothing ids).born orders.refl (Alloc.le_of_run ran)
    (numbers.initial ran)
  rw [List.nil_append, ← Reached.toList_empty] at start
  have seeded : Explore.Contract (fun space => space = ⟨ids, ∅, ∅⟩) (A.seed program)
      (fun _ space => ∃ _ : List S, space.Valid ∧
        Node.Standing node below space.ids out space.reached.toList [])
      (fun _ => False) := by
    apply seed_contract (fun _ pending space => space.Valid ∧
      Node.Standing node below space.ids out space.reached.toList pending)
    · intro e ids failed
      cases ran.symm.trans failed
    · intro out' ids' ran'
      cases ran.symm.trans ran'
      exact ⟨Space.valid_empty _, start⟩
    · rintro - s rest before ⟨valid, standing⟩
      split
      · exact ⟨valid, standing.tail⟩
      · exact ⟨valid.add s _, standing.add fun x hx => (Space.mem_reached_add valid s x _).mp hx⟩
  obtain ⟨count, last, done⟩ := seeded.succeeds rfl
  rw [done]
  exact (seeded.ok rfl done).choose_spec.2

/-- At every point of an exploration, the reached states stand for what is below them. -/
theorem Chronicle.standing (widens : ∀ {s t}, A.widen s = .ok t → below s t)
    (point : A.Chronicle program made pending space) :
    Node.Standing node below space.ids made space.reached.toList pending := by
  induction point with
  | seeded ran => exact seed_standing numbers orders ran
  | failed _ taken ran standing =>
    rw [← taken.ids, ← taken.reached] at standing
    exact standing.untreated.later (Alloc.le_of_run ran)
  | expanded _ taken ran standing =>
    rw [← taken.ids, ← taken.reached] at standing
    exact standing.born orders.refl (Alloc.le_of_run ran) (numbers.succ ran)
  | widened _ _ wide standing => exact (wide.standing numbers orders widens standing).tail
  | added _ point wide _ standing =>
    apply (wide.standing numbers orders widens standing).add
    exact fun x hx => (Space.mem_reached_add point.valid _ x _).mp hx
  | absorbed _ member ran standing =>
    exact numbers.standing_absorbed standing member (fun _ => mem_reached_of_mem_candidates) ran
  | dropped s point standing =>
    exact standing.subset fun r hr => ((Space.mem_reached_drop point.valid s r).mp hr).1
  | @replaced _ _ space s merged absorbed ids point member ran standing =>
    have valid : (space.withIds ids).Valid := point.valid
    rw [ids_replaced A s merged absorbed valid]
    apply numbers.standing_replaced standing member (fun _ => mem_reached_of_mem_candidates) orders
      ran
    intro x hx
    exact ((A.mem_reached_replaced s merged absorbed valid x).mp hx).imp_right And.left

end Chronicle

end Analysis
end ActorAnalysis
