import ActorAnalysis.Proofs.Space.Members
import ActorAnalysis.Space.Merge

namespace ActorAnalysis

variable {S : Type} [DecidableEq S] [Hashable S]

namespace Space

def Valid (space : Space S) : Prop := space.frontier.Valid ∧ space.reached.Valid

def add (space : Space S) (s : S) (keys : SortedSet PartitionKey) : Space S where
  ids := space.ids
  frontier := (space.frontier.push s).2
  reached := (space.reached.insert s keys).2

def drop (space : Space S) (s : S) : Space S where
  ids := space.ids
  frontier := (space.frontier.remove s).2
  reached := (space.reached.remove s).2

def withIds (space : Space S) (ids : Ids) : Space S := { space with ids := ids }

@[simp] theorem ids_add (space : Space S) (s : S) (keys : SortedSet PartitionKey) :
    (space.add s keys).ids = space.ids := rfl

@[simp] theorem ids_withIds (space : Space S) (ids : Ids) : (space.withIds ids).ids = ids := rfl

@[simp] theorem frontier_withIds (space : Space S) (ids : Ids) :
    (space.withIds ids).frontier = space.frontier := rfl

@[simp] theorem reached_withIds (space : Space S) (ids : Ids) :
    (space.withIds ids).reached = space.reached := rfl

@[simp] theorem valid_withIds {space : Space S} {ids : Ids} :
    (space.withIds ids).Valid ↔ space.Valid := Iff.rfl

theorem valid_empty (ids : Ids) : (⟨ids, ∅, ∅⟩ : Space S).Valid :=
  ⟨Frontier.valid_empty, Reached.valid_empty⟩

theorem Valid.add {space : Space S} (valid : space.Valid) (s : S)
    (keys : SortedSet PartitionKey) : (space.add s keys).Valid :=
  ⟨Frontier.valid_push valid.1 s, Reached.valid_insert valid.2 s keys⟩

theorem Valid.drop {space : Space S} (valid : space.Valid) (s : S) : (space.drop s).Valid :=
  ⟨Frontier.valid_remove valid.1 s, (Reached.remove_spec valid.2 s).1⟩

section Members

variable {space : Space S} (valid : space.Valid) (s x : S) (keys : SortedSet PartitionKey)
include valid

theorem mem_frontier_add :
    x ∈ (space.add s keys).frontier.queue ↔ x = s ∨ x ∈ space.frontier.queue :=
  Frontier.mem_push valid.1 s x

theorem mem_reached_add :
    x ∈ (space.add s keys).reached.toList ↔ x = s ∨ x ∈ space.reached.toList :=
  Reached.mem_insert valid.2 s keys x

theorem mem_frontier_drop : x ∈ (space.drop s).frontier.queue ↔ x ∈ space.frontier.queue ∧ x ≠ s :=
  Frontier.mem_remove valid.1 s x

theorem mem_reached_drop : x ∈ (space.drop s).reached.toList ↔ x ∈ space.reached.toList ∧ x ≠ s :=
  (Reached.remove_spec valid.2 s).2 x

end Members

theorem dropAll_spec (l : List S) {space : Space S} (valid : space.Valid) :
    (l.foldl drop space).Valid ∧ (l.foldl drop space).ids = space.ids ∧
      (∀ x, x ∈ (l.foldl drop space).frontier.queue ↔ x ∈ space.frontier.queue ∧ x ∉ l) ∧
      ∀ x, x ∈ (l.foldl drop space).reached.toList ↔ x ∈ space.reached.toList ∧ x ∉ l := by
  induction l generalizing space with
  | nil => simp [valid]
  | cons s rest ih =>
    obtain ⟨keeps, ids, waiting, found⟩ := ih (valid.drop s)
    refine ⟨keeps, ids, fun x => ?_, fun x => ?_⟩
    · rw [List.foldl_cons, waiting, mem_frontier_drop valid, List.mem_cons, not_or, and_assoc]
    · rw [List.foldl_cons, found, mem_reached_drop valid, List.mem_cons, not_or, and_assoc]

end Space

namespace Explore

variable {α β : Type}

@[simp] theorem on_map (f : α → β) (x : Explore S α) (space : Space S) :
    (f <$> x).on space = ((x.on space).1.map f, (x.on space).2) := by
  rw [← bind_pure_comp, on_bind]
  cases x.on space with | mk result after =>
  cases result with
  | ok a => rfl
  | error e => rfl

@[simp] theorem on_frontier (space : Space S) :
    (frontier : Explore S (Frontier S)).on space = (.ok space.frontier, space) := rfl

theorem on_draw_ok {x : Alloc α} {space : Space S} {a : α} {ids : Ids}
    (done : x.run space.ids = (.ok a, ids)) :
    (draw x : Explore S α).on space = (.ok a, space.withIds ids) := by
  simp only [draw, done, Space.withIds]

theorem on_draw_error {x : Alloc α} {space : Space S} {e : Error} {ids : Ids}
    (failed : x.run space.ids = (.error e, ids)) :
    (draw x : Explore S α).on space = (.error e, space.withIds ids) := by
  simp only [draw, failed, Space.withIds]

theorem on_retract (s : S) (space : Space S) :
    (retract s).on space = (.ok (), space.drop s) := rfl

theorem on_forM_retract (l : List S) (space : Space S) :
    (l.forM retract).on space = (.ok (), l.foldl Space.drop space) := by
  induction l generalizing space with
  | nil => rfl
  | cons s rest ih =>
    show (retract s >>= fun _ => rest.forM retract).on space = _
    rw [on_bind, on_retract, next_ok]
    exact ih (space.drop s)

theorem on_addNew (s : S) (keys : SortedSet PartitionKey) (new old : α) (space : Space S) :
    (do
      if ← store s keys then
        let _ ← enqueue s
        return new
      else return old : Explore S α).on space =
      if space.reached.contains s then (.ok old, space) else (.ok new, space.add s keys) := by
  have first : (do
      if ← store s keys then
        let _ ← enqueue s
        return new
      else return old : Explore S α).on space =
      (if (space.reached.insert s keys).1 then (do
          let _ ← enqueue s
          return new)
        else pure old : Explore S α).on
        { space with reached := (space.reached.insert s keys).2 } := rfl
  rw [first]
  unfold Reached.insert Space.add Reached.insert
  by_cases known : space.reached.contains s = true
  · simp [known]
  · simp only [known]
    rfl

/-- From a space with `pre`, `x` gives a result with `post`, or fails in a space with `fault`. -/
def Contract (pre : Space S → Prop) (x : Explore S α) (post : α → Space S → Prop)
    (fault : Space S → Prop) : Prop :=
  ∀ space, pre space → match x.on space with
    | (.ok a, after) => post a after
    | (.error _, after) => fault after

namespace Contract

variable {pre : Space S → Prop} {x : Explore S α} {post : α → Space S → Prop}
  {fault : Space S → Prop}

theorem ok (keeps : Contract pre x post fault) {space after : Space S} {a : α} (h : pre space)
    (done : x.on space = (.ok a, after)) : post a after := by
  have result := keeps space h
  rwa [done] at result

theorem succeeds (keeps : Contract pre x post (fun _ => False)) {space : Space S} (h : pre space) :
    ∃ a after, x.on space = (.ok a, after) := by
  have result := keeps space h
  cases hx : x.on space with | mk r after =>
  rw [hx] at result
  cases r with
  | ok a => exact ⟨a, after, rfl⟩
  | error e => exact result.elim

theorem always {last : Space S → Prop} (keeps : Contract pre x (fun _ => last) last)
    {space : Space S} (h : pre space) : last (x.on space).2 := by
  have result := keeps space h
  cases hx : x.on space with | mk r after =>
  rw [hx] at result
  cases r with
  | ok => exact result
  | error => exact result

theorem weaken {post' : α → Space S → Prop} (keeps : Contract pre x post fault)
    (weaker : ∀ a space, post a space → post' a space) : Contract pre x post' fault := by
  intro space h
  have result := keeps space h
  cases hx : x.on space with | mk r after =>
  rw [hx] at result
  cases r with
  | ok a => exact weaker a after result
  | error e => exact result

theorem faultless (keeps : Contract pre x post (fun _ => False)) : Contract pre x post fault := by
  intro space h
  obtain ⟨a, after, done⟩ := keeps.succeeds h
  have result := keeps space h
  rw [done] at result ⊢
  exact result

theorem and {post' : α → Space S → Prop} {fault' : Space S → Prop}
    (first : Contract pre x post fault) (second : Contract pre x post' fault') :
    Contract pre x (fun a space => post a space ∧ post' a space) fault' := by
  intro space h
  have one := first space h
  have two := second space h
  cases hx : x.on space with | mk r after =>
  rw [hx] at one two
  cases r with
  | ok a => exact ⟨one, two⟩
  | error e => exact two

theorem bind {f : α → Explore S β} {last : β → Space S → Prop}
    (first : Contract pre x post fault) (then_ : ∀ a, Contract (post a) (f a) last fault) :
    Contract pre (x >>= f) last fault := by
  intro space h
  have result := first space h
  rw [on_bind]
  cases hx : x.on space with | mk r mid =>
  rw [hx] at result
  cases r with
  | ok a => exact then_ a mid result
  | error e => exact result

theorem foldlM {l : List β} {a : α} {f : α → β → Explore S α} (inv : List β → α → Space S → Prop)
    (step : ∀ a b rest, Contract (inv (b :: rest) a) (f a b) (inv rest) fault) :
    Contract (inv l a) (l.foldlM f a) (inv []) fault := by
  induction l generalizing a with
  | nil => exact fun _ h => h
  | cons b rest ih =>
    rw [List.foldlM_cons]
    exact (step a b rest).bind fun a => ih

end Contract
end Explore
end ActorAnalysis
