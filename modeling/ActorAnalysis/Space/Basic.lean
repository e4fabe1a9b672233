import ActorAnalysis.Space.Frontier
import ActorAnalysis.Space.Reached

namespace ActorAnalysis

structure Space (S : Type) [BEq S] [Hashable S] where
  ids : Ids
  frontier : Frontier S
  reached : Reached S

def Space.empty {S : Type} [BEq S] [Hashable S] : Space S := ⟨.start, ∅, ∅⟩

/-- A computation on a space that may fail. A failure leaves the space as it was at that point. -/
structure Explore (S : Type) [BEq S] [Hashable S] (α : Type) where
  on : Space S → Except Error α × Space S

namespace Explore

variable {S : Type} [BEq S] [Hashable S] {α β : Type}

def next (f : α → Explore S β) : Except Error α × Space S → Except Error β × Space S
  | (.ok a, space) => (f a).on space
  | (.error e, space) => (.error e, space)

instance : Monad (Explore S) where
  pure a := ⟨fun space => (.ok a, space)⟩
  bind x f := ⟨fun space => next f (x.on space)⟩

def draw (x : Alloc α) : Explore S α := ⟨fun space =>
  let drawn := x.run space.ids
  (drawn.1, { space with ids := drawn.2 })⟩

def ofExcept (r : Except Error α) : Explore S α := ⟨fun space => (r, space)⟩

def frontier : Explore S (Frontier S) := ⟨fun space => (.ok space.frontier, space)⟩

def reached : Explore S (Reached S) := ⟨fun space => (.ok space.reached, space)⟩

/-- Queues a state; false if it waits already. -/
def enqueue (s : S) : Explore S Bool := ⟨fun space =>
  let pushed := space.frontier.push s
  (.ok pushed.1, { space with frontier := pushed.2 })⟩

def dequeue (s : S) : Explore S Bool := ⟨fun space =>
  let removed := space.frontier.remove s
  (.ok removed.1, { space with frontier := removed.2 })⟩

/-- Stores a state under its keys; false if it is reached already. -/
def store (s : S) (keys : SortedSet PartitionKey) : Explore S Bool := ⟨fun space =>
  let inserted := space.reached.insert s keys
  (.ok inserted.1, { space with reached := inserted.2 })⟩

def forget (s : S) : Explore S Bool := ⟨fun space =>
  let removed := space.reached.remove s
  (.ok removed.1, { space with reached := removed.2 })⟩

def retract (s : S) : Explore S Unit := do
  let _ ← dequeue s
  let _ ← forget s

def pop (rule : Frontier S → Option (S × Frontier S)) : Explore S (Option S) := ⟨fun space =>
  match rule space.frontier with
  | none => (.ok none, space)
  | some (s, rest) => (.ok (some s), { space with frontier := rest })⟩

@[simp] theorem on_pure (a : α) (space : Space S) :
    (pure a : Explore S α).on space = (.ok a, space) := rfl

@[simp] theorem on_bind (x : Explore S α) (f : α → Explore S β) (space : Space S) :
    (x >>= f).on space = next f (x.on space) := rfl

@[simp] theorem next_ok (f : α → Explore S β) (a : α) (space : Space S) :
    next f (.ok a, space) = (f a).on space := rfl

@[simp] theorem next_error (f : α → Explore S β) (e : Error) (space : Space S) :
    next f (.error e, space) = (.error e, space) := rfl

instance : LawfulMonad (Explore S) := LawfulMonad.mk' (Explore S)
  (fun x => congrArg mk (funext fun space => by
    change next (fun a => pure a) (x.on space) = x.on space
    cases x.on space with | mk result space => cases result <;> rfl))
  (fun _ _ => rfl)
  (fun x f g => congrArg mk (funext fun space => by
    simp only [on_bind]
    cases x.on space with | mk result space => cases result <;> rfl))

end Explore
end ActorAnalysis
