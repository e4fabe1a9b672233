import ActorAnalysis.Error

namespace ActorAnalysis

abbrev ThreadId := Nat
abbrev NodeId := Nat

structure Ids where
  threads : ThreadId
  nodes : NodeId
deriving DecidableEq

namespace Ids

def start : Ids := ⟨0, 0⟩

instance : LE Ids := ⟨fun a b => a.threads ≤ b.threads ∧ a.nodes ≤ b.nodes⟩

theorem le_refl (a : Ids) : a ≤ a := ⟨Nat.le_refl _, Nat.le_refl _⟩

theorem le_trans {a b c : Ids} (hab : a ≤ b) (hbc : b ≤ c) : a ≤ c :=
  ⟨Nat.le_trans hab.1 hbc.1, Nat.le_trans hab.2 hbc.2⟩

end Ids

/-- A computation that may draw fresh numbers and may fail. Numbers are never given back, also
not by a failure. -/
structure Alloc (α : Type) where
  run : Ids → Except Error α × Ids
  grows : ∀ ids, ids ≤ (run ids).2

namespace Alloc

variable {α β : Type}

def next (f : α → Alloc β) : Except Error α × Ids → Except Error β × Ids
  | (.ok a, ids) => (f a).run ids
  | (.error e, ids) => (.error e, ids)

theorem next_grows (f : α → Alloc β) (r : Except Error α × Ids) : r.2 ≤ (next f r).2 := by
  cases r with | mk result ids =>
  cases result with
  | ok a => exact (f a).grows ids
  | error e => exact Ids.le_refl ids

instance : Monad Alloc where
  pure a := ⟨fun ids => (.ok a, ids), Ids.le_refl⟩
  bind x f := ⟨fun ids => next f (x.run ids),
    fun ids => Ids.le_trans (x.grows ids) (next_grows f (x.run ids))⟩

def ofExcept (r : Except Error α) : Alloc α := ⟨fun ids => (r, ids), Ids.le_refl⟩

instance : MonadLift (Except Error) Alloc := ⟨ofExcept⟩

def fail (e : Error) : Alloc α := ofExcept (.error e)

def freshThread : Alloc ThreadId :=
  ⟨fun ids => (.ok ids.threads, { ids with threads := ids.threads + 1 }),
    fun _ => ⟨Nat.le_succ _, Nat.le_refl _⟩⟩

def freshNode : Alloc NodeId :=
  ⟨fun ids => (.ok ids.nodes, { ids with nodes := ids.nodes + 1 }),
    fun _ => ⟨Nat.le_refl _, Nat.le_succ _⟩⟩

@[simp] theorem run_pure (a : α) (ids : Ids) : (pure a : Alloc α).run ids = (.ok a, ids) := rfl

@[simp] theorem run_bind (x : Alloc α) (f : α → Alloc β) (ids : Ids) :
    (x >>= f).run ids = next f (x.run ids) := rfl

@[simp] theorem run_ofExcept (r : Except Error α) (ids : Ids) :
    (ofExcept r).run ids = (r, ids) := rfl

@[simp] theorem run_liftM (r : Except Error α) (ids : Ids) :
    (liftM r : Alloc α).run ids = (r, ids) := rfl

@[simp] theorem next_ok (f : α → Alloc β) (a : α) (ids : Ids) :
    next f (.ok a, ids) = (f a).run ids := rfl

@[simp] theorem next_error (f : α → Alloc β) (e : Error) (ids : Ids) :
    next f (.error e, ids) = (.error e, ids) := rfl

theorem ext {x y : Alloc α} (same : ∀ ids, x.run ids = y.run ids) : x = y := by
  cases x with | mk run grows =>
  cases y with | mk run' grows' =>
  have h : run = run' := funext same
  subst h
  rfl

instance : LawfulMonad Alloc := LawfulMonad.mk' Alloc
  (fun x => ext fun ids => by
    change next (fun a => pure a) (x.run ids) = x.run ids
    cases x.run ids with | mk result ids => cases result <;> rfl)
  (fun _ _ => rfl)
  (fun x f g => ext fun ids => by
    simp only [run_bind]
    cases x.run ids with | mk result ids => cases result <;> rfl)

end Alloc
end ActorAnalysis
