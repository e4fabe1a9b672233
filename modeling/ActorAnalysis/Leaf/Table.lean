import ActorAnalysis.View

/-! Tabulated transition systems: states are numbers, and each operation is read off a table. They
drive the layers and the algorithms without a program. -/
namespace ActorAnalysis

inductive TableMerge where
  | larger
  | first
  /-- The two numbers side by side, at 32 bits. -/
  | pair
deriving DecidableEq

structure Table where
  initial : List Nat
  succ : SortedMap Nat (List Nat)
  targets : SortedMap Nat (SortedSet Property)
  keys : SortedMap Nat (SortedSet PartitionKey)
  order : SortedMap Nat (List Nat)
  widened : SortedMap Nat Nat
  /-- States that are equal modulo this number may be merged, unless it is zero. -/
  mergeMod : Nat
  /-- States that are no further apart than this may be merged. -/
  mergeWithin : Option Nat
  mergeOp : TableMerge
  stopGe : Bool
  policy : MergePolicy
  /-- The spurious states with their refinements; if there is no table, every violation is taken
  for genuine. -/
  spurious : Option (SortedMap Nat (Option Nat))
  /-- The operation that fails in a state. -/
  errors : SortedMap Nat String

namespace Table

structure State where
  number : Nat
deriving DecidableEq, Hashable

instance : HasView State := ⟨fun s => .data (toString s.number)⟩

def guard (t : Table) (operation : String) (s : State) : Except Error Unit :=
  if t.errors.get? s.number = some operation then .error (.refused operation s.number) else .ok ()

def merge (t : Table) (a b : State) : State :=
  match t.mergeOp with
  | .larger => ⟨max a.number b.number⟩
  | .first => a
  | .pair => ⟨(10 * a.number + b.number) % 4294967296⟩

def distance (a b : Nat) : Nat := max a b - min a b

def shouldMerge (t : Table) (a b : State) : Bool :=
  (decide (t.mergeMod ≠ 0) && decide (a.number % t.mergeMod = b.number % t.mergeMod)) ||
    t.mergeWithin.any (fun d => decide (distance a.number b.number ≤ d))

def refiner (t : Table) : Refiner State :=
  match t.spurious with
  | none => .trusting State
  | some spurious => {
      feasible := fun s => do
        t.guard "feasible" s
        return (spurious.get? s.number).isNone
      refine := fun s => do
        t.guard "refine" s
        return ((spurious.get? s.number).join.map State.mk) }

def analysis (t : Table) : Analysis State where
  initial _ := pure (t.initial.map State.mk)
  succ s := do
    t.guard "succ" s
    return ((t.succ.get? s.number).getD []).map State.mk
  join a b := do
    t.guard "join" a
    return ⟨max a.number b.number⟩
  shouldMerge := t.shouldMerge
  merge a b := pure (t.merge a b)
  stop s reached :=
    reached.any (fun r => decide (r = s) || (t.stopGe && decide (s.number < r.number)))
  widen s := do
    t.guard "widen" s
    return ⟨(t.widened.get? s.number).getD s.number⟩
  target s := (t.targets.get? s.number).getD ∅
  keys s := (t.keys.get? s.number).getD ∅
  orderKey s := (t.order.get? s.number).getD []
  label _ _ := []
  policy := t.policy
  refiner := t.refiner

end Table
end ActorAnalysis
