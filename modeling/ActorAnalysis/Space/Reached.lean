import ActorAnalysis.Analysis
import Std.Data.HashMap

/-! The reached set: every state discovered so far, in the order of discovery, with the keys that
it was stored under. States lie in numbered slots; one table finds the slot of a state, another
the slots under a key. A removed state leaves a vacant slot, and vacant slots are dropped once
they prevail. -/
namespace ActorAnalysis

structure Reached.Entry (S : Type) where
  state : S
  keys : SortedSet PartitionKey

structure Reached (S : Type) [BEq S] [Hashable S] where
  slots : Array (Option (Reached.Entry S))
  index : Std.HashMap S Nat
  partitions : Std.HashMap PartitionKey (SortedSet Nat)

namespace Reached

variable {S : Type} [BEq S] [Hashable S]

def empty : Reached S := ⟨#[], ∅, ∅⟩

instance : EmptyCollection (Reached S) := ⟨empty⟩

def contains (r : Reached S) (s : S) : Bool := r.index.contains s

def size (r : Reached S) : Nat := r.index.size

def isEmpty (r : Reached S) : Bool := r.index.isEmpty

def entries (r : Reached S) : List (Entry S) := r.slots.toList.filterMap id

def toList (r : Reached S) : List S := r.entries.map Entry.state

def entryAt? (r : Reached S) (slot : Nat) : Option (Entry S) := r.slots[slot]?.join

def keysOf? (r : Reached S) (s : S) : Option (SortedSet PartitionKey) :=
  r.index[s]?.bind (fun slot => (r.entryAt? slot).map Entry.keys)

def attach (slot : Nat) (partitions : Std.HashMap PartitionKey (SortedSet Nat))
    (key : PartitionKey) : Std.HashMap PartitionKey (SortedSet Nat) :=
  partitions.insert key ((partitions.getD key ∅).insert slot)

/-- Takes a slot off a key, and the key off the table with its last slot. -/
def detach (slot : Nat) (partitions : Std.HashMap PartitionKey (SortedSet Nat))
    (key : PartitionKey) : Std.HashMap PartitionKey (SortedSet Nat) :=
  match partitions[key]? with
  | none => partitions
  | some slots =>
    let rest := slots.erase slot
    if rest.isEmpty then partitions.erase key else partitions.insert key rest

def insert (r : Reached S) (s : S) (keys : SortedSet PartitionKey) : Bool × Reached S :=
  if r.contains s then (false, r)
  else
    let slot := r.slots.size
    (true, {
      slots := r.slots.push (some ⟨s, keys⟩)
      index := r.index.insert s slot
      partitions := keys.toList.foldl (attach slot) r.partitions })

def compact (r : Reached S) : Reached S :=
  r.entries.foldl (fun c e => (c.insert e.state e.keys).2) empty

def vacant (r : Reached S) : Nat := r.slots.size - r.index.size

def toleratedVacancy : Nat := 64

def remove (r : Reached S) (s : S) : Bool × Reached S :=
  match r.index[s]? with
  | none => (false, r)
  | some slot =>
    let keys := match r.entryAt? slot with
      | some e => e.keys.toList
      | none => []
    let rest : Reached S := {
      slots := r.slots.setIfInBounds slot none
      index := r.index.erase s
      partitions := keys.foldl (detach slot) r.partitions }
    (true, if rest.vacant > toleratedVacancy ∧ rest.vacant > rest.size then rest.compact else rest)

def slotsUnder (r : Reached S) (keys : SortedSet PartitionKey) : SortedSet Nat :=
  keys.toList.foldl (fun slots key => slots.union (r.partitions.getD key ∅)) ∅

/-- The states under one of `keys`, in the order of their insertion; all states if there is no
key. -/
def partitionOf (r : Reached S) (keys : SortedSet PartitionKey) : List S :=
  if keys.isEmpty then r.toList
  else (r.slotsUnder keys).toList.filterMap (fun slot => (r.entryAt? slot).map Entry.state)

end Reached
end ActorAnalysis
