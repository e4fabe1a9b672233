import Std.Data.HashSet

namespace ActorAnalysis

structure Frontier (S : Type) [BEq S] [Hashable S] where
  queue : List S
  members : Std.HashSet S

namespace Frontier

variable {S : Type} [BEq S] [Hashable S]

def empty : Frontier S := ⟨[], ∅⟩

instance : EmptyCollection (Frontier S) := ⟨empty⟩

def contains (f : Frontier S) (s : S) : Bool := f.members.contains s

def isEmpty (f : Frontier S) : Bool := f.queue.isEmpty

def size (f : Frontier S) : Nat := f.queue.length

def push (f : Frontier S) (s : S) : Bool × Frontier S :=
  if f.contains s then (false, f) else (true, ⟨f.queue ++ [s], f.members.insert s⟩)

def popFront? (f : Frontier S) : Option (S × Frontier S) :=
  match f.queue with
  | [] => none
  | s :: rest => some (s, ⟨rest, f.members.erase s⟩)

def popBack? (f : Frontier S) : Option (S × Frontier S) :=
  f.queue.getLast?.map (fun s => (s, ⟨f.queue.dropLast, f.members.erase s⟩))

def remove (f : Frontier S) (s : S) : Bool × Frontier S :=
  if f.contains s then (true, ⟨f.queue.erase s, f.members.erase s⟩) else (false, f)

/-- The first state with the least key among `best` and the states behind it. -/
def leastFrom {K : Type} [LT K] [DecidableLT K] (key : S → K) (best : S) : List S → S
  | [] => best
  | s :: rest => leastFrom key (if key s < key best then s else best) rest

/-- Takes the state with the least key, the oldest one among equals. -/
def popMinBy? {K : Type} [LT K] [DecidableLT K] (key : S → K) (f : Frontier S) :
    Option (S × Frontier S) :=
  match f.queue with
  | [] => none
  | s :: rest =>
    let least := leastFrom key s rest
    some (least, (f.remove least).2)

end Frontier
end ActorAnalysis
