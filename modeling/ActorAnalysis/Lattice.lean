namespace ActorAnalysis

class AbstractLattice (E : Type) where
  included : E → E → Bool
  meet : E → E → E
  join : E → E → E
  top : E
  bottom : E

namespace AbstractLattice

variable {E : Type} [AbstractLattice E]

/-- Only elements below bottom stand for nothing. -/
def feasible (a : E) : Bool := !included a bottom

def equivalent (a b : E) : Bool := included a b && included b a

def joinAll (elems : List E) : E := elems.foldl join bottom

end AbstractLattice

inductive Flat (α : Type) where
  | bottom
  | value (a : α)
  | top
deriving DecidableEq

namespace Flat

variable {α β γ : Type}

def value? : Flat α → Option α
  | value a => some a
  | _ => none

def isBottom : Flat α → Bool
  | bottom => true
  | _ => false

def isTop : Flat α → Bool
  | top => true
  | _ => false

/-- Lifts a function on values: bottom absorbs everything, then top does. -/
def lift₂ (f : α → β → γ) : Flat α → Flat β → Flat γ
  | bottom, _ | _, bottom => bottom
  | top, _ | _, top => top
  | value a, value b => value (f a b)

def text (shown : α → String) : Flat α → String
  | bottom => "⊥"
  | value a => shown a
  | top => "⊤"

section Order

variable [DecidableEq α]

def included : Flat α → Flat α → Bool
  | bottom, _ | _, top => true
  | value a, value b => decide (a = b)
  | _, _ => false

def meet : Flat α → Flat α → Flat α
  | top, x | x, top => x
  | value a, value b => if a = b then value a else bottom
  | _, _ => bottom

def join : Flat α → Flat α → Flat α
  | bottom, x | x, bottom => x
  | value a, value b => if a = b then value a else top
  | _, _ => top

instance : AbstractLattice (Flat α) where
  included := included
  meet := meet
  join := join
  top := top
  bottom := bottom

end Order

end Flat
end ActorAnalysis
