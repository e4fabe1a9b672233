import ActorAnalysis.Error
import ActorAnalysis.Sorted.Set
import ActorAnalysis.Program.Expr

namespace ActorAnalysis

structure Property where
  name : String
  named : name ≠ ""
deriving DecidableEq

namespace Property

def ofName (name : String) : Except Error Property :=
  if h : name = "" then .error .emptyProperty else .ok ⟨name, h⟩

instance : Hashable Property := ⟨fun p => hash p.name⟩
instance : LT Property := ⟨fun p q => p.name < q.name⟩
instance : DecidableLT Property := fun p q => inferInstanceAs (Decidable (p.name < q.name))

instance : TotalLT Property where
  irrefl p := TotalLT.irrefl p.name
  trans {p q r} hpq hqr := (TotalLT.trans hpq hqr : p.name < r.name)
  connected {p q} hpq hqp := by
    cases p with | mk p hp =>
    cases q with | mk q hq =>
    have same : p = q := TotalLT.connected hpq hqp
    subst same
    rfl

end Property

inductive Operation where
  | skip
  | assign (var : String) (expr : Expr)
  | assume (cond : Cond)
  | beginAtomic
  | endAtomic
  | yield
  | waitUntil (cond : Cond)
  | broadcast (message : String)
  | broadcastWait (message : String)
  | assert (cond : Cond) (property : Property)
deriving DecidableEq

def Operation.text : Operation → String
  | skip => "skip"
  | assign var expr => var ++ " := " ++ expr.text
  | assume cond => "assume " ++ cond.text
  | beginAtomic => "begin atomic"
  | endAtomic => "end atomic"
  | yield => "yield"
  | waitUntil cond => "wait until " ++ cond.text
  | broadcast message => "broadcast " ++ message
  | broadcastWait message => "broadcast " ++ message ++ " and wait"
  | assert cond property => "assert " ++ cond.text ++ " [" ++ property.name ++ "]"

inductive Event where
  /-- Fires once, when the program starts. -/
  | bootstrap
  /-- Fires with each broadcast of the message. -/
  | message (name : String)
  /-- Fires when the condition holds. -/
  | condition (cond : Cond)
deriving DecidableEq

end ActorAnalysis
