namespace ActorAnalysis

inductive Expr where
  | const (c : Int64)
  | var (name : String)
  | add (a b : Expr)
  | sub (a b : Expr)
deriving DecidableEq

def Expr.text : Expr → String
  | const c => toString c.toInt
  | var name => name
  | add a b => "(" ++ a.text ++ " + " ++ b.text ++ ")"
  | sub a b => "(" ++ a.text ++ " - " ++ b.text ++ ")"

inductive Cond where
  | always
  | never
  | eq (a b : Expr)
  | lt (a b : Expr)
  | not (c : Cond)
  | and (a b : Cond)
deriving DecidableEq

namespace Cond

/-- The opposite condition; a negation is removed rather than doubled. -/
def negate : Cond → Cond
  | always => never
  | never => always
  | not c => c
  | c => not c

def text : Cond → String
  | always => "true"
  | never => "false"
  | eq a b => a.text ++ " == " ++ b.text
  | lt a b => a.text ++ " < " ++ b.text
  | not c => "!(" ++ c.text ++ ")"
  | and a b => "(" ++ a.text ++ " && " ++ b.text ++ ")"

end Cond
end ActorAnalysis
