import ActorAnalysis.Lattice
import ActorAnalysis.Program.Operation
import ActorAnalysis.Sorted.Map

/-! Data states of constant propagation: which variables are known to hold which constant, or
that no memory is possible at all. Arithmetic wraps around at 64 bits. -/
namespace ActorAnalysis

inductive DataState where
  | infeasible
  /-- The bound variables hold their constants; the others may hold anything. -/
  | known (bindings : SortedMap String Int64)
deriving DecidableEq, Hashable

namespace DataState

def unknown : DataState := known ∅

def isInfeasible : DataState → Bool
  | infeasible => true
  | known _ => false

def get : DataState → String → Flat Int64
  | infeasible, _ => .bottom
  | known m, var =>
    match m.get? var with
    | some v => .value v
    | none => .top

def put : DataState → String → Flat Int64 → DataState
  | infeasible, _, _ => infeasible
  | known _, _, .bottom => infeasible
  | known m, var, .top => known (m.erase var)
  | known m, var, .value v => known (m.insert var v)

def eval (s : DataState) : Expr → Flat Int64
  | .const c => if s.isInfeasible then .bottom else .value c
  | .var name => s.get name
  | .add a b => Flat.lift₂ (· + ·) (s.eval a) (s.eval b)
  | .sub a b => Flat.lift₂ (· - ·) (s.eval a) (s.eval b)

/-- Conjunction: bottom absorbs everything, and a false side decides over an unknown one. -/
def both : Flat Bool → Flat Bool → Flat Bool
  | .bottom, _ | _, .bottom => .bottom
  | .value false, _ | _, .value false => .value false
  | .value true, .value true => .value true
  | _, _ => .top

def negated : Flat Bool → Flat Bool
  | .value b => .value (!b)
  | other => other

def holds (s : DataState) : Cond → Flat Bool
  | .always => if s.isInfeasible then .bottom else .value true
  | .never => if s.isInfeasible then .bottom else .value false
  | .eq a b => Flat.lift₂ (fun x y => decide (x = y)) (s.eval a) (s.eval b)
  | .lt a b => Flat.lift₂ (fun x y => decide (x < y)) (s.eval a) (s.eval b)
  | .not c => negated (s.holds c)
  | .and a b => both (s.holds a) (s.holds b)

/-- Keeps the memories in which the condition holds. Where that is not decided, an equation of a
variable and a constant binds the variable, and a conjunction is assumed side by side. -/
def assume (s : DataState) (cond : Cond) : DataState :=
  match s.holds cond with
  | .bottom | .value false => infeasible
  | .value true => s
  | .top =>
    match cond with
    | .eq (.var x) (.const c) | .eq (.const c) (.var x) => s.put x (.value c)
    | .and a b => (s.assume a).assume b
    | _ => s

def assign (s : DataState) (var : String) (expr : Expr) : DataState := s.put var (s.eval expr)

def text : DataState → String
  | infeasible => "⊥"
  | known m =>
    "\x7b" ++ ", ".intercalate (m.entries.map (fun e => e.1 ++ "=" ++ toString e.2.toInt)) ++ "\x7d"

def included : DataState → DataState → Bool
  | infeasible, _ => true
  | known _, infeasible => false
  | known m, known n => n.keys.all (fun var => (known m).get var |>.included ((known n).get var))

def meet : DataState → DataState → DataState
  | known m, known n =>
    n.keys.foldl (fun s var => s.put var (((known m).get var).meet ((known n).get var))) (known m)
  | _, _ => infeasible

def join : DataState → DataState → DataState
  | infeasible, t => t
  | s, infeasible => s
  | known m, known n => known (m.filter (fun var v => decide (n.get? var = some v)))

instance : AbstractLattice DataState where
  included := included
  meet := meet
  join := join
  top := unknown
  bottom := infeasible

end DataState
end ActorAnalysis
