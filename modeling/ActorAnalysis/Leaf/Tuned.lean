import ActorAnalysis.Data.Analysis

namespace ActorAnalysis

structure Tuning where
  initial : Option (List DataState)
  /-- The property is violated where the variable is the value. -/
  target : Option (String × Int64 × Property)
  /-- A violation is spurious where the variable is the value. -/
  spurious : Option (String × Int64)
  refined : Option DataState
  /-- A skipping step branches into one state for each value of the variable. -/
  fork : Option (String × List Int64)
  keysBy : Option String
  orderBy : Option String
  policy : MergePolicy

namespace Tuning

def isValue (s : DataState) (var : String) (v : Int64) : Bool := decide (s.get var = .value v)

def wordOf? (s : DataState) (var : Option String) : Option Nat :=
  (var.bind (fun name => (s.get name).value?)).map (fun v => v.toUInt64.toNat)

def forked (s : DataState) (var : String) (values : List Int64) : List DataState :=
  values.map (fun v => s.put var (.value v))

def succFor (t : Tuning) (base : DataAnalysis DataState) (s : DataState) (op : Operation) :
    Except Error (List DataState) := do
  let successors ← base.succFor s op
  match t.fork, op with
  | some (var, values), .skip => return successors.flatMap (fun s => forked s var values)
  | _, _ => return successors

def refiner (t : Tuning) (base : Refiner DataState) : Refiner DataState where
  feasible s :=
    if t.spurious.any (fun (var, v) => isValue s var v) then .ok false else base.feasible s
  refine s := match t.refined with
    | some refined => .ok (some refined)
    | none => base.refine s

/-- The tuned analysis; what is not replaced is left to `base`. -/
def analysis (t : Tuning) (base : DataAnalysis DataState) : DataAnalysis DataState where
  initial p := match t.initial with
    | some states => pure states
    | none => base.initial p
  succ := base.succ
  join := base.join
  shouldMerge := base.shouldMerge
  merge := base.merge
  stop := base.stop
  widen := base.widen
  target s := match t.target with
    | some (var, v, property) => if isValue s var v then .singleton property else ∅
    | none => base.target s
  keys s := match wordOf? s t.keysBy with
    | some key => .singleton key
    | none => ∅
  orderKey s := (wordOf? s t.orderBy).toList
  label := base.label
  policy := t.policy
  refiner := t.refiner base.refiner
  succFor := t.succFor base

end Tuning
end ActorAnalysis
