import ActorAnalysis.Bounded
import ActorAnalysis.Data.Analysis
import ActorAnalysis.Node
import ActorAnalysis.Schedule.Analysis
import ActorAnalysis.Text
import ActorAnalysis.Timed

namespace ActorAnalysis

structure Settings where
  schedule : ScheduleConfig
  graph : GraphConfig
  time : TimeConfig
  data : DataConfig
  run : RunConfig
  bounded : BoundedConfig

def FrontierOrder.ofText (s : String) : Except Error FrontierOrder :=
  let name := Text.lowerAscii s
  if name = "fifo" ∨ name = "bfs" then .ok .fifo
  else if name = "lifo" ∨ name = "dfs" then .ok .lifo
  else if name = "order-key" ∨ name = "orderkey" then .ok .orderKey
  else .error (.badOption "frontier-order" s)

namespace Settings

def default : Settings where
  schedule := ⟨false, 1000⟩
  graph := ⟨.never, .passThrough⟩
  time := ⟨16⟩
  data := ⟨true, .all⟩
  run := ⟨.fifo, none, false, false⟩
  bounded := ⟨100, none⟩

def read {α : Type} (key value : String) : Option α → Except Error α
  | some a => .ok a
  | none => .error (.badOption key value)

def readBool (key value : String) : Except Error Bool := read key value (Text.readBool? value)

def readNumber (key value : String) : Except Error Nat := read key value (Text.readBound? value)

/-- No bound at all is spelled `none`, or left empty. -/
def readBound (key value : String) : Except Error (Option Nat) :=
  if value = "" ∨ Text.lowerAscii value = "none" then .ok none
  else (readNumber key value).map some

/-- A star tracks every variable; otherwise the variables are listed with commas. -/
def readPrecision (value : String) : Precision :=
  if value = "*" then .all
  else .only (.ofList (((value.splitOn ",").map Text.trim).filter (fun v => decide (v ≠ ""))))

def set (s : Settings) (key value : String) : Except Error Settings :=
  match key with
  | "control.aggregate-atomic-transitions" => do
    let b ← readBool key value
    return { s with schedule := { s.schedule with aggregateAtomic := b } }
  | "control.max-atomic-steps" => do
    let n ← readNumber key value
    return { s with schedule := { s.schedule with maxAtomicSteps := n } }
  | "graph.merge-into-operator" => do
    let policy ← MergePolicy.ofText value
    return { s with graph := { s.graph with policy := policy } }
  | "graph.widening" => do
    let widening ← NodeWidening.ofText value
    return { s with graph := { s.graph with widening := widening } }
  | "time.profile-window" => do
    let n ← readNumber key value
    return { s with time := ⟨n⟩ }
  | "value.merge-states" => do
    let b ← readBool key value
    return { s with data := { s.data with mergeStates := b } }
  | "value.precision" =>
    return { s with data := { s.data with precision := readPrecision value } }
  | "worklist.order" => do
    let order ← FrontierOrder.ofText value
    return { s with run := { s.run with order := order } }
  | "worklist.max-iterations" => do
    let bound ← readBound key value
    return { s with run := { s.run with maxIterations := bound } }
  | "worklist.stop-on-first-target" => do
    let b ← readBool key value
    return { s with run := { s.run with stopOnFirstTarget := b } }
  | "worklist.widen-successors" => do
    let b ← readBool key value
    return { s with run := { s.run with widenSuccessors := b } }
  | "bmc.max-rounds" => do
    let n ← readNumber key value
    return { s with bounded := { s.bounded with maxRounds := n } }
  | "bmc.iterations-per-round" => do
    let bound ← readBound key value
    return { s with bounded := { s.bounded with iterationsPerRound := bound } }
  | _ => .error (.badOption key value)

/-- Sets the given options in the order of their keys; all others keep their defaults. -/
def ofOptions (options : SortedMap String String) : Except Error Settings :=
  options.entries.foldlM (fun s (key, value) => s.set key (Text.trim value)) default

abbrev DefaultState := Timed (Node (Scheduled DataState))

/-- The layers that the settings ask for. A state is filed under the `key` of its threads, which
sequences of threads may share. -/
def analysis (s : Settings) (key : List Thread → PartitionKey) (program : Program) :
    Analysis DefaultState :=
  Timed.analysis s.time <| Node.analysis s.graph <|
    Scheduled.analysis program s.schedule key <| DataState.analysis s.data

end Settings
end ActorAnalysis
