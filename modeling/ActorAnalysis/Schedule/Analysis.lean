import ActorAnalysis.Analysis
import ActorAnalysis.Schedule.Atomic

namespace ActorAnalysis

namespace Scheduled

variable {D : Type}

def wrapping (D : Type) : Wrapping (Scheduled D) D where
  unwrap s := s.data
  wrap s d := { s with data := d }

/-- Joins the bookkeeping of two states with the same threads over the data `d`. -/
def combine (s t : Scheduled D) (d : D) : Scheduled D where
  threads := s.threads
  stepped := s.stepped.union t.stepped
  violated := s.violated.union t.violated
  data := d

/-- What the thread at `index` has executed between two states. A thread that has not moved is
blocked in a wait, or has failed an assertion. -/
def executed (program : Program) (s t : Scheduled D) (index : Nat) : List Operation :=
  match s.threads[index]?, t.threads[index]? with
  | some before, some after =>
    match program.script? after.actor after.script with
    | none => []
    | some script =>
      let taken := script.body.between before.location after.location
      if taken.isEmpty && decide (before.location = after.location) then
        ((script.body.outgoing before.location).map Transition.op).filter (fun op =>
          match op with
          | .waitUntil _ | .assert _ _ => true
          | _ => false)
      else taken
  | _, _ => []

/-- The scheduling layer over an analysis of data. The key of a thread sequence may be any
function of it. -/
def analysis (program : Program) (config : ScheduleConfig)
    (key : List Thread → PartitionKey) (inner : DataAnalysis D) : Analysis (Scheduled D) where
  initial p :=
    if p = program then do
      let threads ← Scheduler.initialThreads program
      let data ← inner.initial p
      return data.map (start threads)
    else .fail .foreignProgram
  succ := Scheduler.successors ⟨program, inner.succFor⟩ config
  join s t :=
    if s.threads = t.threads then do
      let d ← inner.join s.data t.data
      return s.combine t d
    else .fail .joinOfThreads
  shouldMerge s t := decide (s.threads = t.threads) && inner.shouldMerge s.data t.data
  merge s t :=
    if s.threads = t.threads then do
      let d ← inner.merge s.data t.data
      return s.combine t d
    else .fail .mergeOfThreads
  stop s reached :=
    let peers := (reached.filter (fun r => decide (r.threads = s.threads))).map Scheduled.data
    !peers.isEmpty && inner.stop s.data peers
  widen s := (inner.widen s.data).map (fun d => { s with data := d })
  target s := s.violated.union (inner.target s.data)
  keys s := (inner.keys s.data).insert (key s.threads)
  orderKey s := s.threads.map Thread.location ++ inner.orderKey s.data
  label s t := t.stepped.toList.flatMap (executed program s t)
  policy := inner.policy
  refiner := .through (wrapping D) inner.refiner

end Scheduled
end ActorAnalysis
