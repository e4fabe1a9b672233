import ActorAnalysis.Schedule.Restart

/-! One step of one thread. Atomic sections, waiting, yielding, broadcasts and assertions are
interpreted here; the data only takes the operation that the thread executes. -/
namespace ActorAnalysis

structure Scheduler (D : Type) where
  program : Program
  step : D → Operation → Except Error (List D)

namespace Scheduler

variable {D : Type}

/-- The condition under which a waiting thread may go on. A script that is triggered by a message
waits for a broadcast instead. -/
def wakeCondition (m : Scheduler D) (t : Thread) : Except Error (Option Cond) := do
  let script ← m.program.scriptAt t.ref
  if t.triggered then
    return (script.body.outgoing t.location).findSome? (fun tr =>
      match tr.op with
      | .waitUntil cond => some cond
      | _ => none)
  else
    match script.event with
    | .condition cond => return some cond
    | _ => return none

def mayHold (m : Scheduler D) (data : D) (cond : Cond) : Except Error Bool :=
  (m.step data (.assume cond)).map (fun assumed => !assumed.isEmpty)

def mayStep (m : Scheduler D) (data : D) (t : Thread) : Except Error Bool :=
  match t.status with
  | .running => pure true
  | .waiting =>
    if t.waitsFor.isEmpty then do
      match ← m.wakeCondition t with
      | some cond => m.mayHold data cond
      | none => pure false
    else pure false
  | _ => pure false

/-- The threads that may be stepped next: the one in an atomic section if there is one. -/
def eligible (m : Scheduler D) (s : Scheduled D) : Except Error (List Nat) :=
  match s.atomicThread? with
  | some index => .ok [index]
  | none => do
    let flags ← s.threads.mapM (m.mayStep s.data)
    return (flags.zipIdx.filter Prod.fst).map Prod.snd

/-- A thread at an exit of its script is done, unless it has failed. -/
def retire (body : Relation) (t : Thread) : Thread :=
  if !t.status.isTerminal && body.isExit t.location then t.withStatus .done else t

def unfinished (threads : List Thread) : SortedSet ThreadId :=
  .ofList ((threads.filter (fun t => !t.status.isTerminal)).map Thread.id)

/-- A thread that waits for others waits for the unfinished ones only, and resumes when none is
left. -/
def wake (pending : SortedSet ThreadId) (t : Thread) : Thread :=
  if t.waitsFor.isEmpty then t
  else
    let awaited := t.waitsFor.filter (fun id => decide (id ∈ pending))
    if awaited.isEmpty && decide (t.status = .waiting) then
      { t with waitsFor := awaited, status := .running }
    else { t with waitsFor := awaited }

def endRound (threads : List Thread) : List Thread :=
  if threads.any (fun t => t.status.isRunning) then threads
  else threads.map (fun t => if t.status = .yielded then t.withStatus .running else t)

def settleThreads (body : Relation) (index : Nat) (threads : List Thread) : List Thread :=
  let retired := threads.modify index (retire body)
  endRound (retired.map (wake (unfinished retired)))

/-- The state after a step of the thread at `index` of `s`, which may have violated a property. -/
def settle (body : Relation) (s : Scheduled D) (index : Nat) (violated : Option Property)
    (threads : List Thread) (data : D) : Scheduled D where
  threads := settleThreads body index threads
  stepped := .singleton index
  violated := match violated with
    | some property => s.violated.insert property
    | none => s.violated
  data := data

def runOn : Status → Status
  | .runningAtomic => .runningAtomic
  | _ => .running

/-- The status after an operation, before the script is found to end. -/
def statusAfter (status : Status) : Operation → Status
  | .beginAtomic => .runningAtomic
  | .endAtomic => .running
  | .yield => .yielded
  | _ => runOn status

/-- Delivers the message of a broadcast. A sender that waits does so for the restarted instances,
if there are any. -/
def deliver (m : Scheduler D) (sender : Nat) (op : Operation) (threads : List Thread) :
    Alloc (List Thread) :=
  match op with
  | .broadcast message => do
    let r ← restartReceivers m.program message sender threads
    return r.threads
  | .broadcastWait message => do
    let r ← restartReceivers m.program message sender threads
    if r.ids.isEmpty then return r.threads
    else return r.threads.modify sender (fun t => { t with status := .waiting, waitsFor := r.ids })
  | _ => pure threads

/-- The successors along one transition of thread `t`, which stands at `index`. Waiting and
asserting branch on their condition. -/
def stepTransition (m : Scheduler D) (s : Scheduled D) (index : Nat) (t : Thread)
    (body : Relation) (tr : Transition) : Alloc (List (Scheduled D)) :=
  let advanced := (t.moveTo tr.target).withStatus (runOn t.status)
  match tr.op with
  | .waitUntil cond => do
    let held ← m.step s.data (.assume cond)
    let blocked ← m.step s.data (.assume cond.negate)
    return held.map (settle body s index none (s.threads.set index advanced))
      ++ blocked.map (settle body s index none (s.threads.set index (t.withStatus .waiting)))
  | .assert cond property => do
    let held ← m.step s.data (.assume cond)
    let broken ← m.step s.data (.assume cond.negate)
    let failure := { t with status := .failed, failedFor := t.failedFor.insert property }
    return held.map (settle body s index none (s.threads.set index advanced))
      ++ broken.map (settle body s index (some property) (s.threads.set index failure))
  | op => do
    let data ← m.step s.data op
    data.mapM (fun d => do
      let threads ← m.deliver index op
        (s.threads.set index (advanced.withStatus (statusAfter t.status op)))
      return settle body s index none threads d)

/-- The successors by a step of the thread at `index`. A thread that waits for a condition to
trigger it wakes up; one with no way on is done if it stands at an exit. -/
def stepThread (m : Scheduler D) (s : Scheduled D) (index : Nat) :
    Alloc (List (Scheduled D)) :=
  match s.threads[index]? with
  | none => .fail (.missingThread index s.threads.length)
  | some t => do
    let script ← m.program.scriptAt t.ref
    match t.triggered, script.event with
    | false, .condition cond => do
      let held ← m.step s.data (.assume cond)
      let woken := { t with status := .running, triggered := true }
      return held.map (settle script.body s index none (s.threads.set index woken))
    | _, _ =>
      let outgoing := script.body.outgoing t.location
      if outgoing.isEmpty then
        if script.body.isExit t.location then
          return [settle script.body s index none (s.threads.set index (t.withStatus .done)) s.data]
        else return []
      else do
        let successors ← outgoing.mapM (m.stepTransition s index t script.body)
        return successors.flatten

end Scheduler
end ActorAnalysis
