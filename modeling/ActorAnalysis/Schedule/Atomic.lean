import ActorAnalysis.Schedule.Step

namespace ActorAnalysis

structure ScheduleConfig where
  /-- Whether the steps of an atomic section are taken as one. -/
  aggregateAtomic : Bool
  /-- How many steps at most are taken as one. -/
  maxAtomicSteps : Nat

namespace Scheduler

variable {D : Type}

/-- Either the state itself, if its atomic section ends here, or the states one step further. -/
def atomicStep (m : Scheduler D) (index : Nat) (s : Scheduled D) :
    Alloc (List (Scheduled D) × List (Scheduled D)) :=
  if s.isAtomic index then do
    let further ← m.stepThread s index
    return if further.isEmpty then ([s], []) else ([], further)
  else pure ([s], [])

/-- Steps all states of a level together, for at most `steps` levels. -/
def aggregate (m : Scheduler D) (index : Nat) :
    Nat → List (Scheduled D) → Alloc (List (Scheduled D))
  | _, [] => pure []
  | 0, level => pure level
  | steps + 1, level => do
    let parts ← level.mapM (m.atomicStep index)
    let later ← m.aggregate index steps (parts.map Prod.snd).flatten
    return (parts.map Prod.fst).flatten ++ later

def stepEligible (m : Scheduler D) (config : ScheduleConfig) (s : Scheduled D) (index : Nat) :
    Alloc (List (Scheduled D)) := do
  let successors ← m.stepThread s index
  if config.aggregateAtomic then m.aggregate index (config.maxAtomicSteps - 1) successors
  else return successors

def successors (m : Scheduler D) (config : ScheduleConfig) (s : Scheduled D) :
    Alloc (List (Scheduled D)) := do
  let indices ← m.eligible s
  let steps ← indices.mapM (m.stepEligible config s)
  return steps.flatten

/-- One thread for each entry of each script, idle unless the script starts with the program. -/
def initialThreads (program : Program) : Alloc (List Thread) := do
  let threads ← program.actors.mapM (fun actor => do
    let ofScripts ← actor.scripts.mapM (fun script => do
      let id ← Alloc.freshThread
      return script.body.entry.toList.map (fun entry =>
        let thread := Thread.start id actor.name script.id entry
        if script.event = .bootstrap then thread else thread.untriggered))
    return ofScripts.flatten)
  return threads.flatten

end Scheduler
end ActorAnalysis
