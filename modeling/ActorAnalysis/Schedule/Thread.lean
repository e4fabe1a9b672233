import ActorAnalysis.Ids
import ActorAnalysis.Program.Basic

/-! Threads, which are running instances of scripts, and scheduling states: a sequence of threads
over a data state. A thread keeps its index for good; a script with several entries runs as one
thread for each entry, all with one id. -/
namespace ActorAnalysis

inductive Status where
  | unknown
  | running
  | runningAtomic
  | waiting
  | yielded
  | done
  | failed
deriving DecidableEq, Hashable

namespace Status

/-- Never stepped again, short of a restart. -/
def isTerminal : Status → Bool
  | done | failed => true
  | _ => false

def isRunning : Status → Bool
  | running | runningAtomic => true
  | _ => false

def text : Status → String
  | unknown => "UNKNOWN"
  | running => "RUNNING"
  | runningAtomic => "RUNNING_ATOMIC"
  | waiting => "WAIT"
  | yielded => "YIELD"
  | done => "DONE"
  | failed => "FAILURE"

def all : List Status := [unknown, running, runningAtomic, waiting, yielded, done, failed]

def ofText? (s : String) : Option Status := all.find? (fun status => decide (status.text = s))

end Status

structure Thread where
  id : ThreadId
  actor : String
  script : Nat
  location : Location
  status : Status
  waitsFor : SortedSet ThreadId
  failedFor : SortedSet Property
  /-- Whether the event of the script has fired for this instance. -/
  triggered : Bool
deriving DecidableEq, Hashable

namespace Thread

def start (id : ThreadId) (actor : String) (script : Nat) (entry : Location) : Thread where
  id := id
  actor := actor
  script := script
  location := entry
  status := .running
  waitsFor := ∅
  failedFor := ∅
  triggered := true

def untriggered (t : Thread) : Thread := { t with triggered := false, status := .waiting }

/-- Not started, or finished and ready for a restart. -/
def isIdle (t : Thread) : Bool :=
  decide (t.status = .done) || (!t.triggered && decide (t.status = .waiting))

def moveTo (t : Thread) (location : Location) : Thread := { t with location := location }

def withStatus (t : Thread) (status : Status) : Thread := { t with status := status }

def text (t : Thread) : String :=
  s!"t{t.id} " ++ t.actor ++ s!".s{t.script}@L{t.location} " ++ t.status.text
    ++ (if t.triggered then "" else " idle")
    ++ (if t.waitsFor.isEmpty then ""
      else " waits for " ++ ",".intercalate (t.waitsFor.toList.map (fun id => s!"t{id}")))

end Thread

structure Scheduled (D : Type) where
  threads : List Thread
  /-- The threads that were stepped last. -/
  stepped : SortedSet Nat
  /-- The properties that were violated on the way. -/
  violated : SortedSet Property
  data : D
deriving DecidableEq, Hashable

namespace Scheduled

variable {D : Type}

def start (threads : List Thread) (data : D) : Scheduled D := ⟨threads, ∅, ∅, data⟩

def atomicThread? (s : Scheduled D) : Option Nat :=
  s.threads.findIdx? (fun t => decide (t.status = .runningAtomic))

def isAtomic (s : Scheduled D) (index : Nat) : Bool :=
  decide (s.threads[index]?.map Thread.status = some .runningAtomic)

end Scheduled
end ActorAnalysis
