import ActorAnalysis.Data.Analysis
import ActorAnalysis.Node
import ActorAnalysis.Schedule.Analysis
import ActorAnalysis.Timed

namespace ActorAnalysis

inductive Stack where
  | data
  | scheduled (program : Program) (config : ScheduleConfig) (key : List Thread → PartitionKey)
  | graph (config : GraphConfig) (below : Stack)
  | timed (config : TimeConfig) (below : Stack)

namespace Stack

variable {D : Type}

def State (D : Type) : Stack → Type
  | data => D
  | scheduled _ _ _ => Scheduled D
  | graph _ below => Node (below.State D)
  | timed _ below => Timed (below.State D)

instance decidableEqState [DecidableEq D] : (k : Stack) → DecidableEq (k.State D)
  | data => inferInstanceAs (DecidableEq D)
  | scheduled _ _ _ => inferInstanceAs (DecidableEq (Scheduled D))
  | graph _ below =>
    letI := decidableEqState below
    inferInstanceAs (DecidableEq (Node (below.State D)))
  | timed _ below =>
    letI := decidableEqState below
    inferInstanceAs (DecidableEq (Timed (below.State D)))

instance hashableState [Hashable D] : (k : Stack) → Hashable (k.State D)
  | data => inferInstanceAs (Hashable D)
  | scheduled _ _ _ => inferInstanceAs (Hashable (Scheduled D))
  | graph _ below =>
    letI := hashableState below
    inferInstanceAs (Hashable (Node (below.State D)))
  | timed _ below =>
    letI := hashableState below
    inferInstanceAs (Hashable (Timed (below.State D)))

/-- The default stack is `timed` over `graph` over `scheduled`. -/
def analysis (leaf : DataAnalysis D) : (k : Stack) → Analysis (k.State D)
  | data => leaf.toAnalysis
  | scheduled program config key => Scheduled.analysis program config key leaf
  | graph config below => Node.analysis config (below.analysis leaf)
  | timed config below => Timed.analysis config (below.analysis leaf)

end Stack
end ActorAnalysis
