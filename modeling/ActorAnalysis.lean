import ActorAnalysis.Coverage
import ActorAnalysis.Dot
import ActorAnalysis.Leaf.Table
import ActorAnalysis.Leaf.Tuned
import ActorAnalysis.Settings
import ActorAnalysis.Proofs.Alloc
import ActorAnalysis.Proofs.Sorted
import ActorAnalysis.Proofs.Space.Members
import ActorAnalysis.Proofs.Space.Update
import ActorAnalysis.Proofs.Run.Step
import ActorAnalysis.Proofs.Run.Loop
import ActorAnalysis.Proofs.Run.Invariant
import ActorAnalysis.Proofs.Behaviour
import ActorAnalysis.Proofs.Bounded
import ActorAnalysis.Proofs.Overlooked
import ActorAnalysis.Proofs.Data.Valuation
import ActorAnalysis.Proofs.Run.Coverage
import ActorAnalysis.Proofs.Schedule.Execution
import ActorAnalysis.Proofs.Stack.Checking
import ActorAnalysis.Proofs.Stack.Precision
import ActorAnalysis.Proofs.Containment
import ActorAnalysis.Proofs.Space.Order
import ActorAnalysis.Proofs.Space.Partition
import ActorAnalysis.Proofs.Run.Closure
import ActorAnalysis.Proofs.Run.Pause
import ActorAnalysis.Proofs.Interruption
import ActorAnalysis.Proofs.Merging
import ActorAnalysis.Proofs.Stack.Shape
import ActorAnalysis.Proofs.Stack.Merging
import ActorAnalysis.Proofs.Graph.Linked
import ActorAnalysis.Proofs.Graph.Session
import ActorAnalysis.Proofs.Schedule.Waiting
import ActorAnalysis.Proofs.Stack.Deadlock
import ActorAnalysis.Proofs.Stack.WakeUp
import ActorAnalysis.Proofs.Schedule.Delivery
import ActorAnalysis.Proofs.Schedule.Others
import ActorAnalysis.Proofs.Stack.Exclusion
import ActorAnalysis.Proofs.Stack.Failures
import ActorAnalysis.Proofs.Schedule.Course
import ActorAnalysis.Proofs.Schedule.Aggregate
import ActorAnalysis.Proofs.Stack.Aggregation
import ActorAnalysis.Proofs.Run.Tally
import ActorAnalysis.Proofs.Space.Listing
import ActorAnalysis.Proofs.Run.History
import ActorAnalysis.Proofs.Stack.Lookup
import ActorAnalysis.Proofs.Schedule.Home
import ActorAnalysis.Proofs.Schedule.Renewal
import ActorAnalysis.Proofs.Schedule.Lineup
import ActorAnalysis.Proofs.Stack.Lineup
import ActorAnalysis.Proofs.Run.Unfailing
import ActorAnalysis.Proofs.Schedule.Unfailing
import ActorAnalysis.Proofs.Stack.Unfailing
import ActorAnalysis.Proofs.Data.Transfer
import ActorAnalysis.Proofs.Stack.Joining
import ActorAnalysis.Proofs.Stack.Lens
import ActorAnalysis.Proofs.Run.Marks
import ActorAnalysis.Proofs.Stack.Occupation
import ActorAnalysis.Proofs.Data.Inclusion
import ActorAnalysis.Proofs.Data.Monotone
import ActorAnalysis.Proofs.Schedule.Branching
import ActorAnalysis.Proofs.Data.Domain
import ActorAnalysis.Proofs.Schedule.Effects
import ActorAnalysis.Proofs.Stack.Effects
import ActorAnalysis.Proofs.Schedule.Resumption
import ActorAnalysis.Proofs.Stack.Resumption
import ActorAnalysis.Proofs.Stack.Labelling
import ActorAnalysis.Proofs.Graph.Interleaving
import ActorAnalysis.Proofs.Run.Termination
import ActorAnalysis.Proofs.Run.Chronicle
import ActorAnalysis.Proofs.Graph.Standing
import ActorAnalysis.Proofs.Stack.Coverage
import ActorAnalysis.Proofs.Stack.Absorption
import ActorAnalysis.Proofs.Stack.Window
import ActorAnalysis.Proofs.Run.Reporting
import ActorAnalysis.Proofs.Run.Breadth
import ActorAnalysis.Proofs.Graph.Conservation
import ActorAnalysis.Proofs.Space.Queue
import ActorAnalysis.Proofs.Report
import ActorAnalysis.Proofs.Dot
import ActorAnalysis.Proofs.Settings
import ActorAnalysis.Proofs.Reading
import ActorAnalysis.Proofs.Quoting
import ActorAnalysis.Proofs.Profile
