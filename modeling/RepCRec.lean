import RepCRec.Container.Loop
import RepCRec.Container.IterOrder
import RepCRec.Container.Sorted
import RepCRec.Refinement.View
import RepCRec.Refinement.Effects
import RepCRec.Refinement.Ending
import RepCRec.Engine.Outcome
import RepCRec.Refinement.Simulation
import RepCRec.Engine.Frame
import RepCRec.Engine.Calls
import RepCRec.Engine.Known
import RepCRec.Refinement.Runs
import RepCRec.Guarantees.Replication
import RepCRec.Refinement.History
import RepCRec.Guarantees.LockedReads
import RepCRec.Guarantees.CommitCheck
import RepCRec.Engine.Queue
import RepCRec.Refinement.Waiting
import RepCRec.Guarantees.Exceptions
import RepCRec.Guarantees.BlockedRequests
import RepCRec.Container.Versions
import RepCRec.Engine.Versions
import RepCRec.Refinement.Stamps
import RepCRec.Guarantees.Snapshots
import RepCRec.Refinement.Serving
import RepCRec.Engine.Indexes
import RepCRec.Refinement.Register
import RepCRec.Guarantees.Deadlocks
import RepCRec.Guarantees.Ghosts
import RepCRec.Guarantees.Commits
import RepCRec.Guarantees.QueueWalk
import RepCRec.Engine.OpenRun
import RepCRec.Engine.ReadOnly
import RepCRec.Guarantees.ReadOnly
import RepCRec.Engine.LockSteps
import RepCRec.Guarantees.LockInterface
import RepCRec.Engine.Log
import RepCRec.Guarantees.IssueOrder
import RepCRec.Engine.Sites
import RepCRec.Engine.SiteWaits
import RepCRec.Guarantees.SiteWaits
import RepCRec.Guarantees.CommitOrder
import RepCRec.Replication.Unfailed
import RepCRec.Refinement.Unfailed
import RepCRec.Guarantees.WaiterOrder
import RepCRec.Refinement.Draining
import RepCRec.Guarantees.Release
import RepCRec.Guarantees.LockAnswers
import RepCRec.Container.StdString
import RepCRec.Engine.Instruction
import RepCRec.Guarantees.Parsing
import RepCRec.Container.IStream
import RepCRec.Engine.Checker
import RepCRec.Guarantees.Checker
import RepCRec.Guarantees.WriteEffects
import RepCRec.Guarantees.LiveIndexes
import RepCRec.Guarantees.DrainLoop
import RepCRec.Guarantees.Stuck
import RepCRec.Replication.Cover
import RepCRec.Replication.Serial
import RepCRec.Schedules.Accesses
import RepCRec.Schedules.FailureFree
import RepCRec.Schedules.Replay
import RepCRec.Container.OStream
import RepCRec.Engine.Dump
import RepCRec.Engine.Program
import RepCRec.Guarantees.Dump
import RepCRec.Guarantees.Program
import RepCRec.Schedules.Program
import RepCRec.Schedules.ConflictFree
import RepCRec.Schedules.Reference
import RepCRec.Container.Agree
import RepCRec.Orders.Alike
import RepCRec.Orders.Trace
