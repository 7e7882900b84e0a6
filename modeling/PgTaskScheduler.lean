import PgTaskScheduler.Tables
import PgTaskScheduler.ReadCommitted
import PgTaskScheduler.Postgres
import PgTaskScheduler.Identifiers
import PgTaskScheduler.Models
import PgTaskScheduler.Schema
import PgTaskScheduler.Validation
import PgTaskScheduler.Database
import PgTaskScheduler.Claim
import PgTaskScheduler.Finalize
import PgTaskScheduler.Reap
import PgTaskScheduler.Queue
import PgTaskScheduler.Inspect
import PgTaskScheduler.Cron
import PgTaskScheduler.Materialize
import PgTaskScheduler.Jobs
import PgTaskScheduler.Call
import PgTaskScheduler.Lifecycle
import PgTaskScheduler.Invariant
import PgTaskScheduler.Transition
import PgTaskScheduler.Refine.Finalize
import PgTaskScheduler.Refine.Claim
import PgTaskScheduler.Refine.Queue
import PgTaskScheduler.Refine.Jobs
import PgTaskScheduler.Refine.Program
import PgTaskScheduler.Histories
import PgTaskScheduler.History
import PgTaskScheduler.Coupling
import PgTaskScheduler.AttemptHistory
import PgTaskScheduler.Fencing
import PgTaskScheduler.RetryBudget
import PgTaskScheduler.Durability
import PgTaskScheduler.Sessions
import PgTaskScheduler.Interleaving
import PgTaskScheduler.Cancellation
import PgTaskScheduler.Claiming
import PgTaskScheduler.Snapshots
import PgTaskScheduler.Deduplication
import PgTaskScheduler.Timing
import PgTaskScheduler.InternalErrors
import PgTaskScheduler.FailurePaths
import PgTaskScheduler.Renewal
import PgTaskScheduler.Retention
import PgTaskScheduler.Recovery
import PgTaskScheduler.RoundTrip
import PgTaskScheduler.Selection
import PgTaskScheduler.Readings
import PgTaskScheduler.Backlog
import PgTaskScheduler.Schedules
import PgTaskScheduler.Occurrences
import PgTaskScheduler.Machine
import PgTaskScheduler.Worker.Registry
import PgTaskScheduler.Worker.Attribution
import PgTaskScheduler.Worker.Apart
import PgTaskScheduler.Worker.Health
import PgTaskScheduler.Worker.Shutdown
