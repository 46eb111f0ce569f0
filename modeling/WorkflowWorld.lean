import WorkflowWorld.Concurrency.Schedule
import WorkflowWorld.Concurrency.Record
import WorkflowWorld.Storage.Flow
import WorkflowWorld.Safety.Modern
import WorkflowWorld.Safety.Histories
import WorkflowWorld.Safety.Terminal
import WorkflowWorld.Safety.Log
import WorkflowWorld.Safety.Fence
import WorkflowWorld.Safety.InBand
import WorkflowWorld.Safety.Ownership
import WorkflowWorld.Safety.Atomic
import WorkflowWorld.Safety.StepStart
import WorkflowWorld.Safety.Expiry
import WorkflowWorld.Safety.Admission
import WorkflowWorld.Safety.Creation
import WorkflowWorld.Safety.Started
import WorkflowWorld.Safety.StepMachine
import WorkflowWorld.Safety.DeadLetters
import WorkflowWorld.Safety.Suppression
import WorkflowWorld.Safety.RunQueues
import WorkflowWorld.Safety.Wakes
import WorkflowWorld.Safety.Isolation
import WorkflowWorld.Dispatcher.Attempt
import WorkflowWorld.Retention.Lineage
import WorkflowWorld.Streams.Codec
import WorkflowWorld.Streams.Preserved
import WorkflowWorld.Streams.Paging
import WorkflowWorld.Streams.Live
import WorkflowWorld.Streams.Compaction
import WorkflowWorld.Storage.EventPages
import WorkflowWorld.Safety.Pages
import WorkflowWorld.Safety.Snapshot
import WorkflowWorld.Concurrency.Reads
import WorkflowWorld.Dispatcher.Config
import WorkflowWorld.Dispatcher.Lease
import WorkflowWorld.Lists.FirstSeen
import WorkflowWorld.Lists.Recent
import WorkflowWorld.Dispatcher.Sweep
import WorkflowWorld.Dispatcher.Transport
import WorkflowWorld.Dispatcher.TenantRecovery
import WorkflowWorld.Dispatcher.Failures
import WorkflowWorld.Dispatcher.TaskHandler
import WorkflowWorld.Lists.Recursive
import WorkflowWorld.Retention.Backfill
import WorkflowWorld.Retention.Resolution
import WorkflowWorld.Provisioning.Migrations
import WorkflowWorld.Safety.Tenants
import WorkflowWorld.Safety.Deliveries
import WorkflowWorld.Safety.Unique
import WorkflowWorld.Retention.Complete
import WorkflowWorld.Dispatcher.EmbeddedRunner
import WorkflowWorld.Dispatcher.StaticActivation
import WorkflowWorld.Streams.Listener
