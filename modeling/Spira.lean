import Spira.Lib.History
import Spira.Lib.Text
import Spira.Lib.UpdateLog
import Spira.Lib.Prefix
import Spira.Lib.Interleave
import Spira.Lib.Stopping
import Spira.Lib.Json
import Spira.Lifecycle.Reason
import Spira.Lifecycle.Outcome
import Spira.Lifecycle.Bead.Row
import Spira.Lifecycle.Bead.Machine
import Spira.Lifecycle.Bead.Moves
import Spira.Lifecycle.Bead.RedTip
import Spira.Lifecycle.Bead.Certified
import Spira.Lifecycle.Bead.Custody
import Spira.Lifecycle.Bead.RedStack
import Spira.Lifecycle.Bead.Unclaim
import Spira.Lifecycle.Bead.Closing
import Spira.Lifecycle.Bead.Edges
import Spira.Lifecycle.Batch.Machine
import Spira.Lifecycle.Batch.Landing
import Spira.Lifecycle.Delivery
import Spira.Lifecycle.Mending
import Spira.Lifecycle.Bead.Replay
import Spira.StateStore.Backend
import Spira.StateStore.Mem
import Spira.StateStore.Sqlite
import Spira.StateStore.Object
import Spira.StateStore.Contract
import Spira.StateStore.Steps
import Spira.StateStore.Deadlines
import Spira.StateStore.Decided
import Spira.StateStore.Safe
import Spira.StateStore.Verbs
import Spira.StateStore.Fencing
import Spira.StateStore.Atomic
import Spira.StateStore.Retry
import Spira.StateStore.Expiry
import Spira.StateStore.Watch
import Spira.StateStore.Effect
import Spira.StateStore.Locks
import Spira.StateStore.Revlog
import Spira.StateStore.Listing
import Spira.StateStore.StateIndex
import Spira.StateStore.Wire
import Spira.StateStore.Drilled
import Spira.Control.SingleDelivery
import Spira.Control.Dependents
import Spira.Control.Gates
import Spira.Control.ClaimLocks
import Spira.Control.Entered
import Spira.Control.Publishers
import Spira.Control.Pages
import Spira.Batcher.Blame
import Spira.Batcher.InstallFault
import Spira.Batcher.Mender
import Spira.Batcher.Combine
import Spira.Admission.Queue
import Spira.Controller.NeverBack
import Spira.Controller.OneRunner
import Spira.Controller.LiveRunner
import Spira.DesiredState.Timestamp
import Spira.DesiredState.Distance
import Spira.DesiredState.Step
import Spira.Controller.Select
import Spira.Controller.Grounded
import Spira.Controller.Cut
import Spira.Strand.Cycles
import Spira.Suites.CaseMatch
import Spira.Suites.InputKey
import Spira.Suites.Narrow
import Spira.Suites.Scope
import Spira.Suites.Sources
import Spira.Suites.Union
import Spira.Claim.Orders
import Spira.Claim.StackPlan
import Spira.Config.ScopedStop
import Spira.Engine.Holds
import Spira.Gate.Attribute
import Spira.Testenv.Resume
import Spira.Testenv.Tap
import Spira.Verdicts.Refusal
import Spira.Goodput.Runs
