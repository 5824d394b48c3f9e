import MpiRma.World
import MpiRma.LawFacts
import MpiRma.Deliveries
import MpiRma.History
import MpiRma.Losses
import MpiRma.Discipline
import MpiRma.Steps
import MpiRma.Contract
import MpiRma.Sending
import MpiRma.Polling
import MpiRma.Acking
import MpiRma.Verified
import MpiRma.Reports
import MpiRma.SafeMode
import MpiRma.Replay
import MpiRma.RawMode
import MpiRma.QuietPoll
import MpiRma.Failures
import MpiRma.FailingPoll
import MpiRma.Codec
import MpiRma.Allocation
import MpiRma.Abreast
import MpiRma.Access
import MpiRma.Agreement
import MpiRma.Stages
import MpiRma.Tracking
import MpiRma.Guards
import MpiRma.Gate
import MpiRma.Refusals
import MpiRma.Cumulative
import MpiRma.Acknowledged
import MpiRma.Hostile
import MpiRma.Holdings
import MpiRma.Publication
import MpiRma.Opening
import MpiRma.Release
import MpiRma.Lifecycle
import MpiRma.LockOrder
import MpiRma.Channel
import MpiRma.Refinement
import MpiRma.Closing
import MpiRma.Progress
import MpiRma.Tearing
import MpiRma.Isolation
import MpiRma.Receipts
