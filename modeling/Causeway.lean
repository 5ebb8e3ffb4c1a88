import Causeway.Main
import Causeway.Retry.Schedule
import Causeway.Wire.Quota
import Causeway.Wire.Records
import Causeway.Proofs.Calendar
import Causeway.Proofs.Crossing.Answer
import Causeway.Proofs.Crossing.Callbacks
import Causeway.Proofs.Crossing.Calling
import Causeway.Proofs.Crossing.Calls
import Causeway.Proofs.Crossing.Claims
import Causeway.Proofs.Crossing.Conduct
import Causeway.Proofs.Crossing.Convergence
import Causeway.Proofs.Crossing.Counting
import Causeway.Proofs.Crossing.Course
import Causeway.Proofs.Crossing.Effect
import Causeway.Proofs.Crossing.Funding
import Causeway.Proofs.Crossing.Handling
import Causeway.Proofs.Crossing.Linking
import Causeway.Proofs.Crossing.Log
import Causeway.Proofs.Crossing.Marking
import Causeway.Proofs.Crossing.Matching
import Causeway.Proofs.Crossing.Onward
import Causeway.Proofs.Crossing.Order
import Causeway.Proofs.Crossing.Path
import Causeway.Proofs.Crossing.Progress
import Causeway.Proofs.Crossing.Reached
import Causeway.Proofs.Crossing.Reorder
import Causeway.Proofs.Crossing.Resume
import Causeway.Proofs.Crossing.Serial
import Causeway.Proofs.Crossing.Solo
import Causeway.Proofs.Crossing.System
import Causeway.Proofs.Crossing.Waiting
import Causeway.Proofs.Decimal
import Causeway.Proofs.Deposit.Coherence
import Causeway.Proofs.Deposit.Moves
import Causeway.Proofs.Program.Only
import Causeway.Proofs.Program.Rules
import Causeway.Proofs.Quota.Counter
import Causeway.Proofs.Quota.Period
import Causeway.Proofs.Rail.Sandbox
import Causeway.Proofs.Refusal
import Causeway.Proofs.Retry.Attempts
import Causeway.Proofs.Retry.Timer
import Causeway.Proofs.Store.Deposits
import Causeway.Proofs.Store.Index
import Causeway.Proofs.Store.Tally
import Causeway.Proofs.Store.Usages
import Causeway.Proofs.Uuid
import Causeway.Proofs.World.Alone
import Causeway.Proofs.World.Aside
import Causeway.Proofs.World.Calm
import Causeway.Proofs.World.Changes
import Causeway.Proofs.World.Perform
import Causeway.Proofs.World.Run
import Causeway.Proofs.Decimal.Text
import Causeway.Proofs.Json.Text
import Causeway.Proofs.Store.Growth
import Causeway.Proofs.Webhook.Delivery
import Causeway.Proofs.Crossing.Idle
import Causeway.Proofs.Decimal.Rounding
import Causeway.Proofs.Quota.Gate
import Causeway.Proofs.Replay.Caps
import Causeway.Proofs.Replay.Report
import Causeway.Proofs.Quota.Decision
import Causeway.Proofs.Retry.Contract
import Causeway.Proofs.Quota.Looking
import Causeway.Proofs.Crossing.Aborted
import Causeway.Proofs.Decimal.Sums
import Causeway.Proofs.Quota.Movements
import Causeway.Proofs.Crossing.Noting
import Causeway.Proofs.Store.Transfers
import Causeway.Proofs.Quota.Judgement
import Causeway.Proofs.Store.Whole
import Causeway.Proofs.Store.References
import Causeway.Proofs.Crossing.Lookup
import Causeway.Proofs.Crossing.Outcome
import Causeway.Proofs.Crossing.Failing
import Causeway.Proofs.Crossing.Reporting
import Causeway.Proofs.Deposit.Stamps
import Causeway.Proofs.Webhook.Signature
import Causeway.Proofs.Webhook.Trust
import Causeway.Proofs.Crossing.Announced
import Causeway.Proofs.Instant.Text
import Causeway.Proofs.Quota.AnyClock
import Causeway.Proofs.Rail.Fees
import Causeway.Proofs.Wire.Storage
import Causeway.Proofs.Replay.Amounts
import Causeway.Proofs.Quota.Boundaries
import Causeway.Proofs.Replay.Printed
import Causeway.Proofs.Replay.Alone
import Causeway.Proofs.Crossing.Apart
