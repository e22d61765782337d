import ChainPropagation.Fault
import ChainPropagation.NodeSet
import ChainPropagation.Sorting
import ChainPropagation.Chain
import ChainPropagation.Ranks
import ChainPropagation.Schedule
import ChainPropagation.Possession
import ChainPropagation.Rule
import ChainPropagation.Violation
import ChainPropagation.SolveError
import ChainPropagation.Problem
import ChainPropagation.Model
import ChainPropagation.Draft
import ChainPropagation.Replay
import ChainPropagation.Verdict
import ChainPropagation.Reach
import ChainPropagation.Step
import ChainPropagation.Flood
import ChainPropagation.Random
import ChainPropagation.Dive
import ChainPropagation.Incumbent
import ChainPropagation.Options
import ChainPropagation.Outcome
import ChainPropagation.Search.Tree
import ChainPropagation.Search
import ChainPropagation.Solve
import ChainPropagation.Workers
import ChainPropagation.Traffic
import ChainPropagation.Json
import ChainPropagation.Json.Number
import ChainPropagation.Json.Reader
import ChainPropagation.Json.Writer
import ChainPropagation.Interchange.Schedule
import ChainPropagation.Interchange.Model
import ChainPropagation.Interchange.Outcome
import ChainPropagation.Proofs.NodeSet
import ChainPropagation.Proofs.WellFormed
import ChainPropagation.Proofs.Lawful
import ChainPropagation.Proofs.Replay
import ChainPropagation.Proofs.Verdict
import ChainPropagation.Proofs.Draft
import ChainPropagation.Proofs.Reach
import ChainPropagation.Proofs.Flood
import ChainPropagation.Proofs.Dive
import ChainPropagation.Proofs.Needed
import ChainPropagation.Proofs.Dominance
import ChainPropagation.Proofs.Search
import ChainPropagation.Proofs.Solve
import ChainPropagation.Proofs.Banks
import ChainPropagation.Proofs.Possession
import ChainPropagation.Proofs.Recording
import ChainPropagation.Proofs.Walk
import ChainPropagation.Proofs.Gain
import ChainPropagation.Proofs.Horizon
import ChainPropagation.Proofs.Allowed
import ChainPropagation.Proofs.Forecast
import ChainPropagation.Proofs.Operations
import ChainPropagation.Proofs.LightCone
import ChainPropagation.Proofs.Idle
import ChainPropagation.Proofs.Earliest
import ChainPropagation.Proofs.Sweep
import ChainPropagation.Proofs.Deadline
import ChainPropagation.Proofs.Runs
import ChainPropagation.Proofs.Workers
import ChainPropagation.Proofs.Alone
import ChainPropagation.Proofs.Depth
import ChainPropagation.Proofs.Normal
import ChainPropagation.Proofs.Listing
import ChainPropagation.Proofs.SendRules
import ChainPropagation.Proofs.NodeLimit
import ChainPropagation.Proofs.Counting
import ChainPropagation.Proofs.Budget
import ChainPropagation.Proofs.Mirror
import ChainPropagation.Proofs.Mirror.Rules
import ChainPropagation.Proofs.Estimates
import ChainPropagation.Proofs.Mirror.Drafts
import ChainPropagation.Proofs.Mirror.Symmetry
import ChainPropagation.Proofs.Traffic
import ChainPropagation.Proofs.Claimed
import ChainPropagation.Proofs.Stepwise
import ChainPropagation.Proofs.Stepwise.Rules
import ChainPropagation.Proofs.Incumbent
import ChainPropagation.Proofs.Construction
import ChainPropagation.Proofs.SendOrder
import ChainPropagation.Proofs.Forms
import ChainPropagation.Proofs.Json.Tokens
import ChainPropagation.Proofs.Json.Text
import ChainPropagation.Proofs.RoundTrip
