import BranchSteer.Main
import BranchSteer.Proofs.Rollback
import BranchSteer.Proofs.CheckpointStack
import BranchSteer.Proofs.DataFlow
import BranchSteer.Proofs.MachineSteps
import BranchSteer.Proofs.Attribution
import BranchSteer.Proofs.BranchRecords
import BranchSteer.Proofs.Candidates
import BranchSteer.Proofs.Recording
import BranchSteer.Proofs.Recall
import BranchSteer.Proofs.Flips
import BranchSteer.Proofs.AttemptedInput
import BranchSteer.Proofs.GoingBack
import BranchSteer.Proofs.Proceeding
import BranchSteer.Proofs.Phases
import BranchSteer.Proofs.Turns
import BranchSteer.Proofs.Returning
import BranchSteer.Proofs.Launch
import BranchSteer.Proofs.Runs
import BranchSteer.Proofs.Guarantees
import BranchSteer.Proofs.FreshRuns
import BranchSteer.Proofs.Moves
import BranchSteer.Proofs.Surveys
import BranchSteer.Proofs.Judgements
import BranchSteer.Proofs.Deciding
import BranchSteer.Proofs.Limits
import BranchSteer.Proofs.SystemCalls
import BranchSteer.Proofs.Reachability
import BranchSteer.Proofs.Versions
import BranchSteer.Proofs.OperandValues
import BranchSteer.Proofs.TwoRuns
import BranchSteer.Proofs.Dependencies
import BranchSteer.Proofs.Schedules
import BranchSteer.Proofs.SingleBytes
import BranchSteer.Proofs.Exhaustion
import BranchSteer.Proofs.Rewinding
import BranchSteer.Proofs.Calls
import BranchSteer.Proofs.Situations
import BranchSteer.Proofs.Decisions
import BranchSteer.Proofs.Advances
import BranchSteer.Proofs.Verdicts
import BranchSteer.Proofs.Seeds
import BranchSteer.Proofs.Targets
import BranchSteer.Proofs.Ledger
import BranchSteer.Proofs.Usage
import BranchSteer.Proofs.Growth
import BranchSteer.Proofs.Lineage
import BranchSteer.Proofs.Layers
import BranchSteer.Proofs.Chains
import BranchSteer.Proofs.Closure
import BranchSteer.Proofs.Ancestry
import BranchSteer.Proofs.Queries
import BranchSteer.Proofs.Progress
import BranchSteer.Proofs.Keeping
import BranchSteer.Proofs.History
import BranchSteer.Proofs.UndoLog
import BranchSteer.Proofs.Chronicle
import BranchSteer.Proofs.Treatments
import BranchSteer.Proofs.Standing
import BranchSteer.Proofs.TraceOrder
import BranchSteer.Proofs.Pools
import BranchSteer.Proofs.Visits
import BranchSteer.Proofs.Workload
import BranchSteer.Proofs.Effort
import BranchSteer.Proofs.LatePerturbation
import BranchSteer.Proofs.Choices
import BranchSteer.Proofs.Declarations
import BranchSteer.Proofs.Scanning
import BranchSteer.Proofs.Documents
import BranchSteer.Proofs.WrittenForms
import BranchSteer.Proofs.CheckpointLists
import BranchSteer.Proofs.Provenance
