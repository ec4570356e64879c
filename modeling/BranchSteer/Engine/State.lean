import BranchSteer.Flow.Attribution
import BranchSteer.Log

/-!
The state of the engine that steers a traced program through the outcomes of its branches.

A run alternates between two phases. A tainting phase records a trace, the data flow and a checkpoint
for each instruction that reads the input. The rollbacking phase behind it takes the process back to
checkpoints with changed input until each dependent branch is flipped or given up.
-/

namespace BranchSteer

structure Config where
  traceLimit : Nat
  attemptLimit : Nat
  rollbackLimit : Nat
  endAtSyscall : Bool
  /-- Zero means that phases are not limited. -/
  phaseLimit : Nat
  seed : Option UInt64
deriving DecidableEq, Repr

def Config.default : Config where
  traceLimit := 100000
  attemptLimit := 256
  rollbackLimit := 1000000
  endAtSyscall := true
  phaseLimit := 0
  seed := none

/-- Where the generator of a run starts. Without a seed that is where it was drawn to start. -/
def Config.generator (config : Config) (drawn : Random) : Random :=
  match config.seed with
  | some seed => .ofSeed seed
  | none => drawn

inductive Phase
  | capturing
  | tainting
  | rollbacking
  | finished
deriving DecidableEq, Repr

inductive Action
  | proceed
  | rollback (processor : Processor)
  | stop

/-- The attempts to flip one branch. `released` are the bytes of later candidates that were given up,
`schedule` are the values left to try if a single byte is perturbed. -/
structure Resolution where
  branch : Nat
  checkpoint : Nat
  attempts : Nat
  perturbed : Std.ExtTreeSet Nat
  released : Std.ExtTreeSet Nat
  schedule : List UInt8
  attemptedInput : List UInt8

structure Outcomes where
  taken : Std.ExtTreeSet Nat
  notTaken : Std.ExtTreeSet Nat

namespace Outcomes

def empty : Outcomes := ⟨∅, ∅⟩

def contains (outcomes : Outcomes) (address : Nat) (taken : Bool) : Bool :=
  if taken then outcomes.taken.contains address else outcomes.notTaken.contains address

def insert (outcomes : Outcomes) (address : Nat) (taken : Bool) : Outcomes :=
  if taken then { outcomes with taken := outcomes.taken.insert address }
  else { outcomes with notTaken := outcomes.notTaken.insert address }

end Outcomes

structure Engine where
  config : Config
  phase : Phase
  input : InputBuffer
  baseInput : List UInt8
  phaseNumber : Nat
  basePosition : Nat
  tracedLength : Nat
  position : Nat
  trace : Array Nat
  graph : Flow.Graph
  checkpoints : Array Checkpoint
  branches : Flow.Branches
  active : Option Resolution
  archive : List Branch
  seenOutcomes : Outcomes
  rollbacks : Nat
  rollbacksInPhase : Nat
  summaries : List PhaseSummary
  budgetExhausted : Bool
  random : Random
  log : Array LogEntry

/-- What the engine wants done to the process in answer to a callback. It is decided without a look at
the memory of the process. -/
inductive Order
  | proceed (writes : List MemoryRange)
  | record (instruction : Instruction) (execution : Execution)
  | attempt (resolution : Resolution)
  | restore (checkpoint : Nat)
  | restart (seed : List UInt8)
  | stop
  | fail (fault : Fault)

structure Decision where
  engine : Engine
  order : Order

/-- What the engine makes of a callback. A fault leaves behind whatever was done before it. -/
structure Reaction where
  engine : Engine
  memory : Memory
  result : Except Fault Action

namespace Engine

def initial (config : Config) (random : Random) : Engine where
  config := config
  phase := .capturing
  input := .empty
  baseInput := []
  phaseNumber := 0
  basePosition := 0
  tracedLength := 0
  position := 0
  trace := #[]
  graph := .empty .empty
  checkpoints := #[]
  branches := ∅
  active := none
  archive := []
  seenOutcomes := .empty
  rollbacks := 0
  rollbacksInPhase := 0
  summaries := []
  budgetExhausted := false
  random := random
  log := #[]

def note (engine : Engine) (message : LogEntry) : Engine :=
  { engine with log := engine.log.push message }

def inform (engine : Engine) (text : String) : Engine := engine.note (.info text "Engine")

def countBranches (engine : Engine) (predicate : Branch → Bool) : Nat :=
  (engine.branches.inTraceOrder.filter predicate).length

def currentSummary (engine : Engine) : PhaseSummary where
  phase := engine.phaseNumber
  instructions := engine.tracedLength
  checkpoints := engine.checkpoints.size
  branches := engine.branches.size
  dependentBranches := engine.countBranches Branch.dependsOnInput
  resolved := engine.countBranches Branch.isResolved
  bypassed := engine.countBranches Branch.isBypassed
  rollbacks := engine.rollbacksInPhase

def addSummary (engine : Engine) : Engine :=
  if engine.summaries.length > engine.phaseNumber then engine
  else
    let summary := engine.currentSummary
    { engine.inform summary.text with summaries := engine.summaries ++ [summary] }

def finish (engine : Engine) (budgetExhausted : Bool) : Engine :=
  let engine := { engine with budgetExhausted := engine.budgetExhausted || budgetExhausted }
  { engine.addSummary with active := none, phase := .finished }

/-- Drops all that belongs to the current phase. Its branches are archived without their candidates,
which name checkpoints of the phase. -/
def clearPhase (engine : Engine) : Engine :=
  { engine with
    archive := engine.archive ++
      engine.branches.inTraceOrder.map fun branch => { branch with candidates := ∅ }
    branches := ∅
    graph := .empty engine.input
    checkpoints := #[]
    active := none
    rollbacksInPhase := 0
    tracedLength := 0 }

def nextOpen? (engine : Engine) : Option Nat :=
  (engine.branches.inTraceOrder.find? Branch.isOpen).map (·.position)

def hasOpen (engine : Engine) : Bool := engine.branches.inTraceOrder.any Branch.isOpen

/-- All branches that depend on the input or were flipped by chance. -/
def report (engine : Engine) : Report where
  phases := engine.summaries
  branches := ((engine.archive ++ engine.branches.inTraceOrder).filter fun branch =>
    branch.dependsOnInput || branch.isResolved).map Branch.summary
  rollbacks := engine.rollbacks
  budgetExhausted := engine.budgetExhausted

end Engine

end BranchSteer
