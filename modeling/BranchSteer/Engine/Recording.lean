import BranchSteer.Engine.Resolving

/-!
The tainting phase: recording the trace, its data flow, its checkpoints and its branches, and finding
out at its end what each branch depends on.
-/

namespace BranchSteer.Engine

def inputReads (engine : Engine) (execution : Execution) : Std.ExtTreeSet Nat :=
  Std.ExtTreeSet.ofList
    ((execution.reads.flatMap MemoryRange.addresses).filter engine.input.contains)

def recordInstruction (engine : Engine) (execution : Execution) (processor : Processor) : Engine :=
  let position := Position.next engine.position
  let reads := engine.inputReads execution
  { engine with
    position := position
    trace := engine.trace.push execution.address
    checkpoints :=
      if reads.isEmpty then engine.checkpoints
      else engine.checkpoints.push (.create position processor reads) }

def recordBranch (engine : Engine) (address : Nat) (taken : Bool) : Engine :=
  let branch := Branch.create engine.phaseNumber address engine.position taken
  engine.setBranch (branch.remember taken engine.baseInput)

/-- Adds what a branch depends on apart from the input, and the checkpoints to flip it from. A branch
at the end of the trace has no recorded successor, so that a flip would not show. -/
def survey (engine : Engine) (checkpoints : List Checkpoint) (branch : Branch) :
    Except Fault Branch :=
  if !branch.dependsOnInput then .ok branch
  else
    let others := (engine.graph.importsBehind branch.position).filter fun address =>
      !engine.input.contains address
    match { branch with otherDependencies := others }.chooseCandidates checkpoints with
    | (_, .error fault) => .error fault
    | (selected, .ok _) =>
      .ok (if engine.position ≤ selected.position then selected.bypass else selected)

def surveyAll (engine : Engine) : Except Fault Engine :=
  match engine.graph.attribution engine.branches with
  | .error fault => .error fault
  | .ok attributed =>
    match attributed.inTraceOrder.mapM (engine.survey engine.checkpoints.toList) with
    | .error fault => .error fault
    | .ok surveyed =>
      .ok { engine with
        branches := branchesOf surveyed
        seenOutcomes := surveyed.foldl (fun outcomes branch =>
          outcomes.insert branch.address branch.taken) engine.seenOutcomes }

def recordingSummary (engine : Engine) : String :=
  "Phase " ++ toString engine.phaseNumber ++ " traced " ++ toString engine.tracedLength ++
    " instructions: " ++ toString engine.checkpoints.size ++ " checkpoints, " ++
    toString (engine.countBranches Branch.dependsOnInput) ++ " of " ++
    toString engine.branches.size ++ " branches input dependent, graph with " ++
    toString engine.graph.vertices.size ++ " vertices and " ++
    toString engine.graph.edges.size ++ " edges"

def endTainting (engine : Engine) : Decision :=
  let engine := { engine with
    tracedLength := Position.stepsSince engine.position engine.basePosition }
  match engine.surveyAll with
  | .error fault => ⟨engine, .fail fault⟩
  | .ok surveyed =>
    let engine := { surveyed.note (.debug surveyed.recordingSummary "Tainting") with
      phase := .rollbacking }
    match engine.nextOpen? with
    | some position => engine.beginResolution position
    | none => engine.concludePhase

/-- Decides about an instruction of the tainting phase. Its checkpoint comes before its own writes, so
that a rollback executes it again on the memory that it found. -/
def taint (engine : Engine) (instruction : Instruction) (execution : Execution)
    (processor : Processor) : Decision :=
  if engine.config.traceLimit ≤ Position.stepsSince engine.position engine.basePosition then
    let engine := engine.inform
      ("Trace length limit of " ++ toString engine.config.traceLimit ++ " instructions reached")
    engine.endTainting
  else if instruction.isSyscall && engine.config.endAtSyscall && !engine.checkpoints.isEmpty then
    let message := LogEntry.debug "Tainting phase ended at system call" "Tainting"
    (engine.note (message.about execution.address)).endTainting
  else ⟨engine.recordInstruction execution processor, .record instruction execution⟩

def enter (engine : Engine) (memory : Memory) (instruction : Instruction) (execution : Execution) :
    Reaction :=
  match engine.logWrites memory execution.writes with
  | (engine, some fault) => ⟨engine, memory, .error fault⟩
  | (engine, none) =>
    let engine := { engine with
      graph := engine.graph.propagate instruction execution engine.position }
    if !instruction.isBranch then ⟨engine, memory, .ok .proceed⟩
    else
      match execution.taken with
      | none => ⟨engine, memory, .error (.missingOutcome execution.address)⟩
      | some taken => ⟨engine.recordBranch execution.address taken, memory, .ok .proceed⟩

end BranchSteer.Engine
