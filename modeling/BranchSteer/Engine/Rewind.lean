import BranchSteer.Engine.State

/-!
Taking the process back to a checkpoint of the current phase, and starting a new phase from the first
of them with an input that some branch was flipped by.
-/

namespace BranchSteer.Engine

def logRanges (memory : Memory) : List MemoryRange → Array Checkpoint →
    Array Checkpoint × Option Fault
  | [], checkpoints => (checkpoints, none)
  | access :: rest, checkpoints =>
    match Checkpoint.logArmed memory access checkpoints with
    | (tracked, none) => logRanges memory rest tracked
    | (tracked, some fault) => (tracked, some fault)

/-- Takes the process back to a checkpoint and perturbs the input. Earlier checkpoints log the
perturbation, later ones are disarmed. Ends the run if the budget of rollbacks is used up. -/
def rewind (engine : Engine) (memory : Memory) (id : Nat) (perturbation : Perturbation) :
    Reaction :=
  if engine.config.rollbackLimit ≤ engine.rollbacks then
    let engine := engine.inform
      ("Rollback budget of " ++ toString engine.config.rollbackLimit ++ " exhausted")
    ⟨engine.finish true, memory, .ok .stop⟩
  else
    match engine.checkpoints[id]? with
    | none => ⟨engine, memory, .error (.violation (.noCheckpoint id))⟩
    | some target =>
      if !target.armed then ⟨engine, memory, .error (.violation (.disarmed id))⟩
      else
        let ranges := perturbation.ranges engine.input
        match logRanges memory ranges (engine.checkpoints.take id) with
        | (earlier, some fault) =>
          let engine := { engine with checkpoints := earlier ++ engine.checkpoints.drop id }
          ⟨engine, memory, .error fault⟩
        | (earlier, none) =>
          let later := (engine.checkpoints.drop (id + 1)).map Checkpoint.disarm
          let rollback := target.rollback memory engine.input perturbation engine.random
          let engine := { engine with
            checkpoints := earlier.push rollback.checkpoint ++ later
            random := rollback.random }
          match rollback.result with
          | .error fault => ⟨engine, rollback.memory, .error fault⟩
          | .ok processor =>
            let engine := { engine with
              position := Position.previous target.position
              rollbacks := engine.rollbacks + 1
              rollbacksInPhase := engine.rollbacksInPhase + 1 }
            ⟨engine, rollback.memory, .ok (.rollback processor)⟩

/-- Starts a tainting phase with an input at the first checkpoint of the current phase. Nothing before
it depends on the input, so the trace up to it stays valid. -/
def explore (engine : Engine) (memory : Memory) (seed : List UInt8) : Reaction :=
  if engine.checkpoints.isEmpty then
    let engine := engine.inform "No checkpoint to restart the traced program from"
    ⟨engine.finish false, memory, .ok .stop⟩
  else
    let reaction := engine.rewind memory 0 (.input seed)
    match reaction.result with
    | .ok (.rollback _) =>
      let restart := reaction.engine.position
      let fresh := reaction.engine.clearPhase
      let engine := { fresh with
        trace := fresh.trace.take restart
        basePosition := restart
        baseInput := seed
        phaseNumber := fresh.phaseNumber + 1
        phase := .tainting }
      { reaction with
        engine := engine.inform ("Starting tainting phase " ++ toString engine.phaseNumber ++
          " at position " ++ toString (Position.next restart)) }
    | _ => reaction

/-- The branches behind a search for an input that leads to an outcome not observed yet, and that
outcome and input. All resolved branches up to the found one are marked as explored. -/
def pickSeed (covered : Outcomes) :
    List Branch → List Branch × Option (Nat × Bool × List UInt8)
  | [] => ([], none)
  | branch :: rest =>
    if !branch.isResolved || branch.explored then
      let (rest, seed) := pickSeed covered rest
      (branch :: rest, seed)
    else
      let explored := branch.explore
      if covered.contains branch.address !branch.taken then
        let (rest, seed) := pickSeed covered rest
        (explored :: rest, seed)
      else
        match branch.flippingInput with
        | some input => (explored :: rest, some (branch.address, !branch.taken, input))
        | none =>
          let (rest, seed) := pickSeed covered rest
          (explored :: rest, seed)

def branchesOf (branches : List Branch) : Flow.Branches :=
  Std.ExtTreeMap.ofList (branches.map fun branch => (branch.position, branch))

def takeSeed (engine : Engine) : Engine × Option (List UInt8) :=
  match pickSeed engine.seenOutcomes engine.branches.inTraceOrder with
  | (current, some (address, taken, input)) =>
    ({ engine with
        branches := branchesOf current
        seenOutcomes := engine.seenOutcomes.insert address taken }, some input)
  | (current, none) =>
    match pickSeed engine.seenOutcomes engine.archive with
    | (archived, some (address, taken, input)) =>
      ({ engine with
          branches := branchesOf current
          archive := archived
          seenOutcomes := engine.seenOutcomes.insert address taken }, some input)
    | (archived, none) =>
      ({ engine with branches := branchesOf current, archive := archived }, none)

def concludePhase (engine : Engine) : Decision :=
  let engine := engine.addSummary
  if engine.config.phaseLimit ≠ 0 ∧ engine.config.phaseLimit ≤ engine.phaseNumber + 1 then
    let engine := engine.inform
      ("Phase limit of " ++ toString engine.config.phaseLimit ++ " phases reached")
    ⟨engine.finish false, .stop⟩
  else
    match engine.takeSeed with
    | (engine, some seed) => ⟨engine, .restart seed⟩
    | (engine, none) =>
      ⟨(engine.inform "No unexplored branch outcome left").finish false, .stop⟩

end BranchSteer.Engine
