import BranchSteer.Engine.Rewind

/-!
The rollbacking phase: flipping the pending branches one by one in trace order.

Without an active branch the process follows the recorded trace, with the input of the phase, up to
the next pending branch. With an active branch it was taken back to a candidate checkpoint with a
perturbed input. Leaving the trace right behind the branch means that it flipped; leaving it earlier
may flip another branch, and reaching the recorded successor means that the attempt failed.
-/

namespace BranchSteer.Engine

/-- All values but the one of the phase in random order, if exactly one byte is perturbed. -/
def makeSchedule (engine : Engine) (perturbed : Std.ExtTreeSet Nat) :
    List UInt8 × Random :=
  match perturbed.toList with
  | [address] =>
    let base := (engine.input.index? address).bind fun offset => engine.baseInput[offset]?
    let values := ((List.range 256).map UInt8.ofNat).filter fun value => some value ≠ base
    let (shuffled, random) := engine.random.shuffle values.toArray
    (shuffled.toList.reverse, random)
  | _ => ([], engine.random)

def prepare (engine : Engine) (branch : Branch) (resolution : Resolution) : Engine × Resolution :=
  let perturbed := (branch.candidateBytes resolution.checkpoint).insertMany
    resolution.released.toList
  let (schedule, random) := engine.makeSchedule perturbed
  ({ engine with random := random },
    { resolution with perturbed := perturbed, schedule := schedule, attempts := 0 })

def patchInput (engine : Engine) (memory : Memory) (perturbed : Std.ExtTreeSet Nat) : List UInt8 :=
  engine.baseInput.mapIdx fun offset byte =>
    let address := engine.input.address + offset
    if perturbed.contains address then memory.byte address else byte

def nextPerturbation (resolution : Resolution) : Perturbation :=
  match resolution.schedule with
  | value :: _ =>
    .assign (Std.ExtTreeMap.ofList (resolution.perturbed.toList.map fun address => (address, value)))
  | [] => .randomize resolution.perturbed

def perturb (engine : Engine) (memory : Memory) (resolution : Resolution) : Reaction :=
  let attempted := { resolution with
    attempts := resolution.attempts + 1
    schedule := resolution.schedule.tail }
  let reaction := { engine with active := some attempted }.rewind memory resolution.checkpoint
    (nextPerturbation resolution)
  match reaction.result with
  | .ok (.rollback _) =>
    let input := engine.patchInput reaction.memory resolution.perturbed
    { reaction with
      engine := { reaction.engine with active := some { attempted with attemptedInput := input } } }
  | _ => reaction

def beginAt (engine : Engine) (resolution : Resolution) : Decision :=
  let engine := { engine with active := some resolution }
  match engine.branches[resolution.branch]? with
  | none => ⟨engine, .fail .noActiveBranch⟩
  | some branch =>
    let (engine, resolution) := engine.prepare branch resolution
    ⟨engine, .attempt resolution⟩

def beginResolution (engine : Engine) (position : Nat) : Decision :=
  match engine.branches[position]?.bind Branch.latestCandidate? with
  | none => ⟨engine, .fail (.noCandidate position)⟩
  | some checkpoint =>
    engine.beginAt {
      branch := position
      checkpoint := checkpoint
      attempts := 0
      perturbed := ∅
      released := ∅
      schedule := []
      attemptedInput := engine.baseInput }

def release (engine : Engine) : Decision :=
  match engine.active with
  | none => ⟨engine, .fail .noActiveBranch⟩
  | some resolution =>
    let engine := { engine with active := none }
    if engine.hasOpen then ⟨engine, .restore resolution.checkpoint⟩
    else engine.concludePhase

def noteBranch (engine : Engine) (branch : Branch) (text : String) : Engine :=
  engine.note ((LogEntry.debug text "Resolver").about branch.address)

def setBranch (engine : Engine) (branch : Branch) : Engine :=
  { engine with branches := engine.branches.insert branch.position branch }

def isExhausted (engine : Engine) (resolution : Resolution) : Bool :=
  engine.config.attemptLimit ≤ resolution.attempts ||
    (resolution.perturbed.size = 1 && resolution.schedule.isEmpty)

def retry (engine : Engine) : Decision :=
  match engine.active with
  | none => ⟨engine, .fail .noActiveBranch⟩
  | some resolution =>
    if !engine.isExhausted resolution then ⟨engine, .attempt resolution⟩
    else
      match engine.branches[resolution.branch]? with
      | none => ⟨engine, .fail .noActiveBranch⟩
      | some branch =>
        let dropped := branch.candidateBytes resolution.checkpoint
        let remaining := branch.withoutCandidate resolution.checkpoint
        match remaining.latestCandidate? with
        | some next =>
          let engine := (engine.setBranch remaining).noteBranch branch
            ("No flip after " ++ toString resolution.attempts ++ " attempts at checkpoint " ++
              toString resolution.checkpoint ++ ", moving to checkpoint " ++ toString next)
          engine.beginAt { resolution with
            checkpoint := next
            released := resolution.released.insertMany dropped.toList }
        | none =>
          let engine := (engine.setBranch remaining.bypass).noteBranch branch
            ("Bypassed branch at position " ++ toString resolution.branch)
          engine.release

def acceptFlip (engine : Engine) : Decision :=
  match engine.active with
  | none => ⟨engine, .fail .noActiveBranch⟩
  | some resolution =>
    match engine.branches[resolution.branch]? with
    | none => engine.release
    | some branch =>
      let engine := (engine.setBranch (branch.resolve resolution.attemptedInput)).noteBranch branch
        ("Resolved branch at position " ++ toString resolution.branch ++ " after " ++
          toString resolution.attempts ++ " attempts")
      engine.release

/-- Resolves the branch in front of a divergence, if it is open, by the input of an attempt. -/
def creditDivergence (engine : Engine) (resolution : Resolution) : Engine :=
  match engine.branches[Position.previous engine.position]? with
  | some branch =>
    if branch.isUndecided then
      (engine.setBranch (branch.resolve resolution.attemptedInput)).noteBranch branch
        ("Branch at position " ++ toString (Position.previous engine.position) ++
          " flipped while resolving another branch")
    else engine
  | none => engine

def logWrites (engine : Engine) (memory : Memory) : List MemoryRange → Engine × Option Fault
  | [] => (engine, none)
  | access :: rest =>
    let checkpoints := engine.checkpoints
    let engine := { engine with checkpoints := #[] }
    match Checkpoint.logArmed memory access checkpoints with
    | (tracked, none) => logWrites { engine with checkpoints := tracked } memory rest
    | (tracked, some fault) => ({ engine with checkpoints := tracked }, some fault)

def proceed (engine : Engine) (memory : Memory) (writes : List MemoryRange) : Reaction :=
  match engine.logWrites memory writes with
  | (engine, none) => ⟨engine, memory, .ok .proceed⟩
  | (engine, some fault) => ⟨engine, memory, .error fault⟩

def armHere (engine : Engine) : Engine :=
  let position := engine.position
  if engine.checkpoints.any (·.position = position) then
    { engine with
      checkpoints := engine.checkpoints.map fun checkpoint =>
        if checkpoint.position = position then checkpoint.arm else checkpoint }
  else engine

def follow (engine : Engine) (execution : Execution) (expected : Option Nat) : Decision :=
  match expected with
  | none => ⟨engine, .fail (.violation (.pastTrace engine.position))⟩
  | some expected =>
    if expected ≠ execution.address then
      ⟨engine, .fail (.violation (.divergence engine.position expected execution.address))⟩
    else
      let engine := engine.armHere
      match engine.branches[engine.position]? with
      | some branch =>
        if branch.isOpen then engine.beginResolution engine.position
        else ⟨engine, .proceed execution.writes⟩
      | none => ⟨engine, .proceed execution.writes⟩

def replay (engine : Engine) (execution : Execution) : Decision :=
  let engine := { engine with position := Position.next engine.position }
  let expected := (Position.index? engine.position).bind fun index => engine.trace[index]?
  match engine.active with
  | none => engine.follow execution expected
  | some resolution =>
    if engine.position = Position.next resolution.branch then
      if expected = some execution.address then engine.retry
      else engine.acceptFlip
    else if expected ≠ some execution.address then
      (engine.creditDivergence resolution).retry
    else ⟨engine, .proceed execution.writes⟩

def replayExit (engine : Engine) : Decision :=
  if engine.active.isSome then engine.retry
  else if engine.trace.size ≤ engine.position then engine.concludePhase
  else ⟨engine, .fail (.violation (.earlyExit engine.position))⟩

end BranchSteer.Engine
