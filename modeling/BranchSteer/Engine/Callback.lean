import BranchSteer.Engine.Recording

/-!
What the host of the observed process calls: once with the location of the input, before every
instruction, and before the program ends. Of the process itself the engine sees the register state and
changes the memory alone: it decides from its own state what it wants done, and then does it.
-/

namespace BranchSteer

namespace Engine

def receiveInput (engine : Engine) (memory : Memory) (input : InputBuffer) : Except Fault Engine :=
  if engine.phase ≠ .capturing then .error .inputAlreadyDelivered
  else if input.end?.isNone then .error (.inputWrapsAround input)
  else
    match memory.read input.address input.length with
    | .error fault => .error (.during .readingInput fault)
    | .ok bytes =>
      let engine := { engine with
        baseInput := bytes
        input := input
        graph := .empty input
        phase := .tainting }
      .ok (engine.inform ("Captured " ++ toString input.length ++ " input bytes at " ++
        hexadecimal input.address))

@[inline] def decide (engine : Engine) (processor : Processor) (instruction : Instruction)
    (execution : Execution) : Decision :=
  match engine.phase with
  | .capturing => ⟨engine, .proceed []⟩
  | .finished => ⟨engine, .stop⟩
  | .tainting =>
    match execution.escapingAccess? with
    | some access => ⟨engine, .fail (.accessWrapsAround access)⟩
    | none => engine.taint instruction execution processor
  | .rollbacking =>
    match execution.escapingAccess? with
    | some access => ⟨engine, .fail (.accessWrapsAround access)⟩
    | none => engine.replay execution

def decideExit (engine : Engine) : Decision :=
  match engine.phase with
  | .capturing => ⟨engine, .stop⟩
  | .finished => ⟨engine, .stop⟩
  | .tainting => engine.endTainting
  | .rollbacking => engine.replayExit

end Engine

def Decision.carryOut (decision : Decision) (memory : Memory) : Reaction :=
  match decision with
  | ⟨engine, .proceed writes⟩ => engine.proceed memory writes
  | ⟨engine, .record instruction execution⟩ => engine.enter memory instruction execution
  | ⟨engine, .attempt resolution⟩ => engine.perturb memory resolution
  | ⟨engine, .restore checkpoint⟩ => engine.rewind memory checkpoint .none
  | ⟨engine, .restart seed⟩ => engine.explore memory seed
  | ⟨engine, .stop⟩ => ⟨engine, memory, .ok .stop⟩
  | ⟨engine, .fail fault⟩ => ⟨engine, memory, .error fault⟩

namespace Engine

@[inline] def beforeInstruction (engine : Engine) (memory : Memory) (processor : Processor)
    (instruction : Instruction) (execution : Execution) : Reaction :=
  (engine.decide processor instruction execution).carryOut memory

def beforeExit (engine : Engine) (memory : Memory) : Reaction :=
  engine.decideExit.carryOut memory

end Engine

end BranchSteer
