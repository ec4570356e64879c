import BranchSteer.Engine.Callback

/-!
A machine under the control of the engine.

A turn hands the next instruction, or the end of the program, to the engine and follows its answer. Each
turn but the last executes an operation or rolls back, and both are limited, so a run takes no more than
`turnLimit` turns.
-/

namespace BranchSteer

structure Session where
  engine : Engine
  machine : Machine

inductive Turn
  | running (session : Session)
  | ended (session : Session) (result : Except Fault Unit)

namespace Session

def start (config : Config) (machine : Machine) (drawn : Random := default) : Session :=
  ⟨.initial config (config.generator drawn), machine⟩

/-- Calls the engine with an instruction that need not be the machine's own, and takes over what it
did to the memory. -/
@[inline] def beforeInstruction (session : Session) (instruction : Instruction) (execution : Execution) :
    Session × Except Fault Action :=
  match session with
  | ⟨engine, machine⟩ =>
    match engine.beforeInstruction machine.memory machine.processor instruction execution with
    | ⟨engine, memory, result⟩ => (⟨engine, { machine with memory := memory }⟩, result)

def beforeExit (session : Session) : Session × Except Fault Action :=
  match session with
  | ⟨engine, machine⟩ =>
    match engine.beforeExit machine.memory with
    | ⟨engine, memory, result⟩ => (⟨engine, { machine with memory := memory }⟩, result)

def react (session : Session) : Session × Except Fault Action :=
  if session.machine.halted then session.beforeExit
  else
    match session.machine.decode with
    | .error fault => (session, .error fault)
    | .ok instruction =>
      match session.machine.execution with
      | .error fault => (session, .error fault)
      | .ok execution => session.beforeInstruction instruction execution

def step (session : Session) : Except Fault Session :=
  session.machine.step.map fun machine => { session with machine := machine }

def resume (session : Session) (processor : Processor) : Session :=
  { session with machine := session.machine.resume processor }

def turn (stepLimit : Nat) (session : Session) : Turn :=
  if stepLimit < session.machine.executed then
    .ended session (.error (.stepLimitReached stepLimit))
  else
    match session.react with
    | (session, .error fault) => .ended session (.error fault)
    | (session, .ok .stop) => .ended session (.ok ())
    | (session, .ok (.rollback processor)) => .running (session.resume processor)
    | (session, .ok .proceed) =>
      if session.machine.halted then .ended session (.ok ())
      else
        match session.step with
        | .ok session => .running session
        | .error fault => .ended session (.error fault)

def runTurns (stepLimit : Nat) : Nat → Session → Session × Except Fault Unit
  | 0, session => (session, .error (.stepLimitReached stepLimit))
  | turns + 1, session =>
    match session.turn stepLimit with
    | .running session => runTurns stepLimit turns session
    | .ended session result => (session, result)

/-- A turn for each operation up to the one that exceeds the limit, one for each rollback and the last
one. -/
def turnLimit (stepLimit : Nat) (session : Session) : Nat :=
  stepLimit + session.engine.config.rollbackLimit + 2

def capture (session : Session) (input : InputBuffer) : Except Fault Session :=
  (session.engine.receiveInput session.machine.memory input).map fun engine =>
    { session with engine := engine }

def run (stepLimit : Nat) (session : Session) : Session × Except Fault Unit :=
  match session.capture session.machine.program.inputBuffer with
  | .error fault => (session, .error fault)
  | .ok session => session.runTurns stepLimit (session.turnLimit stepLimit)

end Session

end BranchSteer
