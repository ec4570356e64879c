import BranchSteer.Instruction
import BranchSteer.Memory
import BranchSteer.Program.Basic

/-!
The synthetic machine. It tells what its next operation reads, writes and decides before it executes
it: `decode` from the operation alone, `execution` with the help of the current state.

An operation that fails leaves the machine as it was.
-/

namespace BranchSteer

abbrev Registers := Std.ExtTreeMap String UInt64

/-- A register state. Resuming there executes the instruction at its instruction pointer again. -/
structure Processor where
  instructionPointer : Nat
  registers : Registers
deriving DecidableEq

structure Machine where
  program : Program
  processor : Processor
  memory : Memory
  halted : Bool
  executed : Nat

def codeBase : Nat := 0x400000

def instructionSize : Nat := 4

def flagsName : String := "flags"

def resultName : String := "r0"

/-- The address of the operation at a place of the program, as far as addresses can tell it. -/
def operationAddress (index : Nat) : Nat := (codeBase + instructionSize * index) % addressSpace

namespace Processor

def register (processor : Processor) (name : String) : UInt64 :=
  processor.registers[name]?.getD 0

def setRegister (processor : Processor) (name : String) (value : UInt64) : Processor :=
  { processor with registers := processor.registers.insert name value }

end Processor

namespace Machine

def load (program : Program) : Except Fault Machine :=
  match (Memory.zero program.memorySize.toNat).write program.inputAddress.toNat program.input with
  | .error fault => .error (.during .loadingInput fault)
  | .ok memory => .ok {
      program := program
      processor := ⟨codeBase, ∅⟩
      memory := memory
      halted := false
      executed := 0 }

def instructionPointer (machine : Machine) : Nat := machine.processor.instructionPointer

def register (machine : Machine) (name : String) : UInt64 := machine.processor.register name

def operation (machine : Machine) : Except Fault Operation :=
  let pointer := machine.instructionPointer
  if codeBase ≤ pointer ∧ (pointer - codeBase) % instructionSize = 0 then
    match machine.program.operations[(pointer - codeBase) / instructionSize]? with
    | some operation => .ok operation
    | none => .error (.noOperation pointer)
  else .error (.invalidInstructionPointer pointer)

def describe (address : Nat) (operation : Operation) : Instruction :=
  let instruction := (Instruction.plain address operation.text).within "program" "main"
  let next := address + instructionSize
  match operation with
  | .move destination _ => instruction.writing [destination]
  | .loadByte destination _ => (instruction.writing [destination]).accessingMemory true false
  | .storeByte source _ => (instruction.reading [source]).accessingMemory false true
  | .add destination source | .xor destination source =>
    (instruction.reading [destination, source]).writing [destination]
  | .addImmediate destination _ => (instruction.reading [destination]).writing [destination]
  | .compare left right => (instruction.reading [left, right]).writing [flagsName]
  | .compareImmediate left _ => (instruction.reading [left]).writing [flagsName]
  | .jumpIfEqual target | .jumpIfNotEqual target =>
    ((instruction.reading [flagsName]).writing [instructionPointerName]).branching
      (operationAddress target.toNat) next
  | .jump _ | .halt => instruction
  | .syscall => ((instruction.reading [resultName]).writing [resultName]).asSyscall

@[inline] def decode (machine : Machine) : Except Fault Instruction :=
  machine.operation.map (describe machine.instructionPointer)

def foresee (processor : Processor) (operation : Operation) : Execution :=
  let execution := Execution.plain processor.instructionPointer
  match operation with
  | .loadByte _ address => { execution with reads := [⟨address.toNat, 1⟩] }
  | .storeByte _ address => { execution with writes := [⟨address.toNat, 1⟩] }
  | .jumpIfEqual _ => { execution with taken := some (processor.register flagsName = 1) }
  | .jumpIfNotEqual _ => { execution with taken := some (processor.register flagsName = 0) }
  | _ => execution

def execution (machine : Machine) : Except Fault Execution :=
  machine.operation.map (foresee machine.processor)

def continueAt (machine : Machine) (pointer : Nat) : Machine :=
  { machine with
    processor := { machine.processor with instructionPointer := pointer }
    executed := machine.executed + 1 }

def setRegister (machine : Machine) (name : String) (value : UInt64) : Machine :=
  { machine with processor := machine.processor.setRegister name value }

private def flagValue (equal : Bool) : UInt64 := if equal then 1 else 0

def perform (machine : Machine) (operation : Operation) : Except Fault Machine :=
  let next := machine.instructionPointer + instructionSize
  match operation with
  | .move destination value => .ok ((machine.setRegister destination value).continueAt next)
  | .loadByte destination address =>
    match machine.memory.read address.toNat 1 with
    | .error fault => .error fault
    | .ok values =>
      .ok ((machine.setRegister destination (values.headD 0).toUInt64).continueAt next)
  | .storeByte source address =>
    match machine.memory.write address.toNat [(machine.register source).toUInt8] with
    | .error fault => .error fault
    | .ok memory => .ok ({ machine with memory := memory }.continueAt next)
  | .add destination source =>
    let sum := machine.register destination + machine.register source
    .ok ((machine.setRegister destination sum).continueAt next)
  | .addImmediate destination value =>
    .ok ((machine.setRegister destination (machine.register destination + value)).continueAt next)
  | .xor destination source =>
    let difference := machine.register destination ^^^ machine.register source
    .ok ((machine.setRegister destination difference).continueAt next)
  | .compare left right =>
    let equal := flagValue (machine.register left = machine.register right)
    .ok ((machine.setRegister flagsName equal).continueAt next)
  | .compareImmediate left value =>
    let equal := flagValue (machine.register left = value)
    .ok ((machine.setRegister flagsName equal).continueAt next)
  | .jumpIfEqual target =>
    .ok (machine.continueAt
      (if machine.register flagsName = 1 then operationAddress target.toNat else next))
  | .jumpIfNotEqual target =>
    .ok (machine.continueAt
      (if machine.register flagsName = 0 then operationAddress target.toNat else next))
  | .jump target => .ok (machine.continueAt (operationAddress target.toNat))
  | .syscall => .ok ((machine.setRegister resultName 0).continueAt next)
  | .halt => .ok ({ machine with halted := true }.continueAt machine.instructionPointer)

def step (machine : Machine) : Except Fault Machine :=
  match machine.operation with
  | .ok operation => machine.perform operation
  | .error fault => .error fault

def resume (machine : Machine) (processor : Processor) : Machine :=
  { machine with processor := processor, halted := false }

end Machine

end BranchSteer
