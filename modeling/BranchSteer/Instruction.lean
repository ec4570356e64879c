import BranchSteer.Operand

/-!
What is known about an instruction from its address alone, and what only one of its executions tells.

`Instruction.sources` and `Instruction.destinations` combine both into the operands that data flows
from and to.
-/

namespace BranchSteer

/-- The register that every conditional branch writes by deciding where execution goes on. -/
def instructionPointerName : String := "ip"

structure BranchTargets where
  target : Nat
  fallthrough : Nat
deriving DecidableEq, Repr

structure Instruction where
  address : Nat
  disassembly : String
  moduleName : String
  functionName : String
  isSyscall : Bool
  readsMemory : Bool
  writesMemory : Bool
  readRegisters : Std.ExtTreeSet String
  writtenRegisters : Std.ExtTreeSet String
  branch : Option BranchTargets
deriving DecidableEq

structure Execution where
  address : Nat
  reads : List MemoryRange
  writes : List MemoryRange
  taken : Option Bool
deriving DecidableEq, Repr

namespace Instruction

def plain (address : Nat) (disassembly : String) : Instruction where
  address := address
  disassembly := disassembly
  moduleName := ""
  functionName := ""
  isSyscall := false
  readsMemory := false
  writesMemory := false
  readRegisters := ∅
  writtenRegisters := ∅
  branch := none

def within (instruction : Instruction) (moduleName functionName : String) : Instruction :=
  { instruction with moduleName := moduleName, functionName := functionName }

def reading (instruction : Instruction) (names : List String) : Instruction :=
  { instruction with readRegisters := instruction.readRegisters.insertMany names }

def writing (instruction : Instruction) (names : List String) : Instruction :=
  { instruction with writtenRegisters := instruction.writtenRegisters.insertMany names }

def branching (instruction : Instruction) (target fallthrough : Nat) : Instruction :=
  { instruction with branch := some ⟨target, fallthrough⟩ }

def asSyscall (instruction : Instruction) : Instruction :=
  { instruction with isSyscall := true }

def accessingMemory (instruction : Instruction) (reads writes : Bool) : Instruction :=
  { instruction with readsMemory := reads, writesMemory := writes }

def isBranch (instruction : Instruction) : Bool := instruction.branch.isSome

def operandsOf (names : Std.ExtTreeSet String) (accesses : List MemoryRange) :
    Std.ExtTreeSet Operand :=
  (Std.ExtTreeSet.ofList (names.toList.map Operand.register)).insertMany
    ((accesses.flatMap MemoryRange.addresses).map Operand.memory)

def sources (instruction : Instruction) (execution : Execution) : Std.ExtTreeSet Operand :=
  operandsOf instruction.readRegisters execution.reads

/-- A conditional branch writes the instruction pointer whether its description says so or not. -/
def destinations (instruction : Instruction) (execution : Execution) : Std.ExtTreeSet Operand :=
  let written := operandsOf instruction.writtenRegisters execution.writes
  if instruction.isBranch then written.insert (.register instructionPointerName)
  else written

def text (instruction : Instruction) : String :=
  hexadecimal instruction.address ++ ": " ++ instruction.disassembly

end Instruction

namespace Execution

def plain (address : Nat) : Execution := ⟨address, [], [], none⟩

def escapingAccess? (execution : Execution) : Option MemoryRange :=
  (execution.reads ++ execution.writes).find? (·.end?.isNone)

end Execution

end BranchSteer
