import BranchSteer.Proofs.MachineSteps
import BranchSteer.Proofs.Versions

/-!
What a step does to the values of operands. It changes nothing but its destinations, and what it leaves there
is determined by its sources. The pseudo register of a conditional branch is an exception: the branch is said
to write it, and leaves the register of this name as it is.
-/

namespace BranchSteer

namespace Instruction

theorem mem_operandsOf_register (names : Std.ExtTreeSet String) (accesses : List MemoryRange)
    (name : String) : Operand.register name ∈ operandsOf names accesses ↔ name ∈ names := by
  simp only [operandsOf, Std.ExtTreeSet.mem_insertMany_list, Std.ExtTreeSet.mem_ofList,
    List.contains_iff_mem, List.mem_map]
  constructor
  · rintro (⟨other, member, same⟩ | ⟨address, _, impossible⟩)
    · cases same
      exact Std.ExtTreeSet.mem_toList.mp member
    · cases impossible
  · exact fun member => Or.inl ⟨name, Std.ExtTreeSet.mem_toList.mpr member, rfl⟩

theorem register_mem_sources (instruction : Instruction) (execution : Execution) (name : String) :
    Operand.register name ∈ instruction.sources execution ↔ name ∈ instruction.readRegisters :=
  mem_operandsOf_register _ _ _

theorem register_mem_destinations (instruction : Instruction) (execution : Execution)
    (name : String) : Operand.register name ∈ instruction.destinations execution ↔
      name ∈ instruction.writtenRegisters ∨ instruction.isBranch ∧ name = instructionPointerName := by
  unfold destinations
  split
  · rename_i branch
    rw [Std.ExtTreeSet.mem_insert, mem_operandsOf_register, Std.LawfulEqOrd.compare_eq_iff_eq,
      Operand.register.injEq]
    simp only [branch, true_and]
    rw [or_comm, eq_comm]
  · rename_i plain
    rw [mem_operandsOf_register]
    simp [plain]

end Instruction

namespace Operation

def readNames : Operation → List String
  | .move _ _ | .loadByte _ _ | .jump _ | .halt => []
  | .storeByte source _ => [source]
  | .add destination source | .xor destination source => [destination, source]
  | .addImmediate destination _ => [destination]
  | .compare left right => [left, right]
  | .compareImmediate left _ => [left]
  | .jumpIfEqual _ | .jumpIfNotEqual _ => [flagsName]
  | .syscall => [resultName]

def target? : Operation → Option String
  | .move destination _ | .loadByte destination _ | .add destination _ | .xor destination _
  | .addImmediate destination _ => some destination
  | .compare _ _ | .compareImmediate _ _ => some flagsName
  | .syscall => some resultName
  | .storeByte _ _ | .jumpIfEqual _ | .jumpIfNotEqual _ | .jump _ | .halt => none

def isBranch : Operation → Bool
  | .jumpIfEqual _ | .jumpIfNotEqual _ => true
  | _ => false

end Operation

namespace Machine

theorem isBranch_describe (address : Nat) (operation : Operation) :
    (describe address operation).isBranch = operation.isBranch := by
  cases operation <;> rfl

theorem mem_readRegisters (address : Nat) (operation : Operation) (name : String) :
    name ∈ (describe address operation).readRegisters ↔ name ∈ operation.readNames := by
  cases operation <;> simp [describe, Operation.readNames, Instruction.plain, Instruction.within,
    Instruction.reading, Instruction.writing, Instruction.accessingMemory, Instruction.branching,
    Instruction.asSyscall, Std.ExtTreeSet.mem_insertMany_list] <;> exact eq_comm

/-- What is declared as written is the register that changes. A conditional branch declares the pseudo
register instead. -/
theorem mem_writtenRegisters (address : Nat) (operation : Operation) (name : String) :
    name ∈ (describe address operation).writtenRegisters ↔
      operation.target? = some name ∨ operation.isBranch ∧ name = instructionPointerName := by
  cases operation <;> simp [describe, Operation.target?, Operation.isBranch, Instruction.plain,
    Instruction.within, Instruction.reading, Instruction.writing, Instruction.accessingMemory,
    Instruction.branching, Instruction.asSyscall] <;> exact eq_comm

def AgreeOn (left right : Machine) : Operand → Prop
  | .register name => left.register name = right.register name
  | .memory address => left.memory.byte address = right.memory.byte address

variable {machine next left right nextLeft nextRight : Machine} {operation : Operation}
  {operand : Operand}

theorem AgreeOn.symm (agree : AgreeOn left right operand) : AgreeOn right left operand := by
  cases operand <;> exact Eq.symm agree

theorem AgreeOn.trans {middle : Machine} (one : AgreeOn left middle operand)
    (two : AgreeOn middle right operand) : AgreeOn left right operand := by
  cases operand <;> exact Eq.trans one two

theorem entry_setRegister (machine : Machine) (name other : String) (value : UInt64)
    (pointer : Nat) :
    ((machine.setRegister name value).continueAt pointer).processor.registers[other]? =
      if name = other then some value else machine.processor.registers[other]? := by
  simp only [setRegister, continueAt, Processor.setRegister, Std.ExtTreeMap.getElem?_insert,
    Std.LawfulEqOrd.compare_eq_iff_eq]

theorem register_setRegister (machine : Machine) (name other : String) (value : UInt64)
    (pointer : Nat) : ((machine.setRegister name value).continueAt pointer).register other =
      if name = other then value else machine.register other := by
  rw [register, Processor.register, entry_setRegister]
  split <;> rfl

theorem entry_of_perform (performed : machine.perform operation = .ok next) {name : String}
    (other : operation.target? ≠ some name) :
    next.processor.registers[name]? = machine.processor.registers[name]? := by
  cases operation with
  | storeByte source address =>
      simp only [perform] at performed
      split at performed
      · simp at performed
      · rw [Except.ok.injEq] at performed
        exact performed ▸ rfl
  | loadByte destination address =>
      simp only [perform] at performed
      split at performed
      · simp at performed
      · rw [Except.ok.injEq] at performed
        subst performed
        rw [entry_setRegister, if_neg (by simpa [Operation.target?] using other)]
  | jumpIfEqual | jumpIfNotEqual | jump | halt =>
      simp only [perform, Except.ok.injEq] at performed
      exact performed ▸ rfl
  | _ =>
      simp only [perform, Except.ok.injEq] at performed
      subst performed
      rw [entry_setRegister, if_neg (by simpa [Operation.target?] using other)]

theorem register_of_perform (performed : machine.perform operation = .ok next) {name : String}
    (other : operation.target? ≠ some name) : next.register name = machine.register name := by
  simp only [register, Processor.register, entry_of_perform performed other]

theorem register_determined (one : left.perform operation = .ok nextLeft)
    (two : right.perform operation = .ok nextRight)
    (registers : ∀ name ∈ operation.readNames, left.register name = right.register name)
    (memory : ∀ {destination : String} {address : UInt64},
      operation = .loadByte destination address →
        left.memory.byte address.toNat = right.memory.byte address.toNat)
    {name : String} (target : operation.target? = some name) :
    nextLeft.register name = nextRight.register name := by
  cases operation with
  | storeByte | jumpIfEqual | jumpIfNotEqual | jump | halt => simp [Operation.target?] at target
  | loadByte destination address =>
      simp only [perform] at one two
      split at one
      · simp at one
      · rename_i values readable
        split at two
        · simp at two
        · rename_i others readableToo
          rw [Except.ok.injEq] at one two
          subst one two
          obtain ⟨_, rfl⟩ := (Memory.read_eq_ok_iff _ _ _ _).mp readable
          obtain ⟨_, rfl⟩ := (Memory.read_eq_ok_iff _ _ _ _).mp readableToo
          simp only [Operation.target?, Option.some.injEq] at target
          rw [register_setRegister, register_setRegister, if_pos target, if_pos target]
          simp [memory rfl]
  | _ =>
      simp only [perform, Except.ok.injEq] at one two
      subst one two
      simp_all [register_setRegister, Operation.readNames, Operation.target?]

theorem byte_determined (one : left.perform operation = .ok nextLeft)
    (two : right.perform operation = .ok nextRight)
    (registers : ∀ name ∈ operation.readNames, left.register name = right.register name)
    (small : left.memory.size < addressSpace) {byte : Nat}
    (written : (foresee left.processor operation).Writes byte) :
    nextLeft.memory.byte byte = nextRight.memory.byte byte := by
  cases operation with
  | storeByte source address =>
      simp only [perform] at one two
      split at one
      · simp at one
      · rename_i memory stored
        split at two
        · simp at two
        · rename_i other storedToo
          rw [Except.ok.injEq] at one two
          subst one two
          obtain ⟨inside, rfl⟩ := (Memory.write_eq_ok_iff _ _ _ _).mp stored
          obtain ⟨_, rfl⟩ := (Memory.write_eq_ok_iff _ _ _ _).mp storedToo
          have here : byte = address.toNat := (mem_single small inside byte).mp written
          have same := registers source (by simp [Operation.readNames])
          simp [continueAt, Memory.byte_setBytes, here, same]
  | _ => simp [foresee, Execution.plain, Execution.Writes] at written

variable {address : Nat} {processor : Processor}

theorem register_mem_sources {name : String} :
    Operand.register name ∈ (describe address operation).sources (foresee processor operation) ↔
      name ∈ operation.readNames := by
  rw [Instruction.register_mem_sources, mem_readRegisters]

theorem register_mem_destinations {name : String} :
    Operand.register name ∈ (describe address operation).destinations (foresee processor operation) ↔
      operation.target? = some name ∨ operation.isBranch ∧ name = instructionPointerName := by
  rw [Instruction.register_mem_destinations, mem_writtenRegisters, isBranch_describe, or_assoc,
    or_self]

theorem step_keeps (small : machine.memory.size < addressSpace)
    (found : machine.operation = .ok operation) (done : machine.step = .ok next)
    (unwritten : operand ∉ (describe address operation).destinations (foresee processor operation)) :
    AgreeOn next machine operand := by
  have foreseen : machine.execution = .ok (foresee machine.processor operation) := by
    simp [execution, found, Except.map]
  cases operand with
  | memory byte =>
      refine (step_framed small foreseen done).byte byte fun writes => ?_
      rw [Execution.Writes, (foresee_accesses machine.processor processor operation).2] at writes
      exact unwritten ((Instruction.mem_destinations _ _ byte).mpr writes)
  | register name =>
      simp only [step, found] at done
      exact register_of_perform done fun target =>
        unwritten (register_mem_destinations.mpr (Or.inl target))

/-- What a step leaves in its destinations is determined by its sources, unless it is a conditional
branch. -/
theorem step_determined (small : left.memory.size < addressSpace)
    (one : left.operation = .ok operation) (two : right.operation = .ok operation)
    (doneLeft : left.step = .ok nextLeft) (doneRight : right.step = .ok nextRight)
    (agree : ∀ source ∈ (describe address operation).sources (foresee left.processor operation),
      AgreeOn left right source)
    (written : operand ∈ (describe address operation).destinations
      (foresee left.processor operation)) (plain : ¬ operation.isBranch) :
    AgreeOn nextLeft nextRight operand := by
  have registers : ∀ name ∈ operation.readNames, left.register name = right.register name :=
    fun name member => agree (.register name) (register_mem_sources.mpr member)
  simp only [step, one] at doneLeft
  simp only [step, two] at doneRight
  cases operand with
  | memory byte =>
      exact byte_determined doneLeft doneRight registers small
        ((Instruction.mem_destinations _ _ byte).mp written)
  | register name =>
      rw [register_mem_destinations] at written
      refine register_determined doneLeft doneRight registers ?_
        (written.resolve_right fun branch => plain branch.1)
      rintro destination place rfl
      refine agree (.memory place.toNat) ((Instruction.mem_sources _ _ _).mpr ?_)
      simp only [perform] at doneLeft
      split at doneLeft
      · simp at doneLeft
      · rename_i values readable
        obtain ⟨inside, _⟩ := (Memory.read_eq_ok_iff _ _ _ _).mp readable
        exact (mem_single small inside _).mpr rfl

end Machine

end BranchSteer
