import BranchSteer.Proofs.OperandValues

/-!
What a machine declares about its next operation, held against what the operation does. It changes nothing
else, what it leaves behind depends on nothing else, and if it fails it has changed nothing at all.

That a failed operation changes nothing is shown for a machine that is changed in place, command by command.
-/

namespace BranchSteer

namespace Machine

/-- Commands that change a machine in place. What was done before a fault stays done. -/
abbrev Commands := EStateM Fault Machine

namespace Commands

def fetch : Commands Operation := fun machine =>
  match machine.operation with
  | .ok operation => .ok operation machine
  | .error fault => .error fault machine

def load (address : Nat) : Commands UInt8 := fun machine =>
  match machine.memory.read address 1 with
  | .ok values => .ok (values.headD 0) machine
  | .error fault => .error fault machine

def store (address : Nat) (value : UInt8) : Commands Unit := fun machine =>
  match machine.memory.write address [value] with
  | .ok memory => .ok () { machine with memory := memory }
  | .error fault => .error fault machine

def valueOf (name : String) : Commands UInt64 := return (← get).register name

def assign (name : String) (value : UInt64) : Commands Unit :=
  modify (·.setRegister name value)

def flag (equal : Bool) : Commands Unit := assign flagsName (if equal then 1 else 0)

def carryOut (following : Nat) : Operation → Commands Nat
  | .move destination value => do
    assign destination value
    return following
  | .loadByte destination address => do
    assign destination (← load address.toNat).toUInt64
    return following
  | .storeByte source address => do
    store address.toNat (← valueOf source).toUInt8
    return following
  | .add destination source => do
    assign destination ((← valueOf destination) + (← valueOf source))
    return following
  | .addImmediate destination value => do
    assign destination ((← valueOf destination) + value)
    return following
  | .xor destination source => do
    assign destination ((← valueOf destination) ^^^ (← valueOf source))
    return following
  | .compare left right => do
    flag ((← valueOf left) = (← valueOf right))
    return following
  | .compareImmediate left value => do
    flag ((← valueOf left) = value)
    return following
  | .jumpIfEqual target => do
    return if (← valueOf flagsName) = 1 then operationAddress target.toNat else following
  | .jumpIfNotEqual target => do
    return if (← valueOf flagsName) = 0 then operationAddress target.toNat else following
  | .jump target => return operationAddress target.toNat
  | .syscall => do
    assign resultName 0
    return following
  | .halt => do
    modify ({ · with halted := true })
    return (← get).instructionPointer

def step : Commands Unit := do
  let operation ← fetch
  let next ← carryOut ((← get).instructionPointer + instructionSize) operation
  modify (·.continueAt next)

end Commands

theorem Commands.valueOf_eq (name : String) (machine : Machine) :
    valueOf name machine = .ok (machine.register name) machine := rfl

theorem Commands.carryOut_eq (machine : Machine) (operation : Operation) :
    (carryOut (machine.instructionPointer + instructionSize) operation >>= fun next =>
        modify (·.continueAt next)) machine =
      match machine.perform operation with
      | .ok next => .ok () next
      | .error fault => .error fault machine := by
  cases operation with
  | loadByte destination address =>
      simp only [carryOut, load, perform, bind, EStateM.bind]
      cases machine.memory.read address.toNat 1 <;> rfl
  | storeByte source address =>
      simp only [carryOut, store, valueOf_eq, perform, bind, EStateM.bind]
      cases machine.memory.write address.toNat [(machine.register source).toUInt8] <;> rfl
  | _ => rfl

theorem Commands.step_eq (machine : Machine) : Commands.step machine =
    match machine.step with
    | .ok next => .ok () next
    | .error fault => .error fault machine := by
  unfold Machine.step
  simp only [Commands.step, Commands.fetch, bind, EStateM.bind]
  cases machine.operation with
  | error fault => rfl
  | ok operation => exact Commands.carryOut_eq machine operation

/-- A second machine in front of the same operation, which holds the same in all that the operation is
declared to read. -/
structure Resembles (machine : Machine) (instruction : Instruction) (execution : Execution)
    (other : Machine) : Prop where
  program : other.program = machine.program
  size : other.memory.size = machine.memory.size
  pointer : other.instructionPointer = machine.instructionPointer
  halted : other.halted = machine.halted
  register : ∀ name ∈ instruction.readRegisters, other.register name = machine.register name
  byte : ∀ address, execution.Reads address →
    other.memory.byte address = machine.memory.byte address

/-- A step changes nothing but what was declared as written, and a conditional branch not even that. -/
structure Confined (machine : Machine) (instruction : Instruction) (execution : Execution)
    (next : Machine) : Prop where
  program : next.program = machine.program
  size : next.memory.size = machine.memory.size
  register : ∀ name, name ∉ instruction.writtenRegisters →
    next.processor.registers[name]? = machine.processor.registers[name]?
  byte : ∀ address, ¬ execution.Writes address →
    next.memory.byte address = machine.memory.byte address
  branch : instruction.isBranch →
    next.processor.registers = machine.processor.registers ∧ next.memory = machine.memory

structure Follows (instruction : Instruction) (execution : Execution) (next twin : Machine) :
    Prop where
  pointer : twin.instructionPointer = next.instructionPointer
  halted : twin.halted = next.halted
  register : ¬ instruction.isBranch → ∀ name ∈ instruction.writtenRegisters,
    twin.register name = next.register name
  byte : ¬ instruction.isBranch → ∀ address, execution.Writes address →
    twin.memory.byte address = next.memory.byte address

variable {machine next other left right twin : Machine} {instruction : Instruction}
  {execution : Execution}

@[simp] theorem instructionPointer_continueAt (machine : Machine) (pointer : Nat) :
    (machine.continueAt pointer).instructionPointer = pointer := rfl

@[simp] theorem halted_continueAt (machine : Machine) (pointer : Nat) :
    (machine.continueAt pointer).halted = machine.halted := rfl

@[simp] theorem halted_setRegister (machine : Machine) (name : String) (value : UInt64) :
    (machine.setRegister name value).halted = machine.halted := rfl

theorem perform_alike {operation : Operation} (performed : left.perform operation = .ok next)
    (size : right.memory.size = left.memory.size)
    (pointer : right.instructionPointer = left.instructionPointer)
    (halted : right.halted = left.halted)
    (registers : ∀ name ∈ operation.readNames, right.register name = left.register name) :
    ∃ twin, right.perform operation = .ok twin ∧
      twin.instructionPointer = next.instructionPointer ∧ twin.halted = next.halted := by
  cases operation with
  | loadByte destination address =>
      simp only [perform] at performed ⊢
      split at performed
      · simp at performed
      · rename_i values readable
        rw [Except.ok.injEq] at performed
        subst performed
        obtain ⟨inside, _⟩ := (Memory.read_eq_ok_iff _ _ _ _).mp readable
        rw [(Memory.read_eq_ok_iff right.memory _ _ _).mpr ⟨size ▸ inside, rfl⟩, pointer]
        exact ⟨_, rfl, by simp, by simpa using halted⟩
  | storeByte source address =>
      simp only [perform] at performed ⊢
      split at performed
      · simp at performed
      · rename_i memory stored
        rw [Except.ok.injEq] at performed
        subst performed
        obtain ⟨inside, _⟩ := (Memory.write_eq_ok_iff _ _ _ _).mp stored
        rw [(Memory.write_eq_ok_iff right.memory _ _ _).mpr ⟨size ▸ inside, rfl⟩, pointer]
        exact ⟨_, rfl, by simp, by simpa using halted⟩
  | jumpIfEqual target | jumpIfNotEqual target =>
      simp only [perform, Except.ok.injEq] at performed ⊢
      subst performed
      rw [pointer, registers flagsName (by simp [Operation.readNames])]
      exact ⟨_, rfl, by simp, by simpa using halted⟩
  | jump target =>
      simp only [perform, Except.ok.injEq] at performed ⊢
      subst performed
      exact ⟨_, rfl, by simp, by simpa using halted⟩
  | halt =>
      simp only [perform, Except.ok.injEq] at performed ⊢
      subst performed
      exact ⟨_, rfl, pointer, rfl⟩
  | _ =>
      simp only [perform, Except.ok.injEq] at performed ⊢
      subst performed
      rw [pointer]
      exact ⟨_, rfl, by simp, by simpa using halted⟩

theorem foresee_alike {operation : Operation}
    (pointer : other.instructionPointer = machine.instructionPointer)
    (registers : ∀ name ∈ operation.readNames, other.register name = machine.register name) :
    foresee other.processor operation = foresee machine.processor operation := by
  have samePlace : other.processor.instructionPointer = machine.processor.instructionPointer :=
    pointer
  cases operation with
  | jumpIfEqual target | jumpIfNotEqual target =>
      have flags : other.processor.register flagsName = machine.processor.register flagsName :=
        registers flagsName (by simp [Operation.readNames])
      simp only [foresee, samePlace, flags]
  | _ => simp only [foresee, samePlace]

theorem Resembles.operation (resembles : machine.Resembles instruction execution other) :
    other.operation = machine.operation :=
  operation_congr (congrArg Program.operations resembles.program) resembles.pointer

theorem Resembles.decode (resembles : machine.Resembles instruction execution other) :
    other.decode = machine.decode := by
  simp only [Machine.decode, resembles.operation, resembles.pointer]

theorem confined_of_step (small : machine.memory.size < addressSpace)
    (decoded : machine.decode = .ok instruction) (foreseen : machine.execution = .ok execution)
    (done : machine.step = .ok next) : machine.Confined instruction execution next := by
  have framed := step_framed small foreseen done
  obtain ⟨operation, found, rfl⟩ := decode_eq_ok decoded
  obtain ⟨_, foundToo, rfl, performed⟩ := step_eq_ok foreseen done
  rw [found, Except.ok.injEq] at foundToo
  subst foundToo
  have entry : ∀ {name : String}, operation.target? ≠ some name →
      next.processor.registers[name]? = machine.processor.registers[name]? :=
    fun other => entry_of_perform performed other
  refine ⟨framed.program, framed.size, fun name unwritten => ?_, framed.byte, fun branch => ?_⟩
  · rw [mem_writtenRegisters, not_or] at unwritten
    exact entry unwritten.1
  · rw [isBranch_describe] at branch
    have changesNothing : operation.target? = none ∧
        (foresee machine.processor operation).writes = [] := by
      cases operation <;> simp_all [Operation.isBranch, Operation.target?, foresee, Execution.plain]
    refine ⟨Std.ExtTreeMap.ext_getElem? fun name => entry (by simp [changesNothing.1]),
      Memory.ext_byte framed.size fun address => framed.byte address ?_⟩
    simp [Execution.Writes, changesNothing.2]

theorem Resembles.follows (resembles : machine.Resembles instruction execution other)
    (small : machine.memory.size < addressSpace) (decoded : machine.decode = .ok instruction)
    (foreseen : machine.execution = .ok execution) :
    other.execution = .ok execution ∧ ∀ next, machine.step = .ok next →
      ∃ twin, other.step = .ok twin ∧ Follows instruction execution next twin := by
  obtain ⟨operation, found, rfl⟩ := decode_eq_ok decoded
  obtain ⟨_, foundToo, rfl⟩ := execution_eq_ok foreseen
  rw [found, Except.ok.injEq] at foundToo
  subst foundToo
  have there : other.operation = .ok operation := resembles.operation.trans found
  have registers : ∀ name ∈ operation.readNames, other.register name = machine.register name :=
    fun name member => resembles.register name ((mem_readRegisters _ _ _).mpr member)
  refine ⟨?_, fun next done => ?_⟩
  · simp only [Machine.execution, there, Except.map, foresee_alike resembles.pointer registers]
  · have performed : machine.perform operation = .ok next := by simpa only [step, found] using done
    obtain ⟨twin, doneToo, pointer, halted⟩ := perform_alike performed resembles.size
      resembles.pointer resembles.halted registers
    have agree : ∀ source ∈ (describe machine.instructionPointer operation).sources
        (foresee machine.processor operation), AgreeOn machine other source := by
      rintro (name | address) member
      · exact (resembles.register name ((Instruction.register_mem_sources _ _ _).mp member)).symm
      · exact (resembles.byte address ((Instruction.mem_sources _ _ _).mp member)).symm
    have stepped : other.step = .ok twin := by simpa only [step, there] using doneToo
    have determined : ∀ {operand : Operand}, operand ∈
        (describe machine.instructionPointer operation).destinations
          (foresee machine.processor operation) →
        ¬ operation.isBranch → AgreeOn next twin operand :=
      fun written plain => step_determined small found there done stepped agree written plain
    refine ⟨twin, stepped, pointer, halted, fun plain name written => ?_,
      fun plain address written => ?_⟩
    · rw [isBranch_describe] at plain
      exact (determined ((Instruction.register_mem_destinations _ _ name).mpr (Or.inl written))
        plain).symm
    · rw [isBranch_describe] at plain
      exact (determined ((Instruction.mem_destinations _ _ address).mpr written) plain).symm

/-- A machine keeps to what it declares about its next operation. An operation that fails has changed
nothing, and one that succeeds nothing but what was declared as written. A second machine that resembles the
first one declares the same, succeeds as well, goes on at the same place and leaves the same behind in all
that was declared as written, unless the operation is a conditional branch and changes neither of them. -/
theorem step_keepsDeclaration (small : machine.memory.size < addressSpace)
    (decoded : machine.decode = .ok instruction) (foreseen : machine.execution = .ok execution) :
    (∀ fault, machine.step = .error fault → Commands.step machine = .error fault machine) ∧
    (∀ next, machine.step = .ok next →
      Commands.step machine = .ok () next ∧ machine.Confined instruction execution next) ∧
    ∀ other, machine.Resembles instruction execution other →
      other.decode = .ok instruction ∧ other.execution = .ok execution ∧
        ∀ next, machine.step = .ok next → ∃ twin, other.step = .ok twin ∧
          Follows instruction execution next twin ∧ other.Confined instruction execution twin := by
  have inPlace := Commands.step_eq machine
  refine ⟨fun fault failed => by rw [inPlace, failed], fun next done => ?_, fun other resembles => ?_⟩
  · exact ⟨by rw [inPlace, done], confined_of_step small decoded foreseen done⟩
  · obtain ⟨foreseenToo, goesOn⟩ := resembles.follows small decoded foreseen
    have decodedToo := resembles.decode.trans decoded
    refine ⟨decodedToo, foreseenToo, fun next done => ?_⟩
    obtain ⟨twin, doneToo, follows⟩ := goesOn next done
    exact ⟨twin, doneToo, follows,
      confined_of_step (resembles.size ▸ small) decodedToo foreseenToo doneToo⟩

def inFrontOf (operation : Operation) (registers : Std.ExtTreeMap String UInt64) (memory : Memory) :
    Machine :=
  ⟨⟨#[operation], 16, [], 32⟩, ⟨codeBase, registers⟩, memory, false, 0⟩

theorem operation_inFrontOf (operation : Operation) (registers : Std.ExtTreeMap String UInt64)
    (memory : Memory) : (inFrontOf operation registers memory).operation = .ok operation := by
  simp [inFrontOf, Machine.operation, instructionPointer]

theorem step_keepsDeclaration_doubling :
    ∃ next twin,
      (inFrontOf (.add "flags" "flags") (.insert ∅ "flags" 3) (.zero 32)).Confined
        (describe codeBase (.add "flags" "flags")) (.plain codeBase) next ∧
      (inFrontOf (.add "flags" "flags") (.insert (.insert ∅ "flags" 3) "a" 9)
        ((Memory.zero 32).setByte 16 7)).step = .ok twin ∧
      Follows (describe codeBase (.add "flags" "flags")) (.plain codeBase) next twin ∧
      next.register "flags" = 6 := by
  have here := operation_inFrontOf (.add "flags" "flags") (.insert ∅ "flags" 3) (.zero 32)
  obtain ⟨_, confined, twins⟩ := @step_keepsDeclaration
    (inFrontOf (.add "flags" "flags") (.insert ∅ "flags" 3) (.zero 32))
    (describe codeBase (.add "flags" "flags")) (.plain codeBase)
    (by decide) (by simp only [decode, here, Except.map]; rfl)
    (by simp only [execution, here, Except.map]; rfl)
  have resembles : (inFrontOf (.add "flags" "flags") (.insert ∅ "flags" 3) (.zero 32)).Resembles
      (describe codeBase (.add "flags" "flags")) (.plain codeBase)
      (inFrontOf (.add "flags" "flags") (.insert (.insert ∅ "flags" 3) "a" 9)
        ((Memory.zero 32).setByte 16 7)) := by
    refine ⟨rfl, by simp [inFrontOf, Memory.zero], rfl, rfl, fun name member => ?_, ?_⟩
    · have flags : name = "flags" := by
        simpa [mem_readRegisters, Operation.readNames] using member
      simp [flags, inFrontOf, register, Processor.register, Std.ExtTreeMap.getElem_insert]
    · simp [Execution.Reads, Execution.plain]
  obtain ⟨_, _, goesOn⟩ := twins _ resembles
  obtain ⟨next, done, doubled⟩ :
      ∃ next, (inFrontOf (.add "flags" "flags") (.insert ∅ "flags" 3) (.zero 32)).step = .ok next ∧
        next.register "flags" = 6 := by
    simp only [step, here, perform]
    refine ⟨_, rfl, ?_⟩
    have three : (inFrontOf (.add "flags" "flags") (.insert ∅ "flags" 3) (.zero 32)).register
        "flags" = 3 := by simp [inFrontOf, register, Processor.register]
    rw [register_setRegister, if_pos rfl, three]
    rfl
  obtain ⟨twin, doneToo, follows, _⟩ := goesOn next done
  exact ⟨next, twin, (confined next done).2, doneToo, follows, doubled⟩

end Machine

end BranchSteer
