import BranchSteer.Proofs.GoingBack

/-!
Letting an instruction execute: the faults that the machine may run into, and that logging its writes
leaves everything as it is that the engine relies on.
-/

namespace BranchSteer

/-- The faults that a program causes by what it does. -/
inductive Fault.OfProgram : Fault → Prop
  | readOutOfBounds (access : MemoryRange) : OfProgram (.readOutOfBounds access)
  | writeOutOfBounds (access : MemoryRange) : OfProgram (.writeOutOfBounds access)
  | accessWrapsAround (access : MemoryRange) : OfProgram (.accessWrapsAround access)
  | invalidInstructionPointer (address : Nat) : OfProgram (.invalidInstructionPointer address)
  | noOperation (address : Nat) : OfProgram (.noOperation address)

namespace Machine

variable {machine : Machine}

theorem operation_error {fault : Fault} (failed : machine.operation = .error fault) :
    fault.OfProgram := by
  unfold operation at failed
  simp only at failed
  split at failed
  · split at failed
    · simp at failed
    · exact Except.error.inj failed ▸ .noOperation _
  · exact Except.error.inj failed ▸ .invalidInstructionPointer _

theorem decode_error {fault : Fault} (failed : machine.decode = .error fault) :
    machine.operation = .error fault := by
  unfold decode at failed
  cases found : machine.operation with
  | error other => simpa [found, Except.map] using failed
  | ok operation => simp [found, Except.map] at failed

theorem execution_error {fault : Fault} (failed : machine.execution = .error fault) :
    machine.operation = .error fault := by
  unfold execution at failed
  cases found : machine.operation with
  | error other => simpa [found, Except.map] using failed
  | ok operation => simp [found, Except.map] at failed

theorem step_error {fault : Fault} (failed : machine.step = .error fault) :
    fault.OfProgram := by
  unfold step at failed
  split at failed
  · rename_i operation found
    cases operation with
    | loadByte destination address =>
        simp only [perform] at failed
        split at failed
        · rename_i unreadable
          obtain ⟨shape, _⟩ := Memory.read_eq_error unreadable
          exact Except.error.inj failed ▸ shape ▸ .readOutOfBounds _
        · simp at failed
    | storeByte source address =>
        simp only [perform, Memory.write] at failed
        split at failed
        · rename_i unwritable
          split at unwritable
          · simp at unwritable
          · exact Except.error.inj failed ▸ Except.error.inj unwritable ▸ .writeOutOfBounds _
        · simp at failed
    | _ => simp [perform] at failed
  · rename_i found
    exact Except.error.inj failed ▸ operation_error found

theorem taken_of_isBranch {instruction : Instruction} {execution : Execution}
    (decoded : machine.decode = .ok instruction) (foreseen : machine.execution = .ok execution)
    (isBranch : instruction.isBranch) : execution.taken ≠ none := by
  obtain ⟨operation, found, rfl⟩ := decode_eq_ok decoded
  obtain ⟨other, same, rfl⟩ := execution_eq_ok foreseen
  rw [found, Except.ok.injEq] at same
  subst same
  cases operation with
  | jumpIfEqual target => simp [foresee]
  | jumpIfNotEqual target => simp [foresee]
  | _ => simp [describe, Instruction.isBranch, Instruction.plain, Instruction.within,
      Instruction.reading, Instruction.writing, Instruction.accessingMemory,
      Instruction.asSyscall] at isBranch

end Machine

namespace Engine

variable {engine : Engine} {genuine : Finding → List UInt8 → Prop} {executions : List Execution}

theorem proceed_proceeded (engine : Engine) (memory : Memory) (writes : List MemoryRange) :
    ∃ checkpoints, (LoggedAll memory (writes.flatMap MemoryRange.addresses) engine.checkpoints
        checkpoints ∧
      engine.proceed memory writes =
        ⟨{ engine with checkpoints := checkpoints }, memory, .ok .proceed⟩) ∨
      ∃ access, engine.proceed memory writes =
        ⟨{ engine with checkpoints := checkpoints }, memory, .error (.readOutOfBounds access)⟩ := by
  unfold proceed
  rw [logWrites_eq]
  cases logs : logRanges memory writes engine.checkpoints with
  | mk checkpoints failure =>
      cases failure with
      | none => exact ⟨checkpoints, Or.inl ⟨logRanges_loggedAll logs, rfl⟩⟩
      | some fault =>
          obtain ⟨access, _, rfl, _⟩ := logRanges_error logs
          exact ⟨checkpoints, Or.inr ⟨access, rfl⟩⟩

theorem proceed_ne_rollback (engine : Engine) (memory : Memory) (writes : List MemoryRange)
    (processor : Processor) : (engine.proceed memory writes).result ≠ .ok (.rollback processor) := by
  obtain ⟨checkpoints, ⟨_, done⟩ | ⟨access, failed⟩⟩ := engine.proceed_proceeded memory writes
  · simp [done]
  · simp [failed]

theorem enter_ne_rollback (engine : Engine) (memory : Memory) (instruction : Instruction)
    (execution : Execution) (processor : Processor) :
    (engine.enter memory instruction execution).result ≠ .ok (.rollback processor) := by
  have entered := engine.enter_entered memory instruction execution
  generalize engine.enter memory instruction execution = reaction at entered
  cases entered <;> simp

theorem Supported.recordBranch (supported : engine.Supported genuine) (address : Nat)
    (taken : Bool) : (engine.recordBranch address taken).Supported genuine := by
  refine ⟨supported.archived, fun {position branch} found => ?_⟩
  simp only [Engine.recordBranch, setBranch, Std.ExtTreeMap.getElem?_insert] at found
  split at found
  · have shape := (Option.some.inj found).symm
    subst shape
    cases taken <;> rfl
  · exact supported.current found

theorem ArmedUpTo.logged {memory : Memory} {addresses : List Nat} {checkpoints : Array Checkpoint}
    {id : Nat} (armed : engine.ArmedUpTo id)
    (logged : LoggedAll memory addresses engine.checkpoints checkpoints) :
    ({ engine with checkpoints := checkpoints } : Engine).ArmedUpTo id := by
  intro lower checkpoint upTo found
  obtain ⟨old, known, logs⟩ := logged.origin found
  exact logs.armed ▸ armed lower old upTo known

theorem Steered.logged {memory : Memory} {addresses : List Nat} {checkpoints : Array Checkpoint}
    (steered : engine.Steered genuine executions)
    (logged : LoggedAll memory addresses engine.checkpoints checkpoints) :
    ({ engine with checkpoints := checkpoints } : Engine).Steered genuine executions := by
  have same := recording_of_logged logged
  exact ⟨steered.phase, same ▸ steered.describes, fun found => same ▸ steered.branch found,
    steered.supported.archived, steered.supported.current⟩

theorem Forwards.logged {memory : Memory} {addresses : List Nat} {checkpoints : Array Checkpoint}
    (forwards : engine.Forwards genuine executions)
    (logged : LoggedAll memory addresses engine.checkpoints checkpoints) :
    ({ engine with checkpoints := checkpoints } : Engine).Forwards genuine executions := by
  refine ⟨forwards.steered.logged logged, forwards.idle, forwards.base, forwards.pending,
    forwards.ahead, fun found before => ?_⟩
  obtain ⟨old, known, logs⟩ := logged.origin found
  exact logs.armed ▸ forwards.armed known (logs.position ▸ before)

theorem Attempting.logged {memory : Memory} {addresses : List Nat} {checkpoints : Array Checkpoint}
    {resolution : Resolution} (attempting : engine.Attempting genuine executions resolution)
    (logged : LoggedAll memory addresses engine.checkpoints checkpoints) :
    ({ engine with checkpoints := checkpoints } : Engine).Attempting genuine executions
      resolution := by
  have same := recording_of_logged logged
  obtain ⟨⟨steered, branch, first, armed, bytes⟩, active, reached, before, length⟩ := attempting
  refine ⟨⟨steered.logged logged, branch, first, armed.logged logged, fun found => ?_⟩, active,
    fun found => ?_, before, length⟩
  · exact same ▸ bytes (same ▸ found)
  · exact reached (same ▸ found)

end Engine

end BranchSteer
