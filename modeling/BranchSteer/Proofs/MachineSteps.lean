import BranchSteer.Machine
import BranchSteer.Proofs.WriteLog

/-!
What one step of the machine depends on and what it leaves alone. Machines that differ in some bytes
only take the same steps as long as none of these bytes is read, so a byte may be overwritten early or
late if nothing touches it in between.
-/

namespace BranchSteer

namespace Machine

/-- Machines that may differ in the given bytes, in their input and in the count of their steps. -/
structure AgreeOff (bytes : Nat → Prop) (left right : Machine) : Prop where
  operations : left.program.operations = right.program.operations
  processor : left.processor = right.processor
  halted : left.halted = right.halted
  size : left.memory.size = right.memory.size
  byte : ∀ address, ¬ bytes address → left.memory.byte address = right.memory.byte address

namespace AgreeOff

variable {bytes : Nat → Prop} {left middle right : Machine}

theorem refl (bytes : Nat → Prop) (machine : Machine) : AgreeOff bytes machine machine :=
  ⟨rfl, rfl, rfl, rfl, fun _ _ => rfl⟩

theorem symm (agree : AgreeOff bytes left right) : AgreeOff bytes right left :=
  ⟨agree.operations.symm, agree.processor.symm, agree.halted.symm, agree.size.symm,
    fun address outside => (agree.byte address outside).symm⟩

theorem trans (one : AgreeOff bytes left middle) (two : AgreeOff bytes middle right) :
    AgreeOff bytes left right :=
  ⟨one.operations.trans two.operations, one.processor.trans two.processor,
    one.halted.trans two.halted, one.size.trans two.size,
    fun address outside => (one.byte address outside).trans (two.byte address outside)⟩

theorem mono {more : Nat → Prop} (agree : AgreeOff bytes left right)
    (wider : ∀ address, left.memory.byte address = right.memory.byte address ∨
      (bytes address → more address)) : AgreeOff more left right := by
  refine ⟨agree.operations, agree.processor, agree.halted, agree.size, fun address outside => ?_⟩
  rcases wider address with same | implies
  · exact same
  · exact agree.byte address fun inside => outside (implies inside)

theorem operation (agree : AgreeOff bytes left right) : left.operation = right.operation := by
  unfold Machine.operation instructionPointer
  rw [agree.operations, agree.processor]

theorem execution (agree : AgreeOff bytes left right) : left.execution = right.execution := by
  simp only [Machine.execution, agree.operation, agree.processor]

end AgreeOff

theorem operation_congr {machine other : Machine}
    (operations : other.program.operations = machine.program.operations)
    (pointer : other.instructionPointer = machine.instructionPointer) :
    other.operation = machine.operation := by
  unfold operation
  rw [operations, pointer]

theorem decode_eq_ok {machine : Machine} {instruction : Instruction}
    (decoded : machine.decode = .ok instruction) :
    ∃ operation, machine.operation = .ok operation ∧
      instruction = describe machine.instructionPointer operation := by
  unfold decode at decoded
  cases found : machine.operation with
  | error fault => simp [found, Except.map] at decoded
  | ok operation =>
      simp only [found, Except.map, Except.ok.injEq] at decoded
      exact ⟨operation, rfl, decoded.symm⟩

theorem execution_eq_ok {machine : Machine} {execution : Execution}
    (foreseen : machine.execution = .ok execution) :
    ∃ operation, machine.operation = .ok operation ∧
      execution = foresee machine.processor operation := by
  unfold Machine.execution at foreseen
  cases found : machine.operation with
  | error fault => simp [found, Except.map] at foreseen
  | ok operation =>
      simp only [found, Except.map, Except.ok.injEq] at foreseen
      exact ⟨operation, rfl, foreseen.symm⟩

theorem foresee_accesses (one another : Processor) (operation : Operation) :
    (foresee one operation).reads = (foresee another operation).reads ∧
      (foresee one operation).writes = (foresee another operation).writes := by
  cases operation <;> exact ⟨rfl, rfl⟩

theorem execution_address {machine : Machine} {execution : Execution}
    (foreseen : machine.execution = .ok execution) :
    execution.address = machine.instructionPointer := by
  obtain ⟨operation, _, rfl⟩ := execution_eq_ok foreseen
  cases operation <;> rfl

theorem step_eq_ok {machine next : Machine} {execution : Execution}
    (foreseen : machine.execution = .ok execution) (done : machine.step = .ok next) :
    ∃ operation, machine.operation = .ok operation ∧
      execution = foresee machine.processor operation ∧ machine.perform operation = .ok next := by
  obtain ⟨operation, found, shape⟩ := execution_eq_ok foreseen
  simp only [step, found] at done
  exact ⟨operation, found, shape, done⟩

theorem mem_single {address : Nat} {memory : Memory} (small : memory.size < addressSpace)
    (inside : address + 1 ≤ memory.size) (other : Nat) :
    other ∈ ([⟨address, 1⟩] : List MemoryRange).flatMap MemoryRange.addresses ↔
      other = address := by
  rw [List.flatMap_singleton, MemoryRange.mem_addresses_of_le inside small]
  simp only
  omega

structure Framed (execution : Execution) (machine next : Machine) : Prop where
  program : next.program = machine.program
  executed : next.executed = machine.executed + 1
  size : next.memory.size = machine.memory.size
  byte : ∀ address, ¬ execution.Writes address →
    next.memory.byte address = machine.memory.byte address

theorem step_framed {machine next : Machine} {execution : Execution}
    (small : machine.memory.size < addressSpace) (foreseen : machine.execution = .ok execution)
    (done : machine.step = .ok next) : Framed execution machine next := by
  obtain ⟨operation, _, rfl, performed⟩ := step_eq_ok foreseen done
  cases operation with
  | storeByte source address =>
      simp only [perform] at performed
      split at performed
      · simp at performed
      · rename_i memory written
        simp only [Except.ok.injEq] at performed
        subst performed
        obtain ⟨inside, rfl⟩ := (Memory.write_eq_ok_iff _ _ _ _).mp written
        refine ⟨rfl, rfl, by simp [continueAt], fun other outside => ?_⟩
        have different : other ≠ address.toNat :=
          mt (mem_single small inside other).mpr outside
        simp only [continueAt, Memory.byte_setBytes]
        split
        · rw [List.getElem?_eq_none (by simp only [List.length_singleton]; omega),
            Option.getD_none]
        · rfl
  | loadByte destination address =>
      simp only [perform] at performed
      split at performed
      · simp at performed
      · simp only [Except.ok.injEq] at performed
        subst performed
        exact ⟨rfl, rfl, rfl, fun _ _ => rfl⟩
  | _ =>
      simp only [perform, Except.ok.injEq] at performed
      subst performed
      exact ⟨rfl, rfl, rfl, fun _ _ => rfl⟩

theorem AgreeOff.step {bytes : Nat → Prop} {left right next : Machine} {execution : Execution}
    (agree : AgreeOff bytes left right) (small : left.memory.size < addressSpace)
    (foreseen : left.execution = .ok execution)
    (unread : ∀ address, execution.Reads address → ¬ bytes address)
    (done : left.step = .ok next) :
    ∃ other, right.step = .ok other ∧
      AgreeOff (fun address => bytes address ∧ ¬ execution.Writes address) next other := by
  have sameOperation := agree.operation
  obtain ⟨operation, found, rfl, performed⟩ := step_eq_ok foreseen done
  rw [found] at sameOperation
  simp only [Machine.step, ← sameOperation]
  obtain ⟨operations, processor, halted, size, byte⟩ := agree
  obtain ⟨rightProgram, rightProcessor, rightMemory, rightHalted, rightExecuted⟩ := right
  simp only at operations processor halted size byte
  subst processor halted
  cases operation with
  | loadByte destination address =>
      simp only [perform] at performed ⊢
      split at performed
      · simp at performed
      · rename_i values readable
        simp only [Except.ok.injEq] at performed
        subst performed
        obtain ⟨inside, rfl⟩ := (Memory.read_eq_ok_iff _ _ _ _).mp readable
        have same : left.memory.byte address.toNat = rightMemory.byte address.toNat :=
          byte _ (unread _ ((mem_single small inside _).mpr rfl))
        have readableToo : rightMemory.read address.toNat 1 =
            .ok ((List.range' address.toNat 1).map left.memory.byte) := by
          rw [Memory.read_eq_ok_iff]
          exact ⟨size ▸ inside, by simp [same]⟩
        rw [readableToo]
        refine ⟨_, rfl, operations, rfl, rfl, size, fun other outside => byte other ?_⟩
        exact fun differs => outside ⟨differs, by simp [Execution.Writes, foresee, Execution.plain]⟩
  | storeByte source address =>
      simp only [perform] at performed ⊢
      split at performed
      · simp at performed
      · rename_i memory written
        simp only [Except.ok.injEq] at performed
        subst performed
        obtain ⟨inside, rfl⟩ := (Memory.write_eq_ok_iff _ _ _ _).mp written
        have writtenToo := (Memory.write_eq_ok_iff rightMemory _ address.toNat
          [(left.register source).toUInt8]).mpr ⟨size ▸ inside, rfl⟩
        simp only [register] at writtenToo ⊢
        rw [writtenToo]
        refine ⟨_, rfl, operations, rfl, rfl, by simpa [continueAt] using size, ?_⟩
        intro other outside
        simp only [continueAt, Memory.byte_setBytes]
        by_cases here : other = address.toNat
        · subst here
          simp
        · have unwritten := mt (mem_single small inside other).mp here
          have same := byte other fun differs => outside ⟨differs, unwritten⟩
          split
          · rw [List.getElem?_eq_none (by simp only [List.length_singleton]; omega), same]
          · exact same
  | _ =>
      simp only [perform, Except.ok.injEq] at performed ⊢
      subst performed
      refine ⟨_, rfl, operations, rfl, rfl, size, fun other outside => byte other ?_⟩
      exact fun differs => outside ⟨differs, by simp [Execution.Writes, foresee, Execution.plain]⟩

def steps (machine : Machine) : Nat → Except Fault Machine
  | 0 => .ok machine
  | count + 1 => (machine.steps count).bind step

theorem steps_succ {machine next : Machine} {count : Nat} :
    machine.steps (count + 1) = .ok next ↔
      ∃ middle, machine.steps count = .ok middle ∧ middle.step = .ok next := by
  rw [steps]
  cases machine.steps count with
  | error fault => simp [Except.bind]
  | ok middle => simp [Except.bind]

theorem steps_add {machine middle : Machine} {first : Nat} (second : Nat)
    (done : machine.steps first = .ok middle) :
    machine.steps (first + second) = middle.steps second := by
  induction second with
  | zero => exact done
  | succ second ih => rw [← Nat.add_assoc, steps, steps, ih]

theorem steps_of_le {machine last : Machine} {shorter longer : Nat} (bound : shorter ≤ longer)
    (done : machine.steps longer = .ok last) : ∃ middle, machine.steps shorter = .ok middle := by
  induction bound generalizing last with
  | refl => exact ⟨last, done⟩
  | step _ ih =>
      obtain ⟨middle, before, _⟩ := steps_succ.mp done
      exact ih before

structure Performs (origin : Machine) (executions : List Execution) : Prop where
  each : ∀ {count : Nat} {execution : Execution}, executions[count]? = some execution →
    ∃ machine, origin.steps count = .ok machine ∧ machine.halted = false ∧
      machine.execution = .ok execution
  all : ∃ machine, origin.steps executions.length = .ok machine

namespace Performs

theorem nil (origin : Machine) : Performs origin [] :=
  ⟨by simp, origin, rfl⟩

theorem append {origin machine next : Machine} {executions : List Execution}
    {execution : Execution} (performs : origin.Performs executions)
    (reached : origin.steps executions.length = .ok machine) (running : machine.halted = false)
    (foreseen : machine.execution = .ok execution) (done : machine.step = .ok next) :
    origin.Performs (executions ++ [execution]) := by
  constructor
  · intro count other found
    rcases of_getElem?_concat found with known | ⟨rfl, rfl⟩
    · exact performs.each known
    · exact ⟨machine, reached, running, foreseen⟩
  · refine ⟨next, ?_⟩
    rw [List.length_append, List.length_singleton, steps_succ]
    exact ⟨machine, reached, done⟩

theorem exists_steps {origin : Machine} {executions : List Execution}
    (performs : origin.Performs executions) {count : Nat} (bound : count ≤ executions.length) :
    ∃ machine, origin.steps count = .ok machine := by
  obtain ⟨last, done⟩ := performs.all
  exact steps_of_le bound done

theorem each_of_steps {origin machine : Machine} {executions : List Execution}
    (performs : origin.Performs executions) {count : Nat} {execution : Execution}
    (found : executions[count]? = some execution) (reached : origin.steps count = .ok machine) :
    machine.halted = false ∧ machine.execution = .ok execution := by
  obtain ⟨other, same, facts⟩ := performs.each found
  rw [reached, Except.ok.injEq] at same
  exact same ▸ facts

theorem size_eq {origin machine : Machine} {executions : List Execution}
    (performs : origin.Performs executions) (small : origin.memory.size < addressSpace)
    {count : Nat} (bound : count ≤ executions.length) (reached : origin.steps count = .ok machine) :
    machine.memory.size = origin.memory.size := by
  induction count generalizing machine with
  | zero =>
      simp only [steps, Except.ok.injEq] at reached
      rw [reached]
  | succ count ih =>
      obtain ⟨middle, before, done⟩ := steps_succ.mp reached
      have size := ih (by omega) before
      obtain ⟨_, foreseen⟩ := performs.each_of_steps
        (List.getElem?_eq_getElem (by omega : count < executions.length)) before
      rw [(step_framed (size ▸ small) foreseen done).size, size]

end Performs

/-- Machines that differ in bytes which are not read take the same steps, and a byte that is not
written stays as it was. -/
theorem AgreeOff.steps {bytes : Nat → Prop} {origin other : Machine} {executions : List Execution}
    (agree : AgreeOff bytes origin other) (small : origin.memory.size < addressSpace)
    (performs : origin.Performs executions) {count : Nat} (bound : count ≤ executions.length)
    (unread : ∀ {index : Nat} {execution : Execution} {address : Nat}, index < count →
      executions[index]? = some execution → execution.Reads address → ¬ bytes address) :
    ∃ machine twin, origin.steps count = .ok machine ∧ other.steps count = .ok twin ∧
      AgreeOff bytes machine twin ∧
      ∀ address, (∀ {index : Nat} {execution : Execution}, index < count →
        executions[index]? = some execution → ¬ execution.Writes address) →
          machine.memory.byte address = origin.memory.byte address ∧
          twin.memory.byte address = other.memory.byte address := by
  induction count with
  | zero => exact ⟨origin, other, rfl, rfl, agree, fun _ _ => ⟨rfl, rfl⟩⟩
  | succ count ih =>
      obtain ⟨machine, twin, reached, reachedToo, alike, kept⟩ :=
        ih (by omega) fun below => unread (by omega)
      have found : executions[count]? = some executions[count] :=
        List.getElem?_eq_getElem (by omega)
      obtain ⟨_, foreseen⟩ := performs.each_of_steps found reached
      obtain ⟨next, longer⟩ := performs.exists_steps bound
      obtain ⟨middle, before, done⟩ := steps_succ.mp longer
      rw [reached, Except.ok.injEq] at before
      subst before
      have size := performs.size_eq small (by omega) reached
      obtain ⟨nextTwin, doneToo, alikeToo⟩ := alike.step (size ▸ small) foreseen
        (fun address => unread (by omega) found) done
      refine ⟨next, nextTwin, longer, steps_succ.mpr ⟨twin, reachedToo, doneToo⟩,
        alikeToo.mono fun _ => Or.inr And.left, fun address unwritten => ?_⟩
      have frame := step_framed (size ▸ small) foreseen done
      have frameToo := step_framed (by rw [← alike.size, size]; exact small)
        (alike.execution ▸ foreseen) doneToo
      obtain ⟨same, sameToo⟩ := kept address fun below => unwritten (by omega)
      have here := unwritten (by omega) found
      exact ⟨(frame.byte address here).trans same, (frameToo.byte address here).trans sameToo⟩

abbrev Alike (left right : Machine) : Prop := AgreeOff (fun _ => False) left right

theorem Alike.step {left right next : Machine} (alike : Alike left right)
    (small : left.memory.size < addressSpace) {execution : Execution}
    (foreseen : left.execution = .ok execution) (done : left.step = .ok next) :
    ∃ other, right.step = .ok other ∧ Alike next other := by
  obtain ⟨other, doneToo, agree⟩ := AgreeOff.step alike small foreseen (fun _ _ => id) done
  exact ⟨other, doneToo, agree.mono fun _ => Or.inr And.left⟩

theorem AgreeOff.memory {left right : Machine} (alike : Alike left right) :
    left.memory = right.memory :=
  Memory.ext_byte alike.size fun address => alike.byte address id

end Machine

end BranchSteer
