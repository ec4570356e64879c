import BranchSteer.Proofs.Recall

/-!
Runs with another input. Bytes of the input that were not touched before a checkpoint may as well be
overwritten where the phase begins. A run that follows the recorded trace up to a branch, and leaves it
there, decides the branch the other way.
-/

namespace BranchSteer

namespace Memory

def overwrite (memory : Memory) (address : Nat) : List UInt8 → List UInt8 → Memory
  | old :: olds, new :: news =>
    (if old = new then memory else memory.setByte address new).overwrite (address + 1) olds news
  | _, _ => memory

def Holds (memory : Memory) (address : Nat) (values : List UInt8) : Prop :=
  ∀ (index : Nat) (value : UInt8), values[index]? = some value →
    memory.byte (address + index) = value

theorem overwrite_spec {memory : Memory} {address : Nat} {old new : List UInt8}
    (length : new.length = old.length) (holds : memory.Holds address old) :
    (memory.overwrite address old new).size = memory.size ∧
      ∀ other, (memory.overwrite address old new).byte other =
        if address ≤ other then new[other - address]?.getD (memory.byte other)
        else memory.byte other := by
  induction old generalizing memory address new with
  | nil =>
      rw [List.length_nil, List.length_eq_zero_iff] at length
      subst length
      simp [overwrite]
  | cons first olds ih =>
      cases new with
      | nil => simp at length
      | cons value news =>
          simp only [List.length_cons, Nat.succ.injEq] at length
          have head : ∀ other,
              (if first = value then memory else memory.setByte address value).byte other =
                if other = address then value else memory.byte other := by
            intro other
            split
            · rename_i same
              split
              · rename_i here
                exact here ▸ same ▸ holds 0 first rfl
              · rfl
            · exact byte_setByte memory address other value
          have kept : (if first = value then memory else memory.setByte address value).Holds
              (address + 1) olds := by
            intro index old found
            rw [head, if_neg (by omega), show address + 1 + index = address + (index + 1) by omega]
            exact holds (index + 1) old found
          obtain ⟨size, byte⟩ := ih length kept
          refine ⟨?_, fun other => ?_⟩
          · rw [overwrite, size]
            split <;> simp
          · rw [overwrite, byte, head]
            by_cases same : other = address
            · subst same
              simp [show ¬ other + 1 ≤ other by omega]
            · by_cases above : address ≤ other
              · have offset : other - address = other - (address + 1) + 1 := by omega
                simp [same, above, offset, show address + 1 ≤ other by omega]
              · simp [same, above, show ¬ address + 1 ≤ other by omega]

end Memory

namespace Machine

def withInput (machine : Machine) (input : InputBuffer) (old new : List UInt8) : Machine :=
  { machine with memory := machine.memory.overwrite input.address old new }

def FollowsTrace (origin : Machine) (base : Nat) (addresses : Array Nat) (position : Nat) : Prop :=
  ∀ index, base + index < position → ∃ machine, origin.steps index = .ok machine ∧
    machine.halted = false ∧ addresses[base + index]? = some machine.instructionPointer

/-- A run executes the recorded addresses up to a conditional branch and decides it the other way. -/
def Flips (origin : Machine) (base : Nat) (trace : Array Nat) (position : Nat) (taken : Bool) : Prop :=
  origin.FollowsTrace base trace position ∧
    ∃ index machine execution, position = base + index + 1 ∧ origin.steps index = .ok machine ∧
      machine.execution = .ok execution ∧ execution.taken = some !taken

theorem FollowsTrace.succ {origin machine : Machine} {base position : Nat} {addresses : Array Nat}
    (follows : origin.FollowsTrace base addresses position) (ahead : base ≤ position)
    (reached : origin.steps (position - base) = .ok machine) (running : machine.halted = false)
    (recorded : addresses[position]? = some machine.instructionPointer) :
    origin.FollowsTrace base addresses (position + 1) := by
  intro index below
  rcases Nat.lt_or_eq_of_le (Nat.le_of_lt_succ below) with before | here
  · exact follows index before
  · have last : position - base = index := by omega
    exact ⟨machine, last ▸ reached, running, here ▸ recorded⟩

theorem execution_of_step {machine next : Machine} (done : machine.step = .ok next) :
    ∃ execution, machine.execution = .ok execution := by
  unfold step at done
  cases found : machine.operation with
  | error fault => simp [found] at done
  | ok operation => exact ⟨foresee machine.processor operation, by simp [execution, found, Except.map]⟩

theorem steps_framed {origin machine : Machine} (small : origin.memory.size < addressSpace)
    {count : Nat} (reached : origin.steps count = .ok machine) :
    machine.program = origin.program ∧ machine.memory.size = origin.memory.size := by
  induction count generalizing machine with
  | zero =>
      simp only [steps, Except.ok.injEq] at reached
      exact reached ▸ ⟨rfl, rfl⟩
  | succ count ih =>
      obtain ⟨middle, before, done⟩ := steps_succ.mp reached
      obtain ⟨program, size⟩ := ih before
      obtain ⟨execution, foreseen⟩ := execution_of_step done
      have frame := step_framed (size ▸ small) foreseen done
      exact ⟨frame.program.trans program, frame.size.trans size⟩

theorem branch_successor {left right leftNext rightNext : Machine} {leftExecution rightExecution : Execution}
    (operation : left.operation = right.operation)
    (pointer : left.instructionPointer = right.instructionPointer)
    (leftForeseen : left.execution = .ok leftExecution)
    (rightForeseen : right.execution = .ok rightExecution) {taken : Bool}
    (leftTaken : leftExecution.taken = some taken) (rightTaken : rightExecution.taken = some taken)
    (leftDone : left.step = .ok leftNext) (rightDone : right.step = .ok rightNext) :
    leftNext.instructionPointer = rightNext.instructionPointer := by
  obtain ⟨operation, found, rfl, performed⟩ := step_eq_ok leftForeseen leftDone
  obtain ⟨other, foundOther, rfl, performedOther⟩ := step_eq_ok rightForeseen rightDone
  have same : operation = other := by
    rw [‹left.operation = right.operation›, foundOther, Except.ok.injEq] at found
    exact found.symm
  subst same
  cases operation with
  | jumpIfEqual target =>
      simp only [foresee, Execution.plain, Option.some.injEq] at leftTaken rightTaken
      simp only [perform, Except.ok.injEq] at performed performedOther
      subst performed performedOther
      rw [← rightTaken, decide_eq_decide] at leftTaken
      have sameFlag : left.register flagsName = 1 ↔ right.register flagsName = 1 := leftTaken
      simp only [continueAt, Machine.instructionPointer] at pointer ⊢
      by_cases flag : left.register flagsName = 1
      · rw [if_pos flag, if_pos (sameFlag.mp flag)]
      · rw [if_neg flag, if_neg (mt sameFlag.mpr flag), pointer]
  | jumpIfNotEqual target =>
      simp only [foresee, Execution.plain, Option.some.injEq] at leftTaken rightTaken
      simp only [perform, Except.ok.injEq] at performed performedOther
      subst performed performedOther
      rw [← rightTaken, decide_eq_decide] at leftTaken
      have sameFlag : left.register flagsName = 0 ↔ right.register flagsName = 0 := leftTaken
      simp only [continueAt, Machine.instructionPointer] at pointer ⊢
      by_cases flag : left.register flagsName = 0
      · rw [if_pos flag, if_pos (sameFlag.mp flag)]
      · rw [if_neg flag, if_neg (mt sameFlag.mpr flag), pointer]
  | _ => simp [foresee, Execution.plain] at leftTaken

theorem taken_isSome {left right : Machine} {leftExecution rightExecution : Execution}
    (operation : left.operation = right.operation)
    (leftForeseen : left.execution = .ok leftExecution)
    (rightForeseen : right.execution = .ok rightExecution) :
    leftExecution.taken.isSome = rightExecution.taken.isSome := by
  obtain ⟨found, leftFound, rfl⟩ := execution_eq_ok leftForeseen
  obtain ⟨other, rightFound, rfl⟩ := execution_eq_ok rightForeseen
  rw [operation, rightFound, Except.ok.injEq] at leftFound
  subst leftFound
  cases other <;> rfl

/-- A run that followed the recorded trace up to a branch and is now elsewhere decided it the other
way. -/
theorem flips_of_divergence {origin other now : Machine} {recording : Recording}
    {executions : List Execution} {position : Nat} {branch : Branch}
    (describes : recording.Describes executions) (performs : origin.Performs executions)
    (small : origin.memory.size < addressSpace) (smallToo : other.memory.size < addressSpace)
    (operations : origin.program.operations = other.program.operations)
    (observed : recording.Observed executions position branch)
    (inside : position < recording.trace.size)
    (follows : other.FollowsTrace recording.basePosition recording.trace position)
    (reached : other.steps (position - recording.basePosition) = .ok now)
    (diverges : recording.trace[position]? ≠ some now.instructionPointer) :
    other.Flips recording.basePosition recording.trace position branch.taken := by
  obtain ⟨index, execution, found, place, _, taken⟩ := observed.outcome
  obtain ⟨machine, there, _, pointer⟩ := follows index (by omega)
  obtain ⟨recorded, recordedThere, _, foreseen⟩ := performs.each found
  obtain ⟨successor, successorFound⟩ : ∃ successor, executions[index + 1]? = some successor := by
    have size := describes.traceSize
    exact ⟨_, List.getElem?_eq_getElem (by omega)⟩
  obtain ⟨recordedNext, recordedNextThere, _, foreseenNext⟩ := performs.each successorFound
  obtain ⟨_, recordedBefore, recordedDone⟩ := steps_succ.mp recordedNextThere
  rw [recordedThere, Except.ok.injEq] at recordedBefore
  subst recordedBefore
  rw [show position - recording.basePosition = index + 1 by omega] at reached
  obtain ⟨_, before, done⟩ := steps_succ.mp reached
  rw [there, Except.ok.injEq] at before
  subst before
  -- Both are about to execute the same branch.
  have samePointer : recorded.instructionPointer = machine.instructionPointer := by
    have traced := describes.trace found
    rw [pointer, Option.some.injEq] at traced
    rw [← execution_address foreseen, ← traced]
  have sameOperation : recorded.operation = machine.operation := by
    unfold operation
    rw [samePointer, (steps_framed small recordedThere).1, (steps_framed smallToo there).1, operations]
  obtain ⟨executionHere, foreseenHere⟩ := execution_of_step done
  have isSome := taken_isSome sameOperation foreseen foreseenHere
  rw [taken, Option.isSome_some] at isSome
  obtain ⟨outcome, takenHere⟩ := Option.isSome_iff_exists.mp isSome.symm
  have different : outcome ≠ branch.taken := by
    intro same
    apply diverges
    have next := branch_successor sameOperation samePointer foreseen foreseenHere taken
      (same ▸ takenHere) recordedDone done
    have traced := describes.trace successorFound
    rw [execution_address foreseenNext, next] at traced
    rw [place]
    exact traced
  refine ⟨follows, index, machine, executionHere, place, there, foreseenHere, ?_⟩
  rw [takenHere, Bool.eq_not.mpr different]

end Machine

end BranchSteer
