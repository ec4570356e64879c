import BranchSteer.Proofs.MachineSteps
import BranchSteer.Proofs.Resolving

/-!
What the checkpoints of a phase recall of the observed machine. A checkpoint belongs to a state that the
machine went through, and as long as it is armed, undoing its log leads back to the memory of that state,
whatever else was executed, perturbed or rolled back in between.
-/

namespace BranchSteer

/-- The checkpoints of a phase that started from a state of the machine. -/
structure Recalls (origin : Machine) (base : Nat) (checkpoints : Array Checkpoint)
    (memory : Memory) : Prop where
  size : memory.size = origin.memory.size
  stack : Stack checkpoints memory.size
  each : ∀ {id : Nat} {checkpoint : Checkpoint}, checkpoints[id]? = some checkpoint →
    ∃ index machine, checkpoint.position = base + index + 1 ∧
      origin.steps index = .ok machine ∧ checkpoint.processor = machine.processor ∧
      (checkpoint.armed → ∀ address,
        checkpoint.recalledByte memory address = machine.memory.byte address)

namespace Recalls

variable {origin : Machine} {base : Nat} {checkpoints : Array Checkpoint} {memory : Memory}

theorem empty (origin : Machine) (base : Nat) (size : memory.size = origin.memory.size) :
    Recalls origin base #[] memory :=
  ⟨size, Stack.empty _, by simp⟩

theorem written (recalls : Recalls origin base checkpoints memory) {addresses : List Nat}
    {after : Array Checkpoint} {next : Memory}
    (logged : LoggedAll memory addresses checkpoints after) (size : next.size = memory.size)
    (unwritten : ∀ address, address ∉ addresses → next.byte address = memory.byte address) :
    Recalls origin base after next := by
  refine ⟨size.trans recalls.size, size ▸ recalls.stack.loggedAll logged, fun found => ?_⟩
  obtain ⟨old, known, logs⟩ := logged.origin found
  obtain ⟨index, machine, position, reached, processor, holds⟩ := recalls.each known
  refine ⟨index, machine, logs.position.trans position, reached, logs.processor.trans processor,
    fun armed address => ?_⟩
  rw [logs.armed] at armed
  rw [← holds armed, ← logs.recalledByte_eq]
  apply Checkpoint.recalledByte_of_agree
  intro unlogged
  rw [logs.mem_iff, not_or] at unlogged
  exact unwritten address fun member => unlogged.2 ⟨armed, member⟩

theorem push (recalls : Recalls origin base checkpoints memory)
    (armed : ∀ {id : Nat} {checkpoint : Checkpoint},
      checkpoints[id]? = some checkpoint → checkpoint.armed)
    {index : Nat} {machine : Machine} (reached : origin.steps index = .ok machine)
    (same : memory = machine.memory) (inputBytes : Std.ExtTreeSet Nat) :
    Recalls origin base
      (checkpoints.push (.create (base + index + 1) machine.processor inputBytes)) memory := by
  refine ⟨recalls.size, recalls.stack.push armed _ _ _, fun {id checkpoint} found => ?_⟩
  rcases of_getElem?_push found with known | ⟨_, rfl⟩
  · exact recalls.each known
  · refine ⟨index, machine, rfl, reached, rfl, fun _ address => ?_⟩
    simp [Checkpoint.recalledByte, Checkpoint.create, same]

theorem arming (recalls : Recalls origin base checkpoints memory)
    (increasing : ∀ {lower upper : Nat} {first second : Checkpoint}, lower < upper →
      checkpoints[lower]? = some first → checkpoints[upper]? = some second →
        first.position < second.position)
    {index : Nat} (armed : ∀ {id : Nat} {checkpoint : Checkpoint},
      checkpoints[id]? = some checkpoint → checkpoint.position < base + index + 1 →
        checkpoint.armed)
    {machine : Machine} (reached : origin.steps index = .ok machine)
    (same : memory = machine.memory) :
    Recalls origin base (checkpoints.map fun checkpoint =>
      if checkpoint.position = base + index + 1 then checkpoint.arm else checkpoint) memory := by
  refine ⟨recalls.size, recalls.stack.arming increasing armed, fun {id checkpoint} found => ?_⟩
  rw [Array.getElem?_map, Option.map_eq_some_iff] at found
  obtain ⟨old, known, rfl⟩ := found
  obtain ⟨place, other, position, reachedOther, processor, holds⟩ := recalls.each known
  split
  · rename_i here
    have samePlace : place = index := by omega
    subst samePlace
    rw [reached, Except.ok.injEq] at reachedOther
    subst reachedOther
    refine ⟨place, machine, position, reached, processor, fun _ address => ?_⟩
    by_cases before : old.armed
    · exact holds before address
    · simp [Checkpoint.recalledByte, Checkpoint.arm, recalls.stack.disarmed known before, same]
  · exact ⟨place, other, position, reachedOther, processor, holds⟩

theorem rewound (recalls : Recalls origin base checkpoints memory) {input : InputBuffer}
    {perturbation : Perturbation} {random : Random} {id : Nat} {after : Array Checkpoint}
    {rollback : Rollback}
    (goesBack : Rewound input perturbation random memory id checkpoints after rollback)
    (small : memory.size < addressSpace) (fits : perturbation.Fits input memory.size)
    {target : Checkpoint} (here : checkpoints[id]? = some target) (armed : target.armed) :
    Recalls origin base after rollback.memory := by
  obtain ⟨rolled, _⟩ := goesBack.target here
  refine ⟨rolled.size.trans recalls.size, ?_, fun {index checkpoint} found => ?_⟩
  · exact rolled.size.symm ▸ goesBack.stack small recalls.stack fits here armed
  · obtain ⟨old, known, position, processor, _⟩ := goesBack.origin found
    obtain ⟨place, machine, oldPosition, reached, oldProcessor, holds⟩ := recalls.each known
    refine ⟨place, machine, position.trans oldPosition, reached, processor.trans oldProcessor,
      fun checkpointArmed address => ?_⟩
    have upTo := (goesBack.armed_iff recalls.stack here armed found).mp checkpointArmed
    rw [goesBack.recalledByte_eq small recalls.stack fits here armed upTo known found]
    exact holds (recalls.stack.armed upTo known here armed) address

end Recalls

end BranchSteer
