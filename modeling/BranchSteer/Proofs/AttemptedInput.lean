import BranchSteer.Proofs.Flips

/-!
The input of an attempt. An attempt perturbs bytes of the input at a checkpoint in the middle of the
trace. Nothing touched these bytes before, so the process is in the same state as if it had started the
phase with the input that the engine notes down for the attempt.
-/

namespace BranchSteer

namespace Engine

theorem isSome_value?_nextPerturbation (input : InputBuffer) (random : Random)
    (resolution : Resolution) (address : Nat) :
    ((nextPerturbation resolution).value? input random address).isSome ↔
      address ∈ resolution.perturbed := by
  unfold nextPerturbation
  split
  · rw [Perturbation.isSome_value?_assign, Std.ExtTreeMap.mem_ofList]
    simp
  · exact Perturbation.isSome_value?_randomize input random resolution.perturbed address

theorem fits_nextPerturbation {input : InputBuffer} {size : Nat} {resolution : Resolution}
    (inside : input.address + input.length ≤ size)
    (bytes : ∀ address ∈ resolution.perturbed, input.contains address) :
    (nextPerturbation resolution).Fits input size := by
  have bounded : ∀ address ∈ resolution.perturbed, address + 1 ≤ size := by
    intro address member
    have bounds := (input.contains_iff address).mp (bytes address member)
    omega
  intro access member
  unfold nextPerturbation at member
  split at member
  · simp only [Perturbation.ranges, List.mem_map, Std.ExtTreeMap.mem_keys,
      Std.ExtTreeMap.mem_ofList, List.contains_iff_mem] at member
    obtain ⟨address, ⟨_, ⟨other, known, rfl⟩, rfl⟩, rfl⟩ := member
    exact bounded other (by simpa using known)
  · simp only [Perturbation.ranges, List.mem_map, Std.ExtTreeSet.mem_toList] at member
    obtain ⟨address, known, rfl⟩ := member
    exact bounded address known

theorem length_patchInput (engine : Engine) (memory : Memory) (perturbed : Std.ExtTreeSet Nat) :
    (engine.patchInput memory perturbed).length = engine.baseInput.length := by
  simp [patchInput]

theorem getElem?_patchInput (engine : Engine) (memory : Memory) (perturbed : Std.ExtTreeSet Nat)
    (offset : Nat) : (engine.patchInput memory perturbed)[offset]? =
      engine.baseInput[offset]?.map fun byte =>
        if engine.input.address + offset ∈ perturbed then
          memory.byte (engine.input.address + offset)
        else byte := by
  simp [patchInput, List.getElem?_mapIdx]

end Engine

namespace Machine

variable {origin : Machine} {executions : List Execution}

/-- A run with other values in bytes that were not touched yet reaches the same state, apart from these
bytes, and along the same addresses. -/
theorem withInput_steps (input : InputBuffer) {old new : List UInt8} (bytes : Nat → Prop)
    {recording : Recording} (describes : recording.Describes executions)
    (performs : origin.Performs executions) (small : origin.memory.size < addressSpace)
    (length : new.length = old.length) (holds : origin.memory.Holds input.address old)
    (same : ∀ offset, ¬ bytes (input.address + offset) → new[offset]? = old[offset]?)
    {index : Nat} (bound : index ≤ executions.length)
    (untouched : ∀ {before : Nat} {execution : Execution} {address : Nat}, before < index →
      executions[before]? = some execution → bytes address → ¬ execution.Touches address) :
    ∃ machine twin, origin.steps index = .ok machine ∧
      (origin.withInput input old new).steps index = .ok twin ∧ AgreeOff bytes machine twin ∧
      (∀ offset value, bytes (input.address + offset) → new[offset]? = some value →
        twin.memory.byte (input.address + offset) = value) ∧
      (origin.withInput input old new).FollowsTrace recording.basePosition recording.trace
        (recording.basePosition + index) := by
  obtain ⟨size, overwritten⟩ := Memory.overwrite_spec length holds
  have agree : AgreeOff bytes origin (origin.withInput input old new) := by
    refine ⟨rfl, rfl, rfl, size.symm, fun address outside => ?_⟩
    simp only [withInput, overwritten]
    split
    · rename_i above
      have place : input.address + (address - input.address) = address := by omega
      rw [same (address - input.address) (place.symm ▸ outside)]
      cases found : old[address - input.address]? with
      | none => rfl
      | some value => rw [Option.getD_some, ← holds _ value found, place]
    · rfl
  have unread : ∀ {before : Nat} {execution : Execution} {address : Nat}, before < index →
      executions[before]? = some execution → execution.Reads address → ¬ bytes address :=
    fun below found reads inside => untouched below found inside (Or.inl reads)
  obtain ⟨machine, twin, reached, reachedToo, alike, kept⟩ := agree.steps small performs bound unread
  refine ⟨machine, twin, reached, reachedToo, alike, fun offset value inside found => ?_, ?_⟩
  · rw [(kept (input.address + offset) fun below foundBefore writes =>
      untouched below foundBefore inside (Or.inr writes)).2]
    simp [withInput, overwritten, found]
  · intro before below
    obtain ⟨earlier, earlierTwin, there, thereToo, alikeToo, _⟩ := agree.steps small performs
      (by omega : before ≤ executions.length) fun earlierThan => unread (by omega)
    have found : executions[before]? = some executions[before] :=
      List.getElem?_eq_getElem (by omega)
    obtain ⟨running, foreseen⟩ := performs.each_of_steps found there
    refine ⟨earlierTwin, thereToo, alikeToo.halted ▸ running, ?_⟩
    rw [describes.trace found, execution_address foreseen]
    exact congrArg (fun processor => some processor.instructionPointer) alikeToo.processor

/-- Perturbing untouched bytes at a checkpoint leads to the state of a run with the input of the
attempt. -/
theorem attempt_alike {engine : Engine} {resolution : Resolution} {random : Random}
    {machine : Machine} (now : Machine) {index : Nat}
    (describes : engine.recording.Describes executions) (performs : origin.Performs executions)
    (small : origin.memory.size < addressSpace)
    (holds : origin.memory.Holds engine.input.address engine.baseInput)
    (reached : origin.steps index = .ok machine) (bound : index < executions.length)
    (bytes : ∀ address ∈ resolution.perturbed,
      engine.recording.Untouched executions (engine.basePosition + index + 1) address)
    (operations : now.program.operations = origin.program.operations)
    (processor : now.processor = machine.processor) (running : now.halted = false)
    (size : now.memory.size = machine.memory.size)
    (perturbed : ∀ address, now.memory.byte address =
      ((Engine.nextPerturbation resolution).value? engine.input random address).getD
        (machine.memory.byte address)) :
    ∃ twin, (origin.withInput engine.input engine.baseInput
        (engine.patchInput now.memory resolution.perturbed)).steps index = .ok twin ∧
      Alike now twin ∧
      (origin.withInput engine.input engine.baseInput
        (engine.patchInput now.memory resolution.perturbed)).FollowsTrace engine.basePosition
          engine.trace (engine.basePosition + index) := by
  have base : engine.recording.basePosition = engine.basePosition := rfl
  obtain ⟨other, twin, there, reachedToo, alike, patched, follows⟩ :=
    withInput_steps engine.input (· ∈ resolution.perturbed) describes performs small
      (engine.length_patchInput now.memory resolution.perturbed) holds
      (fun offset unperturbed => by
        rw [engine.getElem?_patchInput]
        simp [unperturbed])
      (Nat.le_of_lt bound)
      (fun below found member => (bytes _ member).before found (by omega))
  rw [reached, Except.ok.injEq] at there
  subst there
  refine ⟨twin, reachedToo, ⟨?_, processor.trans alike.processor, ?_, size.trans alike.size, ?_⟩,
    follows⟩
  · rw [operations, ← (steps_framed small reached).1, alike.operations]
  · obtain ⟨stillRunning, _⟩ :=
      performs.each_of_steps (List.getElem?_eq_getElem bound) reached
    rw [running, ← alike.halted, stillRunning]
  · intro address _
    by_cases member : address ∈ resolution.perturbed
    · have inside := (engine.input.contains_iff address).mp (bytes address member).inside
      have place : engine.input.address + (address - engine.input.address) = address := by omega
      have length : engine.baseInput.length = engine.input.length := describes.inputLength
      have found := engine.getElem?_patchInput now.memory resolution.perturbed
        (address - engine.input.address)
      rw [List.getElem?_eq_getElem (by omega : address - engine.input.address <
        engine.baseInput.length), Option.map_some, place, if_pos member] at found
      have kept := patched (address - engine.input.address) _ (place.symm ▸ member) found
      rw [place] at kept
      exact kept.symm
    · have unperturbed := mt (Engine.isSome_value?_nextPerturbation engine.input random resolution
        address).mp member
      rw [perturbed, Option.not_isSome_iff_eq_none.mp unperturbed, Option.getD_none,
        alike.byte address member]

end Machine

end BranchSteer
