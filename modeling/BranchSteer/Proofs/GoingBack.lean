import BranchSteer.Proofs.AttemptedInput

/-!
Carrying out a decision that takes the process back. The process is then in the state in which the
checkpoint was created, apart from the perturbed bytes, and the engine is making an attempt, following the
trace or in a new tainting phase.
-/

namespace BranchSteer

def Order.target? : Order → Option (Nat × Perturbation)
  | .attempt resolution => some (resolution.checkpoint, Engine.nextPerturbation resolution)
  | .restore checkpoint => some (checkpoint, .none)
  | .restart seed => some (0, .input seed)
  | _ => none

/-- The process is back at a checkpoint. It is in a state that it went through before, apart from the
perturbation. -/
structure WentBack (decision : Decision) (origin : Machine) (index : Nat) (machine : Machine)
    (after : Engine) (memory : Memory) : Prop where
  target : ∃ id perturbation checkpoint, decision.order.target? = some (id, perturbation) ∧
    decision.engine.checkpoints[id]? = some checkpoint ∧
    checkpoint.position = decision.engine.basePosition + index + 1 ∧ ∀ address,
      memory.byte address = (perturbation.value? decision.engine.input decision.engine.random
        address).getD (machine.memory.byte address)
  reached : origin.steps index = .ok machine
  size : memory.size = machine.memory.size
  position : after.position = decision.engine.basePosition + index
  config : after.config = decision.engine.config
  input : after.input = decision.engine.input
  budget : decision.engine.rollbacks < decision.engine.config.rollbackLimit
  rollbacks : after.rollbacks = decision.engine.rollbacks + 1

structure Restarted (engine : Engine) (seed : List UInt8) (index : Nat) (after : Engine) : Prop where
  baseInput : after.baseInput = seed
  length : seed.length = engine.input.length
  base : after.basePosition = engine.basePosition + index
  trace : after.trace = engine.trace.take (engine.basePosition + index)
  phaseNumber : after.phaseNumber = engine.phaseNumber + 1
  checkpoints : after.checkpoints = #[]

inductive Returns (decision : Decision) (origin : Machine) (executions : List Execution)
    (genuine : Finding → List UInt8 → Prop) (memory : Memory) : Reaction → Prop
  | ended (after : Engine) (finished : after.phase = .finished)
    (supported : after.Supported genuine) :
    Returns _ _ _ _ _ ⟨after, memory, .ok .stop⟩
  | attempting (index : Nat) (machine : Machine) (after : Engine) (changed : Memory)
    (wentBack : WentBack decision origin index machine after changed)
    (recording : after.recording = decision.engine.recording)
    (recalls : Recalls origin after.basePosition after.checkpoints changed)
    (tried resolution : Resolution) (attempt : decision.order = .attempt tried)
    (checkpoint : resolution.checkpoint = tried.checkpoint)
    (perturbed : resolution.perturbed = tried.perturbed)
    (input : resolution.attemptedInput = decision.engine.patchInput changed tried.perturbed)
    (attempting : after.Attempting genuine executions resolution) :
    Returns _ _ _ _ _ ⟨after, changed, .ok (.rollback machine.processor)⟩
  | forwarding (index : Nat) (machine : Machine) (after : Engine) (restored : Memory)
    (wentBack : WentBack decision origin index machine after restored)
    (recording : after.recording = decision.engine.recording)
    (recalls : Recalls origin after.basePosition after.checkpoints restored)
    (id : Nat) (restore : decision.order = .restore id)
    (forwards : after.Forwards genuine executions) :
    Returns _ _ _ _ _ ⟨after, restored, .ok (.rollback machine.processor)⟩
  | tainting (index : Nat) (machine : Machine) (after : Engine) (changed : Memory)
    (wentBack : WentBack decision origin index machine after changed)
    (seed : List UInt8) (restart : decision.order = .restart seed)
    (restarted : Restarted decision.engine seed index after)
    (tainting : after.Tainting []) (supported : after.Supported genuine) :
    Returns _ _ _ _ _ ⟨after, changed, .ok (.rollback machine.processor)⟩

namespace Engine

variable {engine : Engine} {genuine : Finding → List UInt8 → Prop} {executions : List Execution}
  {origin : Machine} {memory : Memory}

theorem Supported.finish (supported : engine.Supported genuine) (exhausted : Bool) :
    (engine.finish exhausted).phase = .finished ∧ (engine.finish exhausted).Supported genuine := by
  obtain ⟨summaries, log, shape⟩ := finish_eq engine exhausted
  rw [shape]
  exact ⟨rfl, supported.archived, supported.current⟩

/-- A rollback that the budget allows leads to the recalled state, and all checkpoints recall the same
as before. -/
theorem rewind_recalled (recalls : Recalls origin engine.basePosition engine.checkpoints memory)
    (small : origin.memory.size < addressSpace) {id : Nat} {perturbation : Perturbation}
    (fits : perturbation.Fits engine.input origin.memory.size) {target : Checkpoint}
    (found : engine.checkpoints[id]? = some target) (armed : target.armed)
    (budget : engine.rollbacks < engine.config.rollbackLimit) :
    ∃ checkpoints random index machine changed,
      engine.rewind memory id perturbation = ⟨{ engine with
          checkpoints := checkpoints
          random := random
          position := engine.basePosition + index
          rollbacks := engine.rollbacks + 1
          rollbacksInPhase := engine.rollbacksInPhase + 1 },
        changed, .ok (.rollback machine.processor)⟩ ∧
      target.position = engine.basePosition + index + 1 ∧
      origin.steps index = .ok machine ∧ changed.size = machine.memory.size ∧
      (∀ address, changed.byte address =
        (perturbation.value? engine.input engine.random address).getD
          (machine.memory.byte address)) ∧
      Recalls origin engine.basePosition checkpoints changed ∧
      checkpoints.map Checkpoint.point = engine.checkpoints.map Checkpoint.point ∧
      ∀ {other : Nat} {checkpoint : Checkpoint}, checkpoints[other]? = some checkpoint →
        (checkpoint.armed ↔ other ≤ id) := by
  have size := recalls.size
  have smallMemory : memory.size < addressSpace := size ▸ small
  have fitsMemory : perturbation.Fits engine.input memory.size := size ▸ fits
  obtain ⟨checkpoints, rollback, goesBack, shape⟩ :=
    rewind_rewound budget smallMemory recalls.stack fitsMemory found armed
  obtain ⟨rolled, _⟩ := goesBack.target found
  obtain ⟨index, machine, place, reached, processor, holds⟩ := recalls.each found
  refine ⟨checkpoints, rollback.random, index, machine, rollback.memory, ?_, place, reached, ?_, ?_,
    recalls.rewound goesBack smallMemory fitsMemory found armed, goesBack.reverted.map_point, ?_⟩
  · rw [shape, place, processor]
    rfl
  · rw [rolled.size, size, (Machine.steps_framed small reached).2]
  · intro address
    rw [rolled.byte, holds armed]
  · exact fun there => goesBack.armed_iff recalls.stack found armed there

theorem exists_checkpoint {id : Nat} {point : Point}
    (found : engine.recording.points[id]? = some point) :
    ∃ checkpoint, engine.checkpoints[id]? = some checkpoint ∧ checkpoint.point = point := by
  rw [points_getElem?, Option.map_eq_some_iff] at found
  exact found

theorem Supported.rewind_exhausted (supported : engine.Supported genuine)
    (exhausted : engine.config.rollbackLimit ≤ engine.rollbacks) (memory : Memory) (id : Nat)
    (perturbation : Perturbation) :
    ∃ after, engine.rewind memory id perturbation = ⟨after, memory, .ok .stop⟩ ∧
      after.phase = .finished ∧ after.Supported genuine :=
  ⟨_, Engine.rewind_exhausted exhausted memory id perturbation,
    (supported.inform _).finish true⟩

def spent (resolution : Resolution) : Resolution :=
  { resolution with
    attempts := resolution.attempts + 1
    schedule := resolution.schedule.tail }

theorem Attempts.perturb {resolution : Resolution}
    (attempts : engine.Attempts genuine executions resolution)
    (recalls : Recalls origin engine.basePosition engine.checkpoints memory)
    (small : origin.memory.size < addressSpace)
    (inside : engine.input.address + engine.input.length ≤ origin.memory.size) :
    Returns ⟨engine, .attempt resolution⟩ origin executions genuine memory
      (engine.perturb memory resolution) := by
  obtain ⟨⟨phase, describes, branches, supported⟩, target, first, armed, bytes⟩ := attempts
  obtain ⟨branch, foundBranch, isOpen, latest⟩ := target
  obtain ⟨point, there, ahead⟩ := candidate_position (branches foundBranch) latest
  obtain ⟨checkpoint, found, same⟩ := exists_checkpoint there
  have fits : (nextPerturbation resolution).Fits engine.input origin.memory.size :=
    fits_nextPerturbation inside fun address member => (bytes there address (Or.inl member)).inside
  have starting : ({ engine with active := some (spent resolution) } : Engine).Supported genuine :=
    ⟨supported.archived, supported.current⟩
  unfold Engine.perturb
  by_cases exhausted : engine.config.rollbackLimit ≤ engine.rollbacks
  · obtain ⟨after, stopped, finished, supportedToo⟩ := starting.rewind_exhausted exhausted memory
      resolution.checkpoint (nextPerturbation resolution)
    simp only [spent] at stopped
    simp only [stopped]
    exact .ended after finished supportedToo
  · have budget := Nat.lt_of_not_le exhausted
    obtain ⟨checkpoints, random, index, machine, changed, back, place, reached, size, byte,
      recallsToo, points, isArmed⟩ := rewind_recalled
        (show Recalls origin ({ engine with active := some (spent resolution) } : Engine).basePosition
          engine.checkpoints memory from recalls)
        small fits found (armed _ _ (Nat.le_refl _) found) budget
    simp only [spent] at back
    simp only [back]
    have recording : ({ engine with
        checkpoints := checkpoints
        position := engine.basePosition + index } : Engine).recording = engine.recording := by
      simp only [Engine.recording, points]
    have length : engine.baseInput.length = engine.input.length := describes.inputLength
    have position : point.position = engine.basePosition + index + 1 := same ▸ place
    refine .attempting index machine _ changed
      ⟨⟨_, _, checkpoint, rfl, found, place, byte⟩, reached, size, rfl, rfl, rfl, budget, rfl⟩
      recording recallsToo resolution
      { spent resolution with
        attemptedInput := engine.patchInput changed resolution.perturbed } rfl rfl rfl rfl ?_
    refine ⟨⟨⟨phase, recording ▸ describes, fun known => recording ▸ branches known,
      supported.archived, supported.current⟩, ⟨branch, foundBranch, isOpen, latest⟩, first,
      fun lower other upTo known => (isArmed known).mpr upTo, ?_⟩, rfl, ?_, ?_, ?_⟩
    · exact fun known => recording ▸ bytes (recording ▸ known)
    · intro other known
      have sameToo : some other = some point := (recording ▸ known).symm.trans there
      exact Nat.le_of_eq ((congrArg Point.position (Option.some.inj sameToo)).trans position)
    · simp only [spent]
      omega
    · rw [length_patchInput, length]

theorem Restores.rewind {id : Nat} (restores : engine.Restores genuine executions id)
    (recalls : Recalls origin engine.basePosition engine.checkpoints memory)
    (small : origin.memory.size < addressSpace) :
    Returns ⟨engine, .restore id⟩ origin executions genuine memory
      (engine.rewind memory id .none) := by
  obtain ⟨⟨phase, describes, branches, supported⟩, idle, armed, target, pending⟩ := restores
  obtain ⟨point, there, ahead⟩ := target
  obtain ⟨checkpoint, found, same⟩ := exists_checkpoint there
  have fits : Perturbation.none.Fits engine.input origin.memory.size :=
    fun access member => by simp [Perturbation.ranges] at member
  by_cases exhausted : engine.config.rollbackLimit ≤ engine.rollbacks
  · obtain ⟨after, stopped, finished, supportedToo⟩ :=
      supported.rewind_exhausted exhausted memory id .none
    rw [stopped]
    exact .ended after finished supportedToo
  · have budget := Nat.lt_of_not_le exhausted
    obtain ⟨checkpoints, random, index, machine, restored, back, place, reached, size, byte,
      recallsToo, points, isArmed⟩ :=
        rewind_recalled recalls small fits found (armed _ _ (Nat.le_refl _) found) budget
    rw [back]
    have recording : ({ engine with
        checkpoints := checkpoints
        position := engine.basePosition + index } : Engine).recording = engine.recording := by
      simp only [Engine.recording, points]
    have position : point.position = engine.basePosition + index + 1 := same ▸ place
    refine .forwarding index machine _ restored
      ⟨⟨_, _, checkpoint, rfl, found, place, byte⟩, reached, size, rfl, rfl, rfl, budget, rfl⟩
      recording recallsToo id rfl ?_
    refine ⟨⟨phase, recording ▸ describes, fun known => recording ▸ branches known,
      supported.archived, supported.current⟩, idle, Nat.le_add_right _ _, pending, ?_, ?_⟩
    · intro other branch known isOpen
      have behind := ahead known isOpen
      simp only
      omega
    · intro other earlier known before
      refine (isArmed known).mpr (Nat.le_of_not_lt fun above => ?_)
      -- A later checkpoint lies behind the position of the target.
      have knownPoint : engine.recording.points[other]? = some earlier.point := by
        rw [← recording, points_getElem?, known, Option.map_some]
      have later := describes.increasing above there knownPoint
      have samePosition : earlier.point.position = earlier.position := rfl
      simp only at before
      omega

theorem tainting_nil (phase : engine.phase = .tainting)
    (length : engine.baseInput.length = engine.input.length)
    (position : engine.position = engine.basePosition)
    (size : engine.trace.size = engine.basePosition) (checkpoints : engine.checkpoints = #[])
    (branches : engine.branches = ∅) (graph : engine.graph = .empty engine.input) :
    engine.Tainting [] := by
  have points : engine.recording.points = #[] := by simp [recording, checkpoints]
  refine ⟨phase, ⟨length, size, by simp, ?_, ?_, by simp⟩, position.trans size.symm,
    ?_, ?_, graph ▸ Flow.Graph.follows_empty _ _, graph ▸ rfl⟩
  · simp [points]
  · simp [points]
  · simp [checkpoints]
  · simp [branches]

theorem Restarts.explore {seed : List UInt8} (restarts : engine.Restarts genuine executions seed)
    (recalls : Recalls origin engine.basePosition engine.checkpoints memory)
    (small : origin.memory.size < addressSpace)
    (inside : engine.input.address + engine.input.length ≤ origin.memory.size) :
    Returns ⟨engine, .restart seed⟩ origin executions genuine memory
      (engine.explore memory seed) := by
  obtain ⟨describes, supported, armed, length⟩ := restarts
  unfold Engine.explore
  split
  · obtain ⟨finished, supportedToo⟩ :=
      (supported.inform "No checkpoint to restart the traced program from").finish false
    exact .ended _ finished supportedToo
  · rename_i nonempty
    obtain ⟨checkpoint, found⟩ : ∃ checkpoint, engine.checkpoints[0]? = some checkpoint := by
      have positive : 0 < engine.checkpoints.size := by
        simpa [Array.size_pos_iff] using nonempty
      exact ⟨_, Array.getElem?_eq_getElem positive⟩
    have fits : (Perturbation.input seed).Fits engine.input origin.memory.size := by
      intro access member
      simp only [Perturbation.ranges, List.mem_singleton] at member
      exact member ▸ inside
    by_cases exhausted : engine.config.rollbackLimit ≤ engine.rollbacks
    · obtain ⟨after, stopped, finished, supportedToo⟩ :=
        supported.rewind_exhausted exhausted memory 0 (.input seed)
      simp only [stopped]
      exact .ended after finished supportedToo
    · have budget := Nat.lt_of_not_le exhausted
      obtain ⟨checkpoints, random, index, machine, changed, back, place, reached, size, byte,
        recallsToo, points, isArmed⟩ :=
          rewind_recalled recalls small fits found (armed _ _ (Nat.le_refl _) found) budget
      simp only [back]
      have pointFound : engine.recording.points[0]? = some checkpoint.point := by
        rw [points_getElem?, found, Option.map_some]
      obtain ⟨other, execution, executed, position, _⟩ := describes.point pointFound
      have traceSize : engine.trace.size = engine.basePosition + executions.length :=
        describes.traceSize
      obtain ⟨bound, _⟩ := List.getElem?_eq_some_iff.mp executed
      have samePosition : checkpoint.point.position = checkpoint.position := rfl
      have base : engine.recording.basePosition = engine.basePosition := rfl
      have taken : (engine.trace.take (engine.basePosition + index)).size =
          engine.basePosition + index := by
        rw [Array.take_eq_extract, Array.size_extract]
        omega
      refine .tainting index machine _ changed
        ⟨⟨_, _, checkpoint, rfl, found, place, byte⟩, reached, size, rfl, rfl, rfl, budget, rfl⟩
        seed rfl ⟨rfl, length, rfl, rfl, rfl, rfl⟩
        (tainting_nil rfl length rfl taken rfl rfl rfl) ⟨?_, ?_⟩
      · intro branch member
        simp only [Engine.inform, note, clearPhase, List.mem_append, List.mem_map] at member
        rcases member with old | ⟨current, listed, rfl⟩
        · exact supported.archived branch old
        · obtain ⟨place, known⟩ := Flow.Branches.exists_of_mem listed
          have kept := supported.current known
          exact kept
      · intro place branch known
        simp [Engine.inform, note, clearPhase] at known

theorem TakesBack.carryOut {decision : Decision}
    (takesBack : engine.TakesBack genuine executions decision)
    (recalls : Recalls origin engine.basePosition engine.checkpoints memory)
    (small : origin.memory.size < addressSpace)
    (inside : engine.input.address + engine.input.length ≤ origin.memory.size) :
    Returns decision origin executions genuine memory (decision.carryOut memory) := by
  have kept : ∀ {after : Engine}, Keeps engine after →
      Recalls origin after.basePosition after.checkpoints memory ∧
        after.input.address + after.input.length ≤ origin.memory.size := by
    intro after keeps
    have base := Engine.basePosition_of_recording keeps.recording
    rw [base, keeps.checkpoints, keeps.input]
    exact ⟨recalls, inside⟩
  cases takesBack with
  | attempt after resolution keeps attempts =>
      exact attempts.perturb (kept keeps).1 small (kept keeps).2
  | restore after id keeps restores => exact restores.rewind (kept keeps).1 small
  | restart after seed keeps restarts =>
      exact restarts.explore (kept keeps).1 small (kept keeps).2
  | stop after keeps finished supported => exact .ended after finished supported

end Engine

end BranchSteer
