import BranchSteer.Proofs.Proceeding

/-!
Taking a process back that may have done anything. Nothing is known of its memory here, so a rollback may
fail; but it fails by what the memory holds and by none of the checks that the engine makes of itself, and
unless it fails, the checkpoints up to its target are the ones that are armed.
-/

namespace BranchSteer

/-- The faults that a host causes by what it calls the engine with and by what its memory holds. -/
inductive Fault.OfHost : Fault → Prop
  | readOutOfBounds (access : MemoryRange) : OfHost (.readOutOfBounds access)
  | writeOutOfBounds (access : MemoryRange) : OfHost (.writeOutOfBounds access)
  | readingInput (access : MemoryRange) : OfHost (.during .readingInput (.readOutOfBounds access))
  | restoringLog (access : MemoryRange) : OfHost (.during .restoringLog (.writeOutOfBounds access))
  | inputAlreadyDelivered : OfHost .inputAlreadyDelivered
  | inputWrapsAround (input : InputBuffer) : OfHost (.inputWrapsAround input)
  | accessWrapsAround (access : MemoryRange) : OfHost (.accessWrapsAround access)
  | missingOutcome (address : Nat) : OfHost (.missingOutcome address)
  | divergence (position expected found : Nat) :
    OfHost (.violation (.divergence position expected found))
  | earlyExit (position : Nat) : OfHost (.violation (.earlyExit position))
  | pastTrace (position : Nat) : OfHost (.violation (.pastTrace position))

theorem Memory.writeAll_error {memory written : Memory} {entries : List (Nat × List UInt8)}
    {fault : Fault} (failed : memory.writeAll entries = (written, some fault)) :
    ∃ access, fault = .writeOutOfBounds access := by
  induction entries generalizing memory with
  | nil => simp [writeAll] at failed
  | cons entry rest ih =>
      simp only [writeAll] at failed
      split at failed
      · exact ih failed
      · rename_i other unwritable
        simp only [Prod.mk.injEq, Option.some.injEq] at failed
        obtain ⟨_, rfl⟩ := failed
        unfold Memory.write at unwritable
        split at unwritable
        · simp at unwritable
        · exact ⟨_, (Except.error.inj unwritable).symm⟩

theorem Perturbation.apply_error {input : InputBuffer} {memory : Memory} {random : Random}
    {perturbation : Perturbation} {perturbed : Perturbed} {fault : Fault}
    (failed : perturbation.apply input memory random = perturbed)
    (faulty : perturbed.fault = some fault) : ∃ access, fault = .writeOutOfBounds access := by
  have wrote := perturbation.writeAll_entries input memory random
  rw [failed, faulty] at wrote
  exact Memory.writeAll_error wrote

namespace Checkpoint

variable {checkpoint tracked : Checkpoint} {memory : Memory}

theorem logRange_error {access : MemoryRange} {fault : Fault}
    (failed : checkpoint.logRange memory access = .error fault) :
    fault = .readOutOfBounds access := by
  unfold logRange at failed
  split at failed
  · simp at failed
  · split at failed
    · rename_i unreadable
      exact Except.error.inj failed ▸ (Memory.read_eq_error unreadable).1
    · simp at failed

theorem logRanges_error {ranges : List MemoryRange} {fault : Fault}
    (failed : checkpoint.logRanges memory ranges = (tracked, some fault)) :
    ∃ access, fault = .readOutOfBounds access := by
  induction ranges generalizing checkpoint with
  | nil => simp [logRanges] at failed
  | cons access rest ih =>
      simp only [logRanges] at failed
      split at failed
      · rename_i other unreadable
        simp only [Prod.mk.injEq, Option.some.injEq] at failed
        exact ⟨access, failed.2 ▸ logRange_error unreadable⟩
      · exact ih failed

/-- A rollback arms its checkpoint, leaves it at its point and restarts its log with what the perturbation
overwrites, or it fails by what the memory holds. -/
theorem rollback_outcome (checkpoint : Checkpoint) (memory : Memory) (input : InputBuffer)
    (perturbation : Perturbation) (random : Random) :
    (∃ fault, (checkpoint.rollback memory input perturbation random).result = .error fault ∧
      fault.OfHost) ∨
    ((∃ processor, (checkpoint.rollback memory input perturbation random).result =
        .ok processor) ∧
      (checkpoint.rollback memory input perturbation random).checkpoint.point = checkpoint.point ∧
      (checkpoint.rollback memory input perturbation random).checkpoint.armed ∧
      ∀ address ∈ (checkpoint.rollback memory input perturbation random).checkpoint.writeLog,
        address ∈ (perturbation.ranges input).flatMap MemoryRange.addresses) := by
  unfold rollback
  cases undone : undo checkpoint.writeLog memory with
  | mk restored failure =>
      cases failure with
      | some fault =>
          obtain ⟨access, rfl⟩ := Memory.writeAll_error undone
          exact Or.inl ⟨_, rfl, .restoringLog access⟩
      | none =>
          simp only
          split
          · rename_i tracked fault failed
            obtain ⟨access, rfl⟩ := logRanges_error failed
            exact Or.inl ⟨_, rfl, .readOutOfBounds access⟩
          · rename_i tracked logged
            have tracks := logRanges_logged rfl logged
            split
            · rename_i fault failed
              obtain ⟨access, rfl⟩ := Perturbation.apply_error failed rfl
              exact Or.inl ⟨_, rfl, .writeOutOfBounds access⟩
            · refine Or.inr ⟨⟨_, rfl⟩, tracks.point_eq, tracks.armed, fun address member => ?_⟩
              rw [tracks.mem_iff] at member
              simpa [arm] using member

end Checkpoint

namespace Engine

structure TakenBack (engine : Engine) (id : Nat) (after : Engine) : Prop where
  budget : engine.rollbacks < engine.config.rollbackLimit
  frame : after = { engine with
    checkpoints := after.checkpoints
    random := after.random
    position := after.position
    rollbacks := engine.rollbacks + 1
    rollbacksInPhase := engine.rollbacksInPhase + 1 }
  position : ∀ {point : Point}, engine.recording.points[id]? = some point →
    after.position = Position.previous point.position
  recording : after.recording = engine.recording
  armed : ∀ {other : Nat} {checkpoint : Checkpoint}, after.checkpoints[other]? = some checkpoint →
    (checkpoint.armed ↔ other ≤ id)

inductive GoesBack (engine : Engine) (memory : Memory) (id : Nat) : Reaction → Prop
  | exhausted (spent : engine.config.rollbackLimit ≤ engine.rollbacks) (text : String) :
    GoesBack _ _ _ ⟨(engine.inform text).finish true, memory, .ok .stop⟩
  | failed (after : Engine) (changed : Memory) (fault : Fault) (ofHost : fault.OfHost) :
    GoesBack _ _ _ ⟨after, changed, .error fault⟩
  | returned (after : Engine) (changed : Memory) (processor : Processor)
    (takenBack : engine.TakenBack id after) :
    GoesBack _ _ _ ⟨after, changed, .ok (.rollback processor)⟩

variable {engine after : Engine} {id : Nat}

theorem rewind_goesBack (armed : engine.ArmedUpTo id) {target : Checkpoint}
    (found : engine.checkpoints[id]? = some target) (memory : Memory) (perturbation : Perturbation) :
    engine.GoesBack memory id (engine.rewind memory id perturbation) := by
  unfold rewind
  split
  · rename_i spent
    exact .exhausted spent _
  · rename_i left
    simp only [found, armed id target (Nat.le_refl id) found, Bool.not_true, Bool.false_eq_true,
      if_false]
    split
    · rename_i fault failed
      obtain ⟨access, _, rfl, _⟩ := logRanges_error failed
      exact .failed _ _ _ (.readOutOfBounds access)
    · rename_i earlier logs
      rcases target.rollback_outcome memory engine.input perturbation engine.random with
        ⟨fault, failed, ofHost⟩ | ⟨⟨processor, done⟩, point, armedAgain, _⟩
      · rw [failed]
        exact .failed _ _ _ ofHost
      · rw [done]
        have reverted := reverted_of_logged (logRanges_loggedAll logs) found armedAgain
          (congrArg Point.position point) (congrArg Point.processor point)
          (congrArg Point.inputBytes point)
        refine .returned _ _ processor
          ⟨Nat.lt_of_not_le left, rfl, ?_, ?_, fun there => reverted.armed_iff armed there⟩
        · intro other there
          rw [points_getElem?, found, Option.map_some, Option.some.injEq] at there
          exact there ▸ rfl
        · simp only [recording, reverted.map_point]

/-- A process that is taken back is left with the memory that the checkpoint recalls, under the
perturbation. -/
theorem rewind_bytes {memory changed : Memory} {perturbation : Perturbation} {processor : Processor}
    (done : engine.rewind memory id perturbation = ⟨after, changed, .ok (.rollback processor)⟩) :
    ∃ target, engine.checkpoints[id]? = some target ∧ changed.size = memory.size ∧
      ∀ address, changed.byte address =
        (perturbation.value? engine.input engine.random address).getD
          (target.recalledByte memory address) := by
  unfold rewind at done
  split at done
  · simp at done
  · split at done
    · simp at done
    · rename_i target found
      split at done
      · simp at done
      · simp only at done
        split at done
        · simp at done
        · split at done
          · simp at done
          · rename_i succeeds
            obtain ⟨size, _, bytes⟩ := Checkpoint.rollback_bytes succeeds
            obtain rfl := (Reaction.mk.inj done).2.1
            exact ⟨target, found, size, bytes⟩

theorem perturb_bytes {memory changed : Memory} {resolution : Resolution} {processor : Processor}
    (done : engine.perturb memory resolution = ⟨after, changed, .ok (.rollback processor)⟩) :
    ∃ target, engine.checkpoints[resolution.checkpoint]? = some target ∧
      changed.size = memory.size ∧
      ∀ address, changed.byte address =
        ((nextPerturbation resolution).value? engine.input engine.random address).getD
          (target.recalledByte memory address) := by
  simp only [perturb] at done
  generalize returned : Engine.rewind _ _ _ _ = reaction at done
  obtain ⟨behind, written, result⟩ := reaction
  split at done
  · rename_i taken went
    obtain rfl : written = changed := (Reaction.mk.inj done).2.1
    obtain rfl : result = .ok (.rollback taken) := went
    exact (rewind_bytes returned :)
  · obtain ⟨rfl, rfl, rfl⟩ := Reaction.mk.inj done
    exact (rewind_bytes returned :)

end Engine

end BranchSteer
