import BranchSteer.Proofs.Situations

/-!
The list of checkpoints behind any calls none of which has failed. Every step of the engine keeps it in the
order of the positions and layered: recording adds an armed checkpoint at the end, a write is logged by all
that are armed, going back disarms all behind the target, and following the trace arms them again one by one.

The memory of the process may change between two calls, so that nothing is known of the values in the logs.
-/

namespace BranchSteer

structure Listed (checkpoints : Array Checkpoint) : Prop where
  increasing : ∀ {lower upper : Nat} {first second : Checkpoint}, lower < upper →
    checkpoints[lower]? = some first → checkpoints[upper]? = some second →
      first.position < second.position
  layered : Layered checkpoints

namespace Listed

variable {checkpoints before after : Array Checkpoint}

theorem empty : Listed #[] := ⟨by simp, .empty⟩

theorem of_origin (listed : Listed before) (layered : Layered after)
    (origin : ∀ {id : Nat} {checkpoint : Checkpoint}, after[id]? = some checkpoint →
      ∃ old, before[id]? = some old ∧ checkpoint.position = old.position) : Listed after := by
  refine ⟨fun {lower upper first second} ordered low high => ?_, layered⟩
  obtain ⟨oldLow, knownLow, sameLow⟩ := origin low
  obtain ⟨oldHigh, knownHigh, sameHigh⟩ := origin high
  rw [sameLow, sameHigh]
  exact listed.increasing ordered knownLow knownHigh

theorem loggedAll {memory : Memory} {addresses : List Nat} (listed : Listed before)
    (logged : LoggedAll memory addresses before after) : Listed after :=
  listed.of_origin (listed.layered.loggedAll logged) fun found =>
    have ⟨old, known, logs⟩ := logged.origin found
    ⟨old, known, logs.position⟩

theorem push (listed : Listed checkpoints)
    (each : ∀ {id : Nat} {checkpoint : Checkpoint}, checkpoints[id]? = some checkpoint →
      checkpoint.armed ∧ checkpoint.position < position)
    (processor : Processor) (inputBytes : Std.ExtTreeSet Nat) :
    Listed (checkpoints.push (.create position processor inputBytes)) := by
  refine ⟨fun {lower upper first second} ordered low high => ?_,
    listed.layered.push (fun found => (each found).1) position processor inputBytes⟩
  rcases of_getElem?_push low with knownLow | ⟨last, _⟩
  · rcases of_getElem?_push high with knownHigh | ⟨_, rfl⟩
    · exact listed.increasing ordered knownLow knownHigh
    · exact (each knownLow).2
  · obtain ⟨bound, _⟩ := Array.getElem?_eq_some_iff.mp high
    rw [Array.size_push] at bound
    omega

theorem arming (listed : Listed checkpoints) {position : Nat}
    (armed : ∀ {id : Nat} {checkpoint : Checkpoint}, checkpoints[id]? = some checkpoint →
      checkpoint.position < position → checkpoint.armed) :
    Listed (armAt position checkpoints) :=
  listed.of_origin (listed.layered.arming listed.increasing armed) fun found =>
    have ⟨old, known, same, _⟩ := getElem?_armAt found
    ⟨old, known, same⟩

theorem reverted {memory : Memory} {addresses : List Nat} {id : Nat} {target : Checkpoint}
    (listed : Listed before) (reverted : Reverted memory addresses id before after)
    (here : before[id]? = some target) (armed : target.armed)
    (restarts : ∀ {rolled : Checkpoint}, after[id]? = some rolled →
      ∀ address ∈ rolled.writeLog, address ∈ addresses) : Listed after :=
  listed.of_origin (reverted.layered listed.layered here armed restarts) fun found =>
    have ⟨old, known, same, _⟩ := reverted.origin found
    ⟨old, known, same⟩

end Listed

namespace Engine

variable {engine after : Engine} {memory changed : Memory} {action : Action} {decision : Decision}
  {executions : List Execution}

theorem listed_rewind (listed : Listed engine.checkpoints) {id : Nat} {perturbation : Perturbation}
    (done : engine.rewind memory id perturbation = ⟨after, changed, .ok action⟩) :
    Listed after.checkpoints := by
  unfold rewind at done
  split at done
  · simp only [Reaction.mk.injEq] at done
    obtain ⟨summaries, log, shape⟩ := finish_eq _ _
    rw [← done.1, shape]
    exact listed
  · split at done
    · simp at done
    · rename_i target found
      split at done
      · simp at done
      · rename_i armed
        simp only at done
        split at done
        · simp at done
        · rename_i earlier logs
          rcases target.rollback_outcome memory engine.input perturbation engine.random with
            ⟨fault, failed, _⟩ | ⟨⟨processor, rolled⟩, point, armedAgain, restarts⟩
          · simp [failed] at done
          · have reverted := reverted_of_logged (logRanges_loggedAll logs) found armedAgain
              (congrArg Point.position point) (congrArg Point.processor point)
              (congrArg Point.inputBytes point)
            simp only [rolled, Reaction.mk.injEq] at done
            rw [← done.1]
            refine listed.reverted reverted found (by simpa using armed) fun there => ?_
            rw [getElem?_rewound (size_of_logged_take (logRanges_loggedAll logs) found),
              if_neg (Nat.lt_irrefl id), if_pos rfl, Option.some.injEq] at there
            exact there ▸ restarts

theorem listed_carryOut (listed : Listed decision.engine.checkpoints)
    (done : decision.carryOut memory = ⟨after, changed, .ok action⟩) : Listed after.checkpoints := by
  obtain ⟨engine, order⟩ := decision
  cases order with
  | proceed writes =>
      obtain ⟨tracked, ⟨logged, shape⟩ | ⟨access, shape⟩⟩ := engine.proceed_proceeded memory writes
      · rw [show engine.proceed memory writes = _ from done, Reaction.mk.injEq] at shape
        rw [shape.1]
        exact listed.loggedAll logged
      · rw [show engine.proceed memory writes = _ from done] at shape
        simp at shape
  | record instruction execution =>
      have entered := engine.enter_entered memory instruction execution
      rw [show engine.enter memory instruction execution = _ from done] at entered
      cases entered with
      | plain checkpoints logged notBranch => exact listed.loggedAll logged
      | branch checkpoints logged taken outcome => exact listed.loggedAll logged
  | attempt resolution =>
      simp only [Decision.carryOut, perturb] at done
      generalize shape : Engine.rewind _ _ _ _ = reaction at done
      obtain ⟨behind, restored, fault | answer⟩ := reaction
      · simp at done
      · have listedToo : Listed behind.checkpoints := by
          refine listed_rewind ?_ shape
          exact listed
        cases answer <;>
          (simp only [Reaction.mk.injEq] at done; rw [← done.1]; exact listedToo)
  | restore id =>
      refine listed_rewind ?_ (show engine.rewind memory id .none = _ from done)
      exact listed
  | restart seed =>
      simp only [Decision.carryOut, explore] at done
      split at done
      · obtain ⟨summaries, log, shape⟩ := finish_eq _ _
        rw [Reaction.mk.injEq] at done
        rw [← done.1, shape]
        exact listed
      · generalize shape : Engine.rewind _ _ _ _ = reaction at done
        obtain ⟨behind, restored, fault | answer⟩ := reaction
        · simp at done
        · have listedToo : Listed behind.checkpoints := by
            refine listed_rewind ?_ shape
            exact listed
          cases answer with
          | rollback processor =>
              rw [Reaction.mk.injEq] at done
              rw [← done.1]
              exact .empty
          | proceed | stop =>
              rw [Reaction.mk.injEq] at done
              rw [← done.1]
              exact listedToo
  | stop =>
      rw [← show engine = after from congrArg Reaction.engine done]
      exact listed
  | fail fault => simp [Decision.carryOut] at done

theorem TakesBack.checkpoints {near : Engine} {genuine : Finding → List UInt8 → Prop}
    (takesBack : near.TakesBack genuine executions decision) :
    decision.engine.checkpoints = near.checkpoints := by
  cases takesBack with
  | attempt after resolution keeps => exact keeps.checkpoints
  | restore after id keeps => exact keeps.checkpoints
  | restart after seed keeps => exact keeps.checkpoints
  | stop after keeps => exact keeps.checkpoints

theorem listed_advanced (listed : Listed engine.checkpoints)
    (armed : ∀ {id : Nat} {checkpoint : Checkpoint}, engine.checkpoints[id]? = some checkpoint →
      checkpoint.position ≤ engine.position → checkpoint.armed) :
    Listed engine.advanced.checkpoints := by
  rw [advanced_eq]
  exact listed.arming fun found before => armed found (Nat.le_of_lt_succ before)

theorem Tainting.listed_recordInstruction (tainting : engine.Tainting executions)
    (listed : Listed engine.checkpoints) (execution : Execution) (processor : Processor) :
    Listed (engine.recordInstruction execution processor).checkpoints := by
  simp only [recordInstruction]
  split
  · exact listed
  · refine listed.push (fun {id checkpoint} found => ⟨tainting.armed found, ?_⟩) processor _
    have there : engine.recording.points[id]? = some checkpoint.point := by
      rw [points_getElem?, found, Option.map_some]
    obtain ⟨index, _, executed, place, _⟩ := tainting.describes.point there
    obtain ⟨bound, _⟩ := List.getElem?_eq_some_iff.mp executed
    have size : engine.trace.size = engine.basePosition + executions.length :=
      tainting.describes.traceSize
    have position := tainting.position
    have base : engine.recording.basePosition = engine.basePosition := rfl
    have samePosition : checkpoint.point.position = checkpoint.position := rfl
    simp only [Position.next]
    omega

def Lists (decision : Decision) : Prop :=
  (∃ fault, decision.order = .fail fault) ∨ Listed decision.engine.checkpoints

theorem Situated.decide_lists (situated : engine.Situated) (listed : Listed engine.checkpoints)
    (processor : Processor) (instruction : Instruction) (execution : Execution) :
    Lists (engine.decide processor instruction execution) := by
  cases situated with
  | waiting phase =>
      simp only [Engine.decide, phase]
      exact Or.inr listed
  | finished phase =>
      simp only [Engine.decide, phase]
      exact Or.inr listed
  | tainting executions tainting supported =>
      simp only [Engine.decide, tainting.phase]
      split
      · exact Or.inl ⟨_, rfl⟩
      · rcases tainting.taint supported instruction execution processor with records | takesBack
        · rw [records]
          exact Or.inr (tainting.listed_recordInstruction listed execution processor)
        · exact Or.inr (takesBack.checkpoints ▸ listed)
  | forwarding executions forwards =>
      simp only [Engine.decide, forwards.steered.phase]
      split
      · exact Or.inl ⟨_, rfl⟩
      · by_cases follows : engine.trace[engine.position]? = some execution.address
        · have advanced := listed_advanced listed forwards.armed
          rcases forwards.replay follows with ⟨goesOn, _⟩ | takesBack
          · exact Or.inr (goesOn ▸ advanced)
          · exact Or.inr (takesBack.checkpoints ▸ advanced)
        · obtain ⟨after, fault, fails, _⟩ := replay_strays forwards.idle follows
          exact Or.inl ⟨fault, congrArg Decision.order fails⟩
  | attempting executions resolution attempting =>
      simp only [Engine.decide, attempting.attempts.steered.phase]
      split
      · exact Or.inl ⟨_, rfl⟩
      · rcases attempting.replay (fun _ _ _ _ => trivial) with ⟨goesOn, _⟩ | takesBack
        · exact Or.inr (goesOn ▸ listed)
        · exact Or.inr (takesBack.checkpoints ▸ listed)
  | cleared executions steered idle checkpoints branches =>
      simp only [Engine.decide, steered.phase]
      split
      · exact Or.inl ⟨_, rfl⟩
      · by_cases follows : engine.trace[engine.position]? = some execution.address
        · rw [replay_closed idle follows fun branch found => by simp [branches] at found]
          exact Or.inr (listed_advanced listed fun found => by simp [checkpoints] at found)
        · obtain ⟨after, fault, fails, _⟩ := replay_strays idle follows
          exact Or.inl ⟨fault, congrArg Decision.order fails⟩

theorem Situated.decideExit_lists (situated : engine.Situated)
    (listed : Listed engine.checkpoints) : Lists engine.decideExit := by
  cases situated with
  | waiting phase =>
      simp only [decideExit, phase]
      exact Or.inr listed
  | finished phase =>
      simp only [decideExit, phase]
      exact Or.inr listed
  | tainting executions tainting supported =>
      simp only [decideExit, tainting.phase]
      exact Or.inr ((tainting.endTainting supported).checkpoints ▸ listed)
  | forwarding executions forwards =>
      simp only [decideExit, forwards.steered.phase, replayExit, forwards.idle, Option.isSome_none,
        Bool.false_eq_true, if_false, if_neg (Nat.not_le_of_lt forwards.inside)]
      exact Or.inl ⟨_, rfl⟩
  | attempting executions resolution attempting =>
      simp only [decideExit, attempting.attempts.steered.phase]
      exact Or.inr (attempting.replayExit.checkpoints ▸ listed)
  | cleared executions steered idle checkpoints branches =>
      simp only [decideExit, steered.phase, replayExit, idle, Option.isSome_none,
        Bool.false_eq_true, if_false]
      split
      · have concludes := concludePhase_takesBack steered.describes steered.keyed steered.supported
          fun _ _ _ known => by simp [checkpoints] at known
        exact Or.inr (concludes.checkpoints ▸ listed)
      · exact Or.inl ⟨_, rfl⟩

theorem Lists.carryOut (lists : Lists decision)
    (done : decision.carryOut memory = ⟨after, changed, .ok action⟩) : Listed after.checkpoints := by
  rcases lists with ⟨fault, fails⟩ | listed
  · obtain ⟨engine, order⟩ := decision
    cases (show order = .fail fault from fails)
    simp [Decision.carryOut] at done
  · exact listed_carryOut listed done

theorem Situated.listed_afterCall (situated : engine.Situated) (listed : Listed engine.checkpoints)
    {call : Call} (done : engine.afterCall call = some after) : Listed after.checkpoints := by
  obtain ⟨memory, action, answered⟩ := afterCall_eq_some done
  obtain ⟨machine, request⟩ := call
  cases request with
  | input buffer =>
      simp only [answer] at answered
      split at answered
      · rename_i behind received
        obtain ⟨_, bytes, log, _, shape⟩ := receiveInput_eq_ok received
        rw [Reaction.mk.injEq] at answered
        rw [← answered.1, shape]
        exact listed
      · simp at answered
  | instruction instruction execution =>
      exact (situated.decide_lists listed machine.processor instruction execution).carryOut answered
  | exit => exact (situated.decideExit_lists listed).carryOut answered
  | clear =>
      rw [← show engine.clearPhase = after from congrArg Reaction.engine answered]
      exact .empty

/-- The checkpoints of an engine are listed. All of them are armed while they are recorded, and all up to
the position of the process while it follows the trace. -/
structure KeepsCheckpoints (engine : Engine) : Prop where
  listed : Listed engine.checkpoints
  recording : engine.phase = .tainting → ∀ checkpoint ∈ engine.checkpoints, checkpoint.armed
  forwarding : engine.phase = .rollbacking → engine.active = none →
    ∀ checkpoint ∈ engine.checkpoints, checkpoint.position ≤ engine.position → checkpoint.armed

theorem Situated.keepsCheckpoints (situated : engine.Situated)
    (listed : Listed engine.checkpoints) : engine.KeepsCheckpoints := by
  refine ⟨listed, fun phase checkpoint member => ?_, fun phase idle checkpoint member upTo => ?_⟩
  · obtain ⟨id, found⟩ := Array.mem_iff_getElem?.mp member
    cases situated with
    | waiting waiting => simp [waiting] at phase
    | tainting executions tainting => exact tainting.armed found
    | forwarding executions forwards => simp [forwards.steered.phase] at phase
    | attempting executions resolution attempting =>
        simp [attempting.attempts.steered.phase] at phase
    | cleared executions steered => simp [steered.phase] at phase
    | finished finished => simp [finished] at phase
  · obtain ⟨id, found⟩ := Array.mem_iff_getElem?.mp member
    cases situated with
    | waiting waiting => simp [waiting] at phase
    | tainting executions tainting => simp [tainting.phase] at phase
    | forwarding executions forwards => exact forwards.armed found upTo
    | attempting executions resolution attempting => simp [attempting.active] at idle
    | cleared executions steered _ checkpoints => simp [checkpoints] at found
    | finished finished => simp [finished] at phase

/-- Behind any calls none of which has failed, the checkpoints are in the order of their positions, those
that are armed come first, the others have logged nothing, and whatever an armed checkpoint has logged, all
before it have logged too. -/
theorem keepsCheckpoints_of_afterCalls {config : Config} {random : Random} {calls : List Call}
    (reached : (initial config random).afterCalls calls = some engine) : engine.KeepsCheckpoints := by
  have both : engine.Situated ∧ Listed engine.checkpoints :=
    @afterCalls_preserve _ _ _ (fun engine => engine.Situated ∧ Listed engine.checkpoints)
      (fun _ => True)
      (fun held _ done => ⟨held.1.afterCall done, held.1.listed_afterCall held.2 done⟩)
      ⟨situated_initial config random, .empty⟩ (fun _ _ => trivial) reached
  exact both.1.keepsCheckpoints both.2

def twoReads : List Call := [
  .blank (.input ⟨16, 3⟩),
  .blank (.instruction
    (((Instruction.plain 100 "cmp").writing [flagsName]).accessingMemory true false)
    { Execution.plain 100 with reads := [⟨16, 2⟩] }),
  .blank (.instruction (((Instruction.plain 104 "ldb").writing ["a"]).accessingMemory true false)
    { Execution.plain 104 with reads := [⟨18, 1⟩] }),
  .blank (.instruction (((Instruction.plain 108 "je").reading [flagsName]).branching 200 112)
    { Execution.plain 108 with taken := some false }),
  .blank (.instruction (.plain 112 "nop") (.plain 112)),
  .blank .exit]

theorem keepsCheckpoints_of_afterCalls_twoReads : ∃ engine,
    (initial .default (.ofSeed 7)).afterCalls twoReads = some engine ∧ engine.KeepsCheckpoints ∧
    engine.checkpoints.map (·.armed) = #[true, false] ∧
    engine.checkpoints.map (·.writeLog.keys) = #[[16, 17], []] := by
  obtain ⟨engine, reached, shape⟩ := (Option.any_eq_true _ _).mp
    (show ((initial .default (.ofSeed 7)).afterCalls twoReads).any (fun engine =>
        engine.checkpoints.map (·.armed) = #[true, false] ∧
        engine.checkpoints.map (·.writeLog.keys) = #[[16, 17], []]) = true by decide +kernel)
  exact ⟨engine, reached, keepsCheckpoints_of_afterCalls reached, by simpa using shape⟩

end Engine

end BranchSteer
