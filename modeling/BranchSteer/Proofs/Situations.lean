import BranchSteer.Proofs.Calls
import BranchSteer.Proofs.Rewinding

/-!
The situations that an engine can be in as long as no call has failed. Each call leads from one of them to
another, or it fails by what the host did. So the checks that the engine makes of itself never fail, not
even if the host contradicts itself or clears a phase that is under way.
-/

namespace BranchSteer

inductive Fault.OfEngine : Fault → Prop
  | disarmed (id : Nat) : OfEngine (.violation (.disarmed id))
  | noCheckpoint (id : Nat) : OfEngine (.violation (.noCheckpoint id))
  | uncovered (position address : Nat) : OfEngine (.violation (.uncovered position address))
  | brokenTrace (address position : Nat) : OfEngine (.violation (.brokenTrace address position))
  | noDependencies (position : Nat) : OfEngine (.noDependencies position)
  | noCandidate (position : Nat) : OfEngine (.noCandidate position)
  | noActiveBranch : OfEngine .noActiveBranch

theorem Fault.OfHost.not_ofEngine {fault : Fault} (ofHost : fault.OfHost) : ¬ fault.OfEngine := by
  intro ofEngine
  cases ofHost <;> cases ofEngine

namespace Execution

def forgotten (execution : Execution) : Execution := .plain execution.address

theorem not_reads_forgotten (execution : Execution) (address : Nat) :
    ¬ execution.forgotten.Reads address := by
  simp [forgotten, plain, Reads]

theorem not_touches_forgotten (execution : Execution) (address : Nat) :
    ¬ execution.forgotten.Touches address := by
  simp [forgotten, plain, Touches, Reads, Writes]

end Execution

theorem Recording.Describes.forget {recording : Recording} {executions : List Execution}
    (describes : recording.Describes executions) :
    ({ recording with points := #[] } : Recording).Describes
      (executions.map Execution.forgotten) := by
  refine ⟨describes.inputLength, ?_, fun {index execution} found => ?_, by simp, by simp,
    fun {index execution address} found reads => ?_⟩
  · rw [List.length_map]
    exact describes.traceSize
  · obtain ⟨old, known, rfl⟩ := Option.map_eq_some_iff.mp (List.getElem?_map ▸ found)
    have traced := describes.trace known
    exact traced
  · obtain ⟨old, _, rfl⟩ := Option.map_eq_some_iff.mp (List.getElem?_map ▸ found)
    exact absurd reads (old.not_reads_forgotten address)

theorem Flow.Graph.follows_forgotten (input : InputBuffer) (base : Nat)
    (executions : List Execution) :
    Follows (empty input) base (executions.map Execution.forgotten) := by
  constructor
  · simp [Bound, empty]
  · simp [empty, outgoingEdges]
  · simp [empty, outgoingEdges]
  · simp [empty, Execution.not_touches_forgotten]
  · simp [empty]

namespace Engine

/-- Nothing is known of the observed process: any input may flip any branch. -/
def anyFlip (_ : Finding) (_ : List UInt8) : Prop := True

/-- The engine in front of a call, if none has failed before. -/
inductive Situated (engine : Engine) : Prop
  | waiting (phase : engine.phase = .capturing) (position : engine.position = engine.basePosition)
    (trace : engine.trace.size = engine.basePosition) (checkpoints : engine.checkpoints = #[])
    (branches : engine.branches = ∅) (archive : engine.archive = [])
  | tainting (executions : List Execution) (tainting : engine.Tainting executions)
    (supported : engine.Supported anyFlip)
  | forwarding (executions : List Execution) (forwards : engine.Forwards anyFlip executions)
  | attempting (executions : List Execution) (resolution : Resolution)
    (attempting : engine.Attempting anyFlip executions resolution)
  | cleared (executions : List Execution) (steered : engine.Steered anyFlip executions)
    (idle : engine.active = none) (checkpoints : engine.checkpoints = #[])
    (branches : engine.branches = ∅)
  | finished (phase : engine.phase = .finished)

inductive Orderly : Reaction → Prop
  | answered (after : Engine) (memory : Memory) (action : Action) (situated : after.Situated) :
    Orderly ⟨after, memory, .ok action⟩
  | failed (after : Engine) (memory : Memory) (fault : Fault) (ofHost : fault.OfHost) :
    Orderly ⟨after, memory, .error fault⟩

variable {engine after : Engine} {genuine : Finding → List UInt8 → Prop}
  {executions : List Execution} {id : Nat} {memory : Memory}

namespace TakenBack

theorem branches (takenBack : engine.TakenBack id after) : after.branches = engine.branches :=
  (congrArg Engine.branches takenBack.frame :)

theorem archive (takenBack : engine.TakenBack id after) : after.archive = engine.archive :=
  (congrArg Engine.archive takenBack.frame :)

theorem input (takenBack : engine.TakenBack id after) : after.input = engine.input :=
  (congrArg Engine.input takenBack.frame :)

theorem supported (takenBack : engine.TakenBack id after) (supported : engine.Supported genuine) :
    after.Supported genuine := by
  constructor
  · rw [takenBack.archive, takenBack.input]
    exact supported.archived
  · rw [takenBack.branches, takenBack.input]
    exact supported.current

theorem steered (takenBack : engine.TakenBack id after)
    (steered : engine.Steered genuine executions) : after.Steered genuine executions := by
  refine ⟨(congrArg Engine.phase takenBack.frame :).trans steered.phase,
    takenBack.recording ▸ steered.describes, fun found => ?_, takenBack.supported steered.supported⟩
  rw [takenBack.branches] at found
  exact takenBack.recording ▸ steered.branch found

end TakenBack

theorem Attempts.attempting {resolution : Resolution}
    (attempts : engine.Attempts genuine executions resolution)
    (takenBack : ({ engine with active := some (spent resolution) } : Engine).TakenBack
      resolution.checkpoint after)
    {input : List UInt8} (length : input.length = engine.input.length) :
    ({ after with active := some { spent resolution with attemptedInput := input } } :
      Engine).Attempting genuine executions { spent resolution with attemptedInput := input } := by
  obtain ⟨point, there, ahead⟩ := attempts.target
  obtain ⟨⟨phase, describes, branch, supported⟩, target, first, _, bytes⟩ := attempts
  have steered := takenBack.steered ⟨phase, describes, branch, supported.archived, supported.current⟩
  have branches : after.branches = engine.branches := takenBack.branches
  have recording : after.recording = engine.recording := takenBack.recording
  have position : after.position = Position.previous point.position := takenBack.position there
  refine ⟨⟨⟨steered.phase, steered.describes, steered.branch, steered.supported.archived,
    steered.supported.current⟩, ?_, ?_, ?_, ?_⟩, rfl, ?_, ?_, ?_⟩
  · rw [branches]
    exact target
  · rw [branches]
    exact first
  · exact fun lower checkpoint upTo known => (takenBack.armed known).mpr upTo
  · exact fun known => recording ▸ bytes (recording ▸ known)
  · intro other known
    have same : some other = some point := (recording ▸ known).symm.trans there
    rw [Option.some.inj same, position, Position.previous]
    omega
  · simp only [position, Position.previous, spent]
    omega
  · exact length.trans (congrArg InputBuffer.length takenBack.input).symm

theorem Restores.forwards (restores : engine.Restores genuine executions id)
    (takenBack : engine.TakenBack id after) : after.Forwards genuine executions := by
  obtain ⟨steered, idle, _, ⟨point, there, ahead⟩, pending⟩ := restores
  obtain ⟨index, _, _, place, _⟩ := steered.describes.point there
  have position : after.position = Position.previous point.position := takenBack.position there
  have base : after.basePosition = engine.basePosition :=
    basePosition_of_recording takenBack.recording
  have baseToo : engine.recording.basePosition = engine.basePosition := rfl
  simp only [Position.previous] at position
  refine ⟨takenBack.steered steered, (congrArg Engine.active takenBack.frame :).trans idle, by omega,
    ?_, ?_, ?_⟩
  · rw [takenBack.branches]
    exact pending
  · intro other branch found isOpen
    rw [takenBack.branches] at found
    have behind := ahead found isOpen
    omega
  · intro other checkpoint known before
    refine (takenBack.armed known).mpr (Nat.le_of_not_lt fun above => ?_)
    -- A later checkpoint lies behind the position of the target.
    have knownPoint : engine.recording.points[other]? = some checkpoint.point := by
      rw [← takenBack.recording, points_getElem?, known, Option.map_some]
    have later := steered.describes.increasing above there knownPoint
    have samePosition : checkpoint.point.position = checkpoint.position := rfl
    omega

theorem inTraceOrder_empty : (∅ : Flow.Branches).inTraceOrder = [] := by
  simp [Flow.Branches.inTraceOrder]

theorem Supported.clearPhase (supported : engine.Supported genuine) :
    engine.clearPhase.Supported genuine := by
  refine ⟨fun branch member => ?_, fun {position branch} found => ?_⟩
  · simp only [Engine.clearPhase, List.mem_append, List.mem_map] at member
    rcases member with old | ⟨current, listed, rfl⟩
    · exact supported.archived branch old
    · obtain ⟨position, found⟩ := Flow.Branches.exists_of_mem listed
      have kept := supported.current found
      exact kept
  · simp [Engine.clearPhase] at found

def restarted (engine : Engine) (seed : List UInt8) : Engine :=
  let fresh := engine.clearPhase
  { fresh with
    trace := fresh.trace.take engine.position
    basePosition := engine.position
    baseInput := seed
    phaseNumber := fresh.phaseNumber + 1
    phase := .tainting }

theorem Restarts.tainting {seed : List UInt8} (restarts : engine.Restarts genuine executions seed)
    {point : Point} (first : engine.recording.points[0]? = some point)
    (takenBack : engine.TakenBack 0 after) :
    (after.restarted seed).Tainting [] ∧ (after.restarted seed).Supported genuine := by
  obtain ⟨describes, supported, _, length⟩ := restarts
  obtain ⟨index, _, executed, place, _⟩ := describes.point first
  obtain ⟨bound, _⟩ := List.getElem?_eq_some_iff.mp executed
  have traceSize : engine.trace.size = engine.basePosition + executions.length :=
    describes.traceSize
  have position : after.position = Position.previous point.position := takenBack.position first
  have base : engine.recording.basePosition = engine.basePosition := rfl
  have trace : after.trace = engine.trace := trace_of_recording takenBack.recording
  simp only [Position.previous] at position
  have taken : (after.trace.take after.position).size = after.position := by
    rw [trace, Array.take_eq_extract, Array.size_extract]
    omega
  have supportedToo := (takenBack.supported supported).clearPhase
  refine ⟨tainting_nil rfl ?_ rfl taken rfl rfl rfl, supportedToo.archived, supportedToo.current⟩
  exact length.trans (congrArg InputBuffer.length takenBack.input).symm

theorem Situated.finish (engine : Engine) (exhausted : Bool) :
    (engine.finish exhausted).Situated := by
  obtain ⟨summaries, log, shape⟩ := engine.finish_eq exhausted
  exact .finished (by rw [shape])

theorem Attempts.perturb_orderly {resolution : Resolution}
    (attempts : engine.Attempts anyFlip executions resolution) (memory : Memory) :
    Orderly (engine.perturb memory resolution) := by
  obtain ⟨point, there, _⟩ := attempts.target
  obtain ⟨checkpoint, found, _⟩ := exists_checkpoint there
  have goesBack := @rewind_goesBack { engine with active := some (spent resolution) } _
    attempts.armed _ found memory (nextPerturbation resolution)
  simp only [spent] at goesBack
  simp only [Engine.perturb]
  generalize Engine.rewind _ _ _ _ = reaction at goesBack ⊢
  cases goesBack with
  | exhausted _ text => exact .answered _ _ _ (.finish _ true)
  | failed after changed fault ofHost => exact .failed _ _ _ ofHost
  | returned after changed processor takenBack =>
      refine .answered _ _ _ (.attempting executions _ (attempts.attempting takenBack ?_))
      rw [length_patchInput]
      exact attempts.steered.describes.inputLength

theorem Restores.rewind_orderly (restores : engine.Restores anyFlip executions id)
    (memory : Memory) : Orderly (engine.rewind memory id .none) := by
  obtain ⟨point, there, _⟩ := restores.target
  obtain ⟨checkpoint, found, _⟩ := exists_checkpoint there
  have goesBack := rewind_goesBack restores.armed found memory .none
  generalize Engine.rewind _ _ _ _ = reaction at goesBack ⊢
  cases goesBack with
  | exhausted _ text => exact .answered _ _ _ (.finish _ true)
  | failed after changed fault ofHost => exact .failed _ _ _ ofHost
  | returned after changed processor takenBack =>
      exact .answered _ _ _ (.forwarding executions (restores.forwards takenBack))

theorem Restarts.explore_orderly {seed : List UInt8}
    (restarts : engine.Restarts anyFlip executions seed) (memory : Memory) :
    Orderly (engine.explore memory seed) := by
  unfold Engine.explore
  split
  · exact .answered _ _ _ (.finish _ false)
  · rename_i nonempty
    obtain ⟨checkpoint, found⟩ : ∃ checkpoint, engine.checkpoints[0]? = some checkpoint := by
      have positive : 0 < engine.checkpoints.size := by
        simpa [Array.size_pos_iff] using nonempty
      exact ⟨_, Array.getElem?_eq_getElem positive⟩
    have first : engine.recording.points[0]? = some checkpoint.point := by
      rw [points_getElem?, found, Option.map_some]
    have goesBack := rewind_goesBack restarts.armed found memory (.input seed)
    generalize Engine.rewind _ _ _ _ = reaction at goesBack ⊢
    cases goesBack with
    | exhausted _ text => exact .answered _ _ _ (.finish _ true)
    | failed after changed fault ofHost => exact .failed _ _ _ ofHost
    | returned after changed processor takenBack =>
        obtain ⟨tainting, supported⟩ := restarts.tainting first takenBack
        exact .answered _ _ _ (.tainting []
          ⟨tainting.phase, tainting.describes, tainting.position, tainting.armed, tainting.branch,
            tainting.follows, tainting.sameInput⟩ ⟨supported.archived, supported.current⟩)

theorem TakesBack.orderly {decision : Decision}
    (takesBack : engine.TakesBack anyFlip executions decision) (memory : Memory) :
    Orderly (decision.carryOut memory) := by
  cases takesBack with
  | attempt after resolution keeps attempts => exact attempts.perturb_orderly memory
  | restore after id keeps restores => exact restores.rewind_orderly memory
  | restart after seed keeps restarts => exact restarts.explore_orderly memory
  | stop after keeps finished supported => exact .answered _ _ _ (.finished finished)

theorem proceed_orderly (writes : List MemoryRange) (memory : Memory)
    (situated : ∀ {checkpoints : Array Checkpoint},
      LoggedAll memory (writes.flatMap MemoryRange.addresses) engine.checkpoints checkpoints →
        ({ engine with checkpoints := checkpoints } : Engine).Situated) :
    Orderly (engine.proceed memory writes) := by
  obtain ⟨checkpoints, ⟨logged, done⟩ | ⟨access, failed⟩⟩ := engine.proceed_proceeded memory writes
  · rw [done]
    exact .answered _ _ _ (situated logged)
  · rw [failed]
    exact .failed _ _ _ (.readOutOfBounds access)

theorem Tainting.enter_orderly (tainting : engine.Tainting executions)
    (supported : engine.Supported anyFlip) (memory : Memory) (instruction : Instruction)
    (execution : Execution) (processor : Processor) :
    Orderly ((engine.recordInstruction execution processor).enter memory instruction execution) := by
  have entered := (engine.recordInstruction execution processor).enter_entered memory instruction
    execution
  generalize Engine.enter _ _ _ _ = reaction at entered ⊢
  cases entered with
  | unreadable checkpoints access => exact .failed _ _ _ (.readOutOfBounds access)
  | undecided after changed isBranch missing => exact .failed _ _ _ (.missingOutcome _)
  | plain checkpoints logged notBranch =>
      exact .answered _ _ _ (.tainting _ (tainting.propagate logged instruction)
        ⟨supported.archived, supported.current⟩)
  | branch checkpoints logged taken outcome =>
      refine .answered _ _ _ (.tainting _
        ((tainting.propagate logged instruction).recordBranch outcome)
        (Supported.recordBranch ?_ _ _))
      exact ⟨supported.archived, supported.current⟩

theorem Tainting.taint_orderly (tainting : engine.Tainting executions)
    (supported : engine.Supported anyFlip) (memory : Memory) (instruction : Instruction)
    (execution : Execution) (processor : Processor) :
    Orderly ((engine.taint instruction execution processor).carryOut memory) := by
  rcases tainting.taint supported instruction execution processor with records | takesBack
  · rw [records]
    exact tainting.enter_orderly supported memory instruction execution processor
  · exact takesBack.orderly memory

theorem replay_strays (idle : engine.active = none) {execution : Execution}
    (strays : engine.trace[engine.position]? ≠ some execution.address) :
    ∃ after fault, engine.replay execution = ⟨after, .fail fault⟩ ∧ fault.OfHost := by
  have expected : ((Position.index? (Position.next engine.position)).bind fun index =>
      engine.trace[index]?) = engine.trace[engine.position]? := by
    simp [Position.index?, Position.next]
  simp only [replay, idle, follow, expected]
  cases recorded : engine.trace[engine.position]? with
  | none => exact ⟨_, _, rfl, .pastTrace _⟩
  | some address =>
      rw [recorded, ne_eq, Option.some.injEq] at strays
      simp only [ne_eq, strays, not_false_eq_true, if_true]
      exact ⟨_, _, rfl, .divergence _ _ _⟩

theorem Forwards.replay_orderly (forwards : engine.Forwards anyFlip executions) (memory : Memory)
    (execution : Execution) : Orderly ((engine.replay execution).carryOut memory) := by
  by_cases follows : engine.trace[engine.position]? = some execution.address
  · rcases forwards.replay follows with ⟨goesOn, forwardsToo⟩ | takesBack
    · rw [goesOn]
      exact proceed_orderly _ memory fun logged => .forwarding _ (forwardsToo.logged logged)
    · exact takesBack.orderly memory
  · obtain ⟨after, fault, fails, ofHost⟩ := replay_strays forwards.idle follows
    rw [fails]
    exact .failed _ _ _ ofHost

theorem Attempting.replay_orderly {resolution : Resolution}
    (attempting : engine.Attempting anyFlip executions resolution) (memory : Memory)
    (execution : Execution) : Orderly ((engine.replay execution).carryOut memory) := by
  have genuine : engine.trace[engine.position]? ≠ some execution.address →
      ∀ {branch : Branch}, engine.branches[engine.position]? = some branch →
        branch.isUndecided →
          anyFlip (branch.resolve resolution.attemptedInput).finding resolution.attemptedInput :=
    fun _ _ _ _ => trivial
  rcases attempting.replay genuine with ⟨goesOn, _, attemptingToo⟩ | takesBack
  · rw [goesOn]
    exact proceed_orderly _ memory fun logged => .attempting _ _ (attemptingToo.logged logged)
  · exact takesBack.orderly memory

theorem Steered.replay_orderly (steered : engine.Steered anyFlip executions)
    (idle : engine.active = none) (checkpoints : engine.checkpoints = #[])
    (branches : engine.branches = ∅) (memory : Memory) (execution : Execution) :
    Orderly ((engine.replay execution).carryOut memory) := by
  by_cases follows : engine.trace[engine.position]? = some execution.address
  · rw [replay_closed idle follows fun branch found => by simp [branches] at found]
    refine proceed_orderly _ memory fun logged =>
      .cleared _ (steered.advanced.logged logged) ?_ ?_ ?_
    · rw [advanced_eq]
      exact idle
    · have size := logged.size
      rw [advanced_eq, Array.size_map, checkpoints] at size
      exact Array.eq_empty_of_size_eq_zero size
    · exact (branches_advanced engine).trans branches
  · obtain ⟨after, fault, fails, ofHost⟩ := replay_strays idle follows
    rw [fails]
    exact .failed _ _ _ ofHost

theorem Forwards.inside (forwards : engine.Forwards genuine executions) :
    engine.position < engine.trace.size := by
  obtain ⟨position, branch, found, isOpen⟩ := forwards.pending
  have last : position < engine.trace.size := ((forwards.steered.branch found).pending isOpen).2
  exact Nat.lt_trans (forwards.ahead found isOpen) last

theorem Steered.replayExit_orderly (steered : engine.Steered anyFlip executions)
    (idle : engine.active = none) (checkpoints : engine.checkpoints = #[]) (memory : Memory) :
    Orderly (engine.replayExit.carryOut memory) := by
  simp only [replayExit, idle, Option.isSome_none, Bool.false_eq_true, if_false]
  split
  · refine TakesBack.orderly (concludePhase_takesBack steered.describes steered.keyed
      steered.supported fun lower checkpoint _ known => ?_) memory
    simp [checkpoints] at known
  · exact .failed _ _ _ (.earlyExit _)

theorem Situated.decide_orderly (situated : engine.Situated) (memory : Memory)
    (processor : Processor) (instruction : Instruction) (execution : Execution) :
    Orderly ((engine.decide processor instruction execution).carryOut memory) := by
  have escapes : ∀ access, Orderly
      ((⟨engine, .fail (.accessWrapsAround access)⟩ : Decision).carryOut memory) :=
    fun access => .failed _ _ _ (.accessWrapsAround access)
  cases situated with
  | waiting phase position trace checkpoints branches archive =>
      simp only [Engine.decide, phase]
      exact .answered _ _ _ (.waiting phase position trace checkpoints branches archive)
  | tainting executions tainting supported =>
      simp only [Engine.decide, tainting.phase]
      split
      · exact escapes _
      · exact tainting.taint_orderly supported memory instruction execution processor
  | forwarding executions forwards =>
      simp only [Engine.decide, forwards.steered.phase]
      split
      · exact escapes _
      · exact forwards.replay_orderly memory execution
  | attempting executions resolution attempting =>
      simp only [Engine.decide, attempting.attempts.steered.phase]
      split
      · exact escapes _
      · exact attempting.replay_orderly memory execution
  | cleared executions steered idle checkpoints branches =>
      simp only [Engine.decide, steered.phase]
      split
      · exact escapes _
      · exact steered.replay_orderly idle checkpoints branches memory execution
  | finished phase =>
      simp only [Engine.decide, phase]
      exact .answered _ _ _ (.finished phase)

theorem Situated.decideExit_orderly (situated : engine.Situated) (memory : Memory) :
    Orderly (engine.decideExit.carryOut memory) := by
  cases situated with
  | waiting phase position trace checkpoints branches archive =>
      simp only [decideExit, phase]
      exact .answered _ _ _ (.waiting phase position trace checkpoints branches archive)
  | tainting executions tainting supported =>
      simp only [decideExit, tainting.phase]
      exact (tainting.endTainting supported).orderly memory
  | forwarding executions forwards =>
      simp only [decideExit, forwards.steered.phase, replayExit, forwards.idle, Option.isSome_none,
        Bool.false_eq_true, if_false, if_neg (Nat.not_le_of_lt forwards.inside)]
      exact .failed _ _ _ (.earlyExit _)
  | attempting executions resolution attempting =>
      simp only [decideExit, attempting.attempts.steered.phase]
      exact attempting.replayExit.orderly memory
  | cleared executions steered idle checkpoints branches =>
      simp only [decideExit, steered.phase]
      exact steered.replayExit_orderly idle checkpoints memory
  | finished phase =>
      simp only [decideExit, phase]
      exact .answered _ _ _ (.finished phase)

theorem recording_clearPhase (engine : Engine) :
    engine.clearPhase.recording = { engine.recording with points := #[] } := by
  simp [recording, clearPhase]

theorem Steered.clearPhase (steered : engine.Steered anyFlip executions) :
    engine.clearPhase.Situated := by
  refine .cleared (executions.map Execution.forgotten) ⟨steered.phase, ?_, ?_,
    steered.supported.clearPhase⟩ rfl rfl rfl
  · rw [recording_clearPhase]
    exact steered.describes.forget
  · intro position branch found
    simp [Engine.clearPhase] at found

theorem Situated.clearPhase (situated : engine.Situated) : engine.clearPhase.Situated := by
  cases situated with
  | waiting phase position trace checkpoints branches archive =>
      exact .waiting phase position trace rfl rfl
        (by simp [Engine.clearPhase, archive, branches, inTraceOrder_empty])
  | tainting executions tainting supported =>
      refine .tainting (executions.map Execution.forgotten) ⟨tainting.phase, ?_, tainting.position,
        ?_, ?_, Flow.Graph.follows_forgotten _ _ _, rfl⟩ supported.clearPhase
      · rw [recording_clearPhase]
        exact tainting.describes.forget
      · intro id checkpoint found
        simp [Engine.clearPhase] at found
      · intro position branch found
        simp [Engine.clearPhase] at found
  | forwarding executions forwards => exact forwards.steered.clearPhase
  | attempting executions resolution attempting => exact attempting.attempts.steered.clearPhase
  | cleared executions steered idle checkpoints branches => exact steered.clearPhase
  | finished phase => exact .finished phase

theorem receiveInput_error {buffer : InputBuffer} {fault : Fault}
    (failed : engine.receiveInput memory buffer = .error fault) : fault.OfHost := by
  unfold receiveInput at failed
  split at failed
  · exact Except.error.inj failed ▸ .inputAlreadyDelivered
  · split at failed
    · exact Except.error.inj failed ▸ .inputWrapsAround buffer
    · split at failed
      · rename_i unreadable
        obtain ⟨shape, _⟩ := Memory.read_eq_error unreadable
        exact Except.error.inj failed ▸ shape ▸ .readingInput _
      · simp at failed

theorem receiveInput_eq_ok {buffer : InputBuffer}
    (done : engine.receiveInput memory buffer = .ok after) :
    engine.phase = .capturing ∧ ∃ bytes log, bytes.length = buffer.length ∧
      after = { engine with
        baseInput := bytes
        input := buffer
        graph := .empty buffer
        phase := .tainting
        log := log } := by
  unfold receiveInput at done
  split at done
  · simp at done
  · rename_i waiting
    split at done
    · simp at done
    · split at done
      · simp at done
      · rename_i bytes read
        obtain ⟨_, rfl⟩ := (Memory.read_eq_ok_iff _ _ _ _).mp read
        exact ⟨by simpa using waiting, _, _, by simp, (Except.ok.inj done).symm⟩

theorem Situated.receiveInput (situated : engine.Situated) {buffer : InputBuffer}
    (done : engine.receiveInput memory buffer = .ok after) : after.Situated := by
  obtain ⟨capturing, bytes, log, length, rfl⟩ := receiveInput_eq_ok done
  cases situated with
  | waiting phase position trace checkpoints branches archive =>
      refine .tainting [] (tainting_nil rfl length position trace checkpoints branches rfl)
        ⟨fun branch member => ?_, fun {position branch} found => ?_⟩
      · simp [archive] at member
      · simp [branches] at found
  | tainting executions tainting supported => simp [tainting.phase] at capturing
  | forwarding executions forwards => simp [forwards.steered.phase] at capturing
  | attempting executions resolution attempting =>
      simp [attempting.attempts.steered.phase] at capturing
  | cleared executions steered idle checkpoints branches => simp [steered.phase] at capturing
  | finished phase => simp [phase] at capturing

theorem Situated.answer_orderly (situated : engine.Situated) (call : Call) :
    Orderly (engine.answer call) := by
  obtain ⟨machine, request⟩ := call
  cases request with
  | input buffer =>
      simp only [answer]
      cases done : engine.receiveInput machine.memory buffer with
      | error fault => exact .failed _ _ _ (receiveInput_error done)
      | ok after => exact .answered _ _ _ (situated.receiveInput done)
  | instruction instruction execution =>
      exact situated.decide_orderly machine.memory machine.processor instruction execution
  | exit => exact situated.decideExit_orderly machine.memory
  | clear => exact .answered _ _ _ situated.clearPhase

theorem Situated.afterCall (situated : engine.Situated) {call : Call}
    (done : engine.afterCall call = some after) : after.Situated := by
  obtain ⟨memory, action, answered⟩ := afterCall_eq_some done
  have orderly := situated.answer_orderly call
  rw [answered] at orderly
  cases orderly with
  | answered _ _ _ situatedToo => exact situatedToo

theorem situated_initial (config : Config) (random : Random) : (initial config random).Situated :=
  .waiting rfl rfl rfl rfl rfl rfl

theorem situated_of_afterCalls {config : Config} {random : Random} {calls : List Call}
    (reached : (initial config random).afterCalls calls = some engine) : engine.Situated :=
  @afterCalls_preserve _ _ _ Situated (fun _ => True)
    (fun situated _ done => situated.afterCall done) (situated_initial config random)
    (fun _ _ => trivial) reached

/-- Behind any calls none of which has failed, a call fails by what the host did only. None of the checks
that the engine makes of itself ever fails. -/
theorem answer_error_ofHost {config : Config} {random : Random} {calls : List Call}
    (reached : (initial config random).afterCalls calls = some engine) {call : Call} {fault : Fault}
    (failed : engine.answer call = ⟨after, memory, .error fault⟩) :
    fault.OfHost ∧ ¬ fault.OfEngine := by
  have orderly := (situated_of_afterCalls reached).answer_orderly call
  rw [failed] at orderly
  cases orderly with
  | failed _ _ _ ofHost => exact ⟨ofHost, ofHost.not_ofEngine⟩

theorem answer_error_ofHost_cleared :
    ∃ engine after memory fault,
      (initial .default (.ofSeed 7)).afterCalls ([.blank (.input ⟨16, 2⟩)] ++ comparison false 108 ++
        [.blank .exit, .blank .clear]) = some engine ∧
      engine.answer (.blank (.instruction (.plain 300 "nop") (.plain 300))) =
        ⟨after, memory, .error fault⟩ ∧
      fault.violation? ≠ none ∧ ¬ fault.OfEngine := by
  obtain ⟨engine, reached, failed⟩ := (Option.any_eq_true _ _).mp
    (show ((initial .default (.ofSeed 7)).afterCalls ([.blank (.input ⟨16, 2⟩)] ++ comparison false 108 ++
      [.blank .exit, .blank .clear])).any (fun engine =>
        match (engine.answer (.blank (.instruction (.plain 300 "nop") (.plain 300)))).result with
        | .error fault => fault.violation?.isSome
        | .ok _ => false) = true by decide +kernel)
  generalize shape : engine.answer (.blank (.instruction (.plain 300 "nop") (.plain 300))) =
    reaction at failed
  obtain ⟨after, memory, fault | action⟩ := reaction
  · exact ⟨engine, after, memory, fault, reached, shape, by
      simpa [Option.isSome_iff_ne_none] using failed, (answer_error_ofHost reached shape).2⟩
  · simp at failed

end Engine

end BranchSteer
