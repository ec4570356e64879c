import BranchSteer.Proofs.Progress

/-!
What decisions leave of the records, in whatever state the engine is asked. The invariant is weak enough for
all states behind failed and misplaced calls: the records have their places, what is recorded lies behind all
of them, and every input that is kept has the length of the buffer.
-/

namespace BranchSteer.Engine

def history (engine : Engine) : List Branch := engine.archive ++ engine.branches.inTraceOrder

structure Sound (engine : Engine) : Prop where
  started : engine.phase ≠ .capturing
  keyed : Flow.Branches.Keyed engine.branches
  behind : engine.phase = .tainting → ∀ {position : Nat} {branch : Branch},
    engine.branches[position]? = some branch → position ≤ engine.position
  length : engine.baseInput.length = engine.input.length
  active : ∀ {resolution : Resolution}, engine.active = some resolution →
    resolution.attemptedInput.length = engine.input.length
  records : ∀ record ∈ engine.history, record.Known engine.input.length

/-- The engine goes on in its phase, or leaves it for a later one, with all its records. -/
structure Carries (engine after : Engine) : Prop where
  input : after.input = engine.input
  baseInput : after.baseInput = engine.baseInput
  phaseNumber : after.phaseNumber = engine.phaseNumber
  started : after.phase ≠ .capturing
  tainting : after.phase = .tainting → engine.phase = .tainting ∧ engine.position ≤ after.position
  active : ∀ {resolution : Resolution}, after.active = some resolution →
    resolution.attemptedInput.length = engine.input.length
  archive : List.Forall₂ (Branch.Progress engine.input.length) engine.archive after.archive
  branches : Flow.Branches.Progress engine.input.length engine.branches after.branches

theorem forall₂_progress_refl (size : Nat) (records : List Branch) :
    List.Forall₂ (Branch.Progress size) records records :=
  List.forall₂_same.mpr fun record _ => .refl size record

theorem forall₂_progress_trans {size : Nat} {first second third : List Branch}
    (one : List.Forall₂ (Branch.Progress size) first second)
    (two : List.Forall₂ (Branch.Progress size) second third) :
    List.Forall₂ (Branch.Progress size) first third := by
  induction one generalizing third with
  | nil => exact two
  | cons related _ ih =>
      cases two with
      | cons further rest => exact .cons (related.trans further) (ih rest)

variable {engine middle after : Engine}

theorem Carries.trans (one : engine.Carries middle) (two : middle.Carries after) : engine.Carries after := by
  have archive := two.archive
  have branches := two.branches
  rw [one.input] at archive branches
  refine ⟨two.input.trans one.input, two.baseInput.trans one.baseInput,
    two.phaseNumber.trans one.phaseNumber, two.started, ?_, ?_, ?_, one.branches.trans branches⟩
  · intro tainting
    obtain ⟨earlier, further⟩ := two.tainting tainting
    obtain ⟨first, position⟩ := one.tainting earlier
    exact ⟨first, Nat.le_trans position further⟩
  · intro resolution active
    rw [two.active active, one.input]
  · exact forall₂_progress_trans one.archive archive

theorem Carries.history (carries : engine.Carries after) (keyed : Flow.Branches.Keyed engine.branches) :
    List.Forall₂ (Branch.Progress engine.input.length) engine.history after.history :=
  List.rel_append carries.archive (carries.branches.forall₂ keyed)

theorem Carries.sound (carries : engine.Carries after) (sound : engine.Sound) : after.Sound := by
  have records := carries.history sound.keyed
  constructor
  · exact carries.started
  · exact carries.branches.keyed sound.keyed
  · intro tainting position branch found
    obtain ⟨earlier, further⟩ := carries.tainting tainting
    obtain ⟨old, known, _⟩ := carries.branches.origin found
    exact Nat.le_trans (sound.behind earlier known) further
  · rw [carries.baseInput, carries.input, sound.length]
  · intro resolution active
    rw [carries.active active, carries.input]
  · intro record member
    obtain ⟨old, listed, progress⟩ := exists_of_mem_forall₂ records member
    rw [carries.input]
    exact progress.known (sound.records old listed)

theorem Carries.of_frame (frame : after = { engine with
      phase := after.phase
      tracedLength := after.tracedLength
      position := after.position
      trace := after.trace
      graph := after.graph
      checkpoints := after.checkpoints
      active := after.active
      seenOutcomes := after.seenOutcomes
      rollbacks := after.rollbacks
      rollbacksInPhase := after.rollbacksInPhase
      summaries := after.summaries
      budgetExhausted := after.budgetExhausted
      random := after.random
      log := after.log })
    (started : after.phase ≠ .capturing)
    (tainting : after.phase = .tainting → engine.phase = .tainting ∧ engine.position ≤ after.position)
    (active : ∀ {resolution : Resolution}, after.active = some resolution →
      resolution.attemptedInput.length = engine.input.length) : engine.Carries after := by
  have archive : after.archive = engine.archive := (congrArg Engine.archive frame :)
  have branches : after.branches = engine.branches := (congrArg Engine.branches frame :)
  refine ⟨(congrArg Engine.input frame :), (congrArg Engine.baseInput frame :),
    (congrArg Engine.phaseNumber frame :), started, tainting, active, ?_, ?_⟩
  · rw [archive]
    exact forall₂_progress_refl _ _
  · rw [branches]
    exact .refl _ _

theorem Carries.refl (sound : engine.Sound) : engine.Carries engine :=
  .of_frame rfl sound.started (fun tainting => ⟨tainting, Nat.le_refl _⟩) sound.active

theorem carries_note (sound : engine.Sound) (message : LogEntry) : engine.Carries (engine.note message) :=
  .of_frame rfl sound.started (fun tainting => ⟨tainting, Nat.le_refl _⟩) sound.active

theorem carries_setBranch (sound : engine.Sound) {position : Nat} {old new : Branch}
    (found : engine.branches[position]? = some old)
    (progress : old.Progress engine.input.length new) : engine.Carries (engine.setBranch new) :=
  ⟨rfl, rfl, rfl, sound.started, fun tainting => ⟨tainting, Nat.le_refl _⟩, sound.active,
    forall₂_progress_refl _ _, .insert sound.keyed found progress⟩

theorem carries_noted (sound : engine.Sound) {position : Nat} {old new : Branch}
    (found : engine.branches[position]? = some old)
    (progress : old.Progress engine.input.length new) (noted : Branch) (text : String) :
    engine.Carries ((engine.setBranch new).noteBranch noted text) := by
  have kept := carries_setBranch sound found progress
  exact kept.trans (carries_note (kept.sound sound) _)

theorem carries_addSummary (sound : engine.Sound) : engine.Carries engine.addSummary := by
  unfold addSummary
  split
  · exact .refl sound
  · exact .of_frame rfl sound.started (fun tainting => ⟨tainting, Nat.le_refl _⟩) sound.active

theorem carries_finish (engine : Engine) (exhausted : Bool) :
    engine.Carries (engine.finish exhausted) := by
  obtain ⟨log, shape⟩ := finish_shape engine exhausted
  rw [shape]
  exact .of_frame rfl (by simp) (by simp) (by simp)

/-- What is asked for fits the engine: attempts and seeds have the length of the input, the process is taken
back in a rollbacking phase, and what is recorded lies behind all records. -/
def Fits (engine : Engine) : Order → Prop
  | .attempt resolution => engine.phase = .rollbacking ∧
      resolution.attemptedInput.length = engine.input.length
  | .restore _ => engine.phase = .rollbacking
  | .restart seed => engine.phase = .rollbacking ∧ seed.length = engine.input.length
  | .record _ _ => engine.phase = .tainting ∧ ∀ {position : Nat} {branch : Branch},
      engine.branches[position]? = some branch → position < engine.position
  | .proceed _ | .stop | .fail _ => True

structure Suits (engine : Engine) (decision : Decision) : Prop where
  carries : engine.Carries decision.engine
  fits : decision.engine.Fits decision.order

variable {decision : Decision}

theorem Carries.suits (carries : engine.Carries middle) (suits : middle.Suits decision) :
    engine.Suits decision :=
  ⟨carries.trans suits.carries, suits.fits⟩

theorem forall₂_pickSeed (size : Nat) (covered : Outcomes) (records : List Branch) :
    List.Forall₂ (Branch.Progress size) records (pickSeed covered records).1 := by
  induction records with
  | nil => exact .nil
  | cons branch rest ih =>
      simp only [pickSeed]
      split
      · exact .cons (.refl size branch) ih
      · split
        · exact .cons (Branch.progress_explore branch) ih
        · split
          · exact .cons (Branch.progress_explore branch) (forall₂_progress_refl size rest)
          · exact .cons (Branch.progress_explore branch) ih

theorem carries_takeSeed (sound : engine.Sound) : engine.Carries engine.takeSeed.1 := by
  have current := Flow.Branches.progress_branchesOf sound.keyed
    (forall₂_pickSeed engine.input.length engine.seenOutcomes engine.branches.inTraceOrder)
  have archived := forall₂_pickSeed engine.input.length engine.seenOutcomes engine.archive
  unfold takeSeed
  split
  · rename_i picked
    rw [picked] at current
    exact ⟨rfl, rfl, rfl, sound.started, fun tainting => ⟨tainting, Nat.le_refl _⟩, sound.active,
      forall₂_progress_refl _ _, current⟩
  · rename_i picked
    rw [picked] at current
    split
    · rename_i pickedToo
      rw [pickedToo] at archived
      exact ⟨rfl, rfl, rfl, sound.started, fun tainting => ⟨tainting, Nat.le_refl _⟩, sound.active,
        archived, current⟩
    · rename_i pickedToo
      rw [pickedToo] at archived
      exact ⟨rfl, rfl, rfl, sound.started, fun tainting => ⟨tainting, Nat.le_refl _⟩, sound.active,
        archived, current⟩

theorem length_of_takeSeed (sound : engine.Sound) {seed : List UInt8}
    (found : engine.takeSeed.2 = some seed) : seed.length = engine.input.length := by
  obtain ⟨_, _, current⟩ := pickSeed_spec engine.seenOutcomes engine.branches.inTraceOrder
  obtain ⟨_, _, archived⟩ := pickSeed_spec engine.seenOutcomes engine.archive
  unfold takeSeed at found
  split at found
  · rename_i picked
    rw [picked] at current
    rw [Option.some.injEq] at found
    obtain ⟨record, member, _, known⟩ := current rfl
    exact (sound.records record (List.mem_append_right _ member)).sized (found ▸ known)
  · split at found
    · rename_i picked
      rw [picked] at archived
      rw [Option.some.injEq] at found
      obtain ⟨record, member, _, known⟩ := archived rfl
      exact (sound.records record (List.mem_append_left _ member)).sized (found ▸ known)
    · simp at found

theorem concludePhase_suits (sound : engine.Sound) (rollbacking : engine.phase = .rollbacking) :
    engine.Suits engine.concludePhase := by
  have summed := carries_addSummary sound
  have phase : engine.addSummary.phase = .rollbacking := by
    unfold addSummary
    split <;> exact rollbacking
  have soundToo := summed.sound sound
  refine summed.suits ?_
  simp only [concludePhase]
  split
  · have noted := carries_note soundToo (.info ("Phase limit of " ++
      toString engine.addSummary.config.phaseLimit ++ " phases reached") "Engine")
    exact ⟨noted.trans (carries_finish _ false), trivial⟩
  · have taken := carries_takeSeed soundToo
    have frame := takeSeed_frame engine.addSummary
    split
    · rename_i after seed found
      rw [found] at taken frame
      refine ⟨taken, (congrArg Engine.phase frame :).trans phase, ?_⟩
      exact (length_of_takeSeed soundToo (by rw [found])).trans
        (congrArg InputBuffer.length taken.input.symm)
    · rename_i after found
      rw [found] at taken
      have noted := carries_note (taken.sound soundToo)
        (.info "No unexplored branch outcome left" "Engine")
      exact ⟨taken.trans (noted.trans (carries_finish _ false)),
        trivial⟩

theorem carries_active (sound : engine.Sound) (resolution : Option Resolution) (random : Random)
    (length : ∀ {attempted : Resolution}, resolution = some attempted →
      attempted.attemptedInput.length = engine.input.length) :
    engine.Carries { engine with active := resolution, random := random } :=
  .of_frame rfl sound.started (fun tainting => ⟨tainting, Nat.le_refl _⟩) length

theorem release_suits (sound : engine.Sound) (rollbacking : engine.phase = .rollbacking) :
    engine.Suits engine.release := by
  unfold release
  split
  · exact ⟨.refl sound, trivial⟩
  · have idle := carries_active sound none engine.random (by simp)
    simp only
    split
    · exact ⟨idle, rollbacking⟩
    · exact idle.suits (concludePhase_suits (idle.sound sound) rollbacking)

theorem beginAt_suits (sound : engine.Sound) (rollbacking : engine.phase = .rollbacking)
    {resolution : Resolution} (length : resolution.attemptedInput.length = engine.input.length) :
    engine.Suits (engine.beginAt resolution) := by
  have fits : ∀ {attempted : Resolution}, some resolution = some attempted →
      attempted.attemptedInput.length = engine.input.length := by
    rintro _ ⟨⟩
    exact length
  simp only [beginAt]
  split
  · exact ⟨carries_active sound _ engine.random fits, trivial⟩
  · exact ⟨carries_active sound _ _ fits, rollbacking, length⟩

theorem beginResolution_suits (sound : engine.Sound) (rollbacking : engine.phase = .rollbacking)
    (position : Nat) : engine.Suits (engine.beginResolution position) := by
  unfold beginResolution
  split
  · exact ⟨.refl sound, trivial⟩
  · exact beginAt_suits sound rollbacking sound.length

theorem retry_suits (sound : engine.Sound) (rollbacking : engine.phase = .rollbacking) :
    engine.Suits engine.retry := by
  unfold retry
  cases active : engine.active with
  | none => exact ⟨.refl sound, trivial⟩
  | some resolution =>
      have length := sound.active active
      simp only
      split
      · exact ⟨.refl sound, rollbacking, length⟩
      · cases found : engine.branches[resolution.branch]? with
        | none => exact ⟨.refl sound, trivial⟩
        | some branch =>
            simp only
            have dropped : branch.Progress engine.input.length
                (branch.withoutCandidate resolution.checkpoint) := Branch.progress_of_frame rfl
            split
            · have noted := carries_noted sound found dropped
              exact (noted _ _).suits (beginAt_suits ((noted _ _).sound sound) rollbacking length)
            · have noted := carries_noted sound found (dropped.trans (Branch.progress_bypass _))
              exact (noted _ _).suits (release_suits ((noted _ _).sound sound) rollbacking)

theorem acceptFlip_suits (sound : engine.Sound) (rollbacking : engine.phase = .rollbacking) :
    engine.Suits engine.acceptFlip := by
  unfold acceptFlip
  cases active : engine.active with
  | none => exact ⟨.refl sound, trivial⟩
  | some resolution =>
      cases found : engine.branches[resolution.branch]? with
      | none =>
          simp only [found]
          exact release_suits sound rollbacking
      | some branch =>
          simp only [found]
          have noted := carries_noted sound found (branch.progress_resolve (sound.active active))
          exact (noted _ _).suits (release_suits ((noted _ _).sound sound) rollbacking)

theorem creditDivergence_carries (sound : engine.Sound) {resolution : Resolution}
    (length : resolution.attemptedInput.length = engine.input.length) :
    engine.Carries (engine.creditDivergence resolution) := by
  unfold creditDivergence
  split
  · rename_i branch found
    split
    · exact carries_noted sound found (branch.progress_resolve length) _ _
    · exact .refl sound
  · exact .refl sound

theorem phase_creditDivergence (engine : Engine) (resolution : Resolution) :
    (engine.creditDivergence resolution).phase = engine.phase := by
  unfold creditDivergence
  split
  · split <;> rfl
  · rfl

theorem carries_moved (sound : engine.Sound) (rollbacking : engine.phase = .rollbacking)
    (position : Nat) (checkpoints : Array Checkpoint) :
    engine.Carries { engine with position := position, checkpoints := checkpoints } :=
  .of_frame rfl sound.started (fun tainting => by simp [rollbacking] at tainting) sound.active

theorem follow_suits (sound : engine.Sound) (rollbacking : engine.phase = .rollbacking)
    (execution : Execution) (expected : Option Nat) :
    engine.Suits (engine.follow execution expected) := by
  cases expected with
  | none => exact ⟨.refl sound, trivial⟩
  | some address =>
      simp only [follow]
      split
      · exact ⟨.refl sound, trivial⟩
      · have armed : engine.Carries engine.armHere := by
          unfold armHere
          simp only
          split
          · exact carries_moved sound rollbacking _ _
          · exact .refl sound
        have phase : engine.armHere.phase = .rollbacking := by
          unfold armHere
          simp only
          split <;> exact rollbacking
        split
        · split
          · exact armed.suits (beginResolution_suits (armed.sound sound) phase _)
          · exact ⟨armed, trivial⟩
        · exact ⟨armed, trivial⟩

theorem replay_suits (sound : engine.Sound) (rollbacking : engine.phase = .rollbacking)
    (execution : Execution) : engine.Suits (engine.replay execution) := by
  have moved := carries_moved sound rollbacking (Position.next engine.position) engine.checkpoints
  have soundToo := moved.sound sound
  refine moved.suits ?_
  simp only [replay]
  split
  · exact follow_suits soundToo rollbacking execution _
  · rename_i resolution active
    split
    · split
      · exact retry_suits soundToo rollbacking
      · exact acceptFlip_suits soundToo rollbacking
    · split
      · have credited := creditDivergence_carries soundToo (soundToo.active active)
        exact credited.suits (retry_suits (credited.sound soundToo)
          ((phase_creditDivergence _ resolution).trans rollbacking))
      · exact ⟨.refl soundToo, trivial⟩

theorem replayExit_suits (sound : engine.Sound) (rollbacking : engine.phase = .rollbacking) :
    engine.Suits engine.replayExit := by
  unfold replayExit
  split
  · exact retry_suits sound rollbacking
  · split
    · exact concludePhase_suits sound rollbacking
    · exact ⟨.refl sound, trivial⟩

theorem surveyAll_carries (sound : engine.Sound) (done : engine.surveyAll = .ok after)
    (message : LogEntry) :
    engine.Carries { after.note message with phase := .rollbacking } := by
  unfold surveyAll at done
  split at done
  · simp at done
  · rename_i attributed attribution
    have credited : Flow.Branches.Progress engine.input.length engine.branches attributed :=
      Flow.Graph.progress_attribution sound.keyed attribution
    split at done
    · simp at done
    · rename_i surveyed all
      rw [Except.ok.injEq] at done
      subst done
      have forward : ∀ old new : Branch, engine.survey engine.checkpoints.toList old = .ok new →
          old.Progress engine.input.length new := fun _ _ => Branch.progress_survey
      have each := (forall₂_of_mapM_eq_ok all).imp forward
      exact ⟨rfl, rfl, rfl, by simp, by simp, sound.active, forall₂_progress_refl _ _,
        credited.trans (Flow.Branches.progress_branchesOf (credited.keyed sound.keyed) each)⟩

theorem endTainting_suits (sound : engine.Sound) : engine.Suits engine.endTainting := by
  have measured : engine.Carries { engine with
      tracedLength := Position.stepsSince engine.position engine.basePosition } :=
    .of_frame rfl sound.started (fun tainting => ⟨tainting, Nat.le_refl _⟩) sound.active
  have soundToo := measured.sound sound
  refine measured.suits ?_
  simp only [endTainting]
  split
  · exact ⟨.refl soundToo, trivial⟩
  · rename_i surveyed done
    have carries := surveyAll_carries soundToo done (.debug surveyed.recordingSummary "Tainting")
    have last := carries.sound soundToo
    split
    · exact carries.suits (beginResolution_suits last rfl _)
    · exact carries.suits (concludePhase_suits last rfl)

theorem taint_suits (sound : engine.Sound) (tainting : engine.phase = .tainting)
    (instruction : Instruction) (execution : Execution) (processor : Processor) :
    engine.Suits (engine.taint instruction execution processor) := by
  unfold taint
  split
  · have noted := carries_note sound (.info ("Trace length limit of " ++
      toString engine.config.traceLimit ++ " instructions reached") "Engine")
    exact noted.suits (endTainting_suits (noted.sound sound))
  · split
    · have noted := carries_note sound ((LogEntry.debug "Tainting phase ended at system call"
        "Tainting").about execution.address)
      exact noted.suits (endTainting_suits (noted.sound sound))
    · refine ⟨.of_frame rfl sound.started (fun _ => ⟨tainting, Nat.le_succ _⟩) sound.active,
        tainting, ?_⟩
      intro position branch found
      exact Nat.lt_succ_of_le (sound.behind tainting found)

theorem decide_suits (sound : engine.Sound) (processor : Processor) (instruction : Instruction)
    (execution : Execution) : engine.Suits (engine.decide processor instruction execution) := by
  unfold Engine.decide
  cases phase : engine.phase with
  | capturing => exact absurd phase sound.started
  | finished => exact ⟨.refl sound, trivial⟩
  | tainting =>
      simp only
      split
      · exact ⟨.refl sound, trivial⟩
      · exact taint_suits sound phase instruction execution processor
  | rollbacking =>
      simp only
      split
      · exact ⟨.refl sound, trivial⟩
      · exact replay_suits sound phase execution

theorem decideExit_suits (sound : engine.Sound) : engine.Suits engine.decideExit := by
  unfold decideExit
  cases phase : engine.phase with
  | capturing => exact absurd phase sound.started
  | finished => exact ⟨.refl sound, trivial⟩
  | tainting => exact endTainting_suits sound
  | rollbacking => exact replayExit_suits sound phase

end BranchSteer.Engine
