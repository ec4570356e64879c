import BranchSteer.Proofs.Effort

/-!
The bytes that an attempt perturbs. No instruction of the phase touched them in front of the checkpoint, so
that the process reaches the checkpoint with them in the same way. They are bytes of the active branch, and
what is left of its bytes belongs to the candidates in front.
-/

namespace BranchSteer

/-- The bytes that a resolution perturbs at a checkpoint, for which these instructions were traced. -/
structure Engine.Perturbs (engine : Engine) (traced : List Traced) (resolution : Resolution)
    (branch : Branch) (checkpoint : Checkpoint) : Prop where
  nonempty : resolution.perturbed ≠ ∅
  owned : ∀ address ∈ resolution.perturbed, address ∈ branch.inputDependencies
  untouched : ∀ earlier ∈ traced, earlier.phase = engine.phaseNumber →
    earlier.position < checkpoint.position → ∀ address ∈ resolution.perturbed,
      ¬ earlier.execution.Touches address
  apart : ∀ {id : Nat} {bytes : Std.ExtTreeSet Nat}, branch.candidates[id]? = some bytes →
    id ≠ resolution.checkpoint → ∀ address ∈ bytes, address ∉ resolution.perturbed
  complete : ∀ address, address ∈ branch.inputDependencies ↔ address ∈ resolution.perturbed ∨
    ∃ (id : Nat) (bytes : Std.ExtTreeSet Nat), branch.candidates[id]? = some bytes ∧
      id ≠ resolution.checkpoint ∧ address ∈ bytes

namespace Selection.Tries

variable {selection : Selection} {limit : Nat} {selected branch : Branch} {made : List Attempt}
  {resolution : Resolution}

theorem perturbed_nonempty (tries : selection.Tries limit selected branch made resolution)
    (shared : selected.Shared) : resolution.perturbed ≠ ∅ := by
  obtain ⟨bytes, found⟩ := Option.isSome_iff_exists.mp
    (Std.ExtTreeMap.mem_iff_isSome_getElem?.mp tries.known)
  intro nothing
  refine shared.nonempty found (Std.ExtTreeSet.ext_mem fun address => ?_)
  rw [tries.perturbed] at nothing
  have perturbed : address ∈ bytes → address ∈ selected.pool resolution.checkpoint :=
    fun member => Branch.mem_pool.mpr ⟨_, bytes, Nat.le_refl _, found, member⟩
  simpa [nothing] using perturbed

theorem perturbed_apart (tries : selection.Tries limit selected branch made resolution)
    (shared : selected.Shared) {id address : Nat} {bytes : Std.ExtTreeSet Nat}
    (found : branch.candidates[id]? = some bytes) (elsewhere : id ≠ resolution.checkpoint)
    (member : address ∈ bytes) : address ∉ resolution.perturbed := by
  rw [tries.perturbed, Branch.mem_pool]
  rintro ⟨later, others, above, there, memberToo⟩
  rw [tries.candidates] at found
  split at found
  · have same := shared.disjoint found there member memberToo
    omega
  · simp at found

theorem perturbed_complete (tries : selection.Tries limit selected branch made resolution)
    (shared : selected.Shared) (address : Nat) : address ∈ selected.inputDependencies ↔
      address ∈ resolution.perturbed ∨ ∃ (id : Nat) (bytes : Std.ExtTreeSet Nat),
        branch.candidates[id]? = some bytes ∧ id ≠ resolution.checkpoint ∧ address ∈ bytes := by
  rw [shared.covers, tries.perturbed, Branch.mem_pool]
  constructor
  · rintro ⟨id, bytes, found, member⟩
    by_cases above : resolution.checkpoint ≤ id
    · exact Or.inl ⟨id, bytes, above, found, member⟩
    · refine Or.inr ⟨id, bytes, ?_, by omega, member⟩
      rw [tries.candidates, if_pos (by omega), found]
  · rintro (⟨id, bytes, _, found, member⟩ | ⟨id, bytes, found, _, member⟩)
    · exact ⟨id, bytes, found, member⟩
    · rw [tries.candidates] at found
      split at found
      · exact ⟨id, bytes, found, member⟩
      · simp at found

end Selection.Tries

namespace Engine

def Recounts (engine : Engine) (executions : List Execution) (traced : List Traced) : Prop :=
  ∀ earlier ∈ traced, earlier.phase ≤ engine.phaseNumber ∧
    (engine.phase ≠ .finished → earlier.phase = engine.phaseNumber → ∃ index : Nat,
      executions[index]? = some earlier.execution ∧
        earlier.position = engine.basePosition + index + 1)

variable {engine base middle after : Engine} {executions later : List Execution}
  {traced : List Traced} {decision : Decision} {action : Action} {resolution : Resolution}

theorem Recounts.same (recounts : engine.Recounts executions traced)
    (running : engine.phase ≠ .finished) (phaseNumber : after.phaseNumber = engine.phaseNumber)
    (basePosition : after.basePosition = engine.basePosition) :
    after.Recounts executions traced := by
  intro earlier member
  obtain ⟨past, current⟩ := recounts earlier member
  rw [phaseNumber, basePosition]
  exact ⟨past, fun _ => current running⟩

theorem Recounts.ended (recounts : engine.Recounts executions traced)
    (ended : after.phase = .finished ∧ engine.phaseNumber ≤ after.phaseNumber ∨
      engine.phaseNumber < after.phaseNumber) : after.Recounts later traced := by
  intro earlier member
  obtain ⟨past, _⟩ := recounts earlier member
  refine ⟨by omega, fun running current => ?_⟩
  rcases ended with ⟨finished, _⟩ | above
  · exact absurd finished running
  · omega

theorem Recounts.recorded (recounts : engine.Recounts executions traced)
    (tainting : engine.Tainting executions) {execution : Execution}
    (phaseNumber : after.phaseNumber = engine.phaseNumber)
    (basePosition : after.basePosition = engine.basePosition) :
    after.Recounts (executions ++ [execution])
      (traced ++ [⟨engine.phaseNumber, engine.position + 1, execution⟩]) := by
  intro earlier member
  rw [phaseNumber, basePosition]
  rcases List.mem_append.mp member with old | last
  · obtain ⟨past, current⟩ := recounts earlier old
    refine ⟨past, fun _ same => ?_⟩
    obtain ⟨index, found, position⟩ := current (by simp [tainting.phase]) same
    obtain ⟨bound, _⟩ := List.getElem?_eq_some_iff.mp found
    exact ⟨index, by rwa [List.getElem?_append_left bound], position⟩
  · obtain rfl := List.mem_singleton.mp last
    have size : engine.trace.size = engine.basePosition + executions.length :=
      tainting.describes.traceSize
    exact ⟨Nat.le_refl _, fun _ _ => ⟨executions.length, by simp, by
      rw [tainting.position, size]⟩⟩

theorem Bases.basePosition (bases : engine.Bases executions base) :
    base.basePosition = engine.basePosition := by
  cases bases with
  | underway rollbacking => rfl
  | surveyed _ tainting idle surveys => exact (congrArg Engine.basePosition surveys.frame :)

theorem Bases.running (bases : engine.Bases executions base) : engine.phase ≠ .finished := by
  cases bases with
  | underway rollbacking => simp [rollbacking]
  | surveyed _ tainting idle surveys => simp [tainting.phase]

theorem traced?_of_treats (treats : base.Treats decision) (engine : Engine) (effect : Effect) :
    traced? engine decision effect = none := by
  have concluded : ∀ concluding : Engine,
      traced? engine concluding.concludePhase effect = none := by
    intro concluding
    have concludes := concludePhase_concludes concluding
    generalize concluding.concludePhase = decision at concludes
    cases concludes <;> rfl
  cases treats with
  | attempts middle frames resolution old record found picks told => rfl
  | restores middle frames idle resolution active told => rfl
  | concludes middle frames resolution active told => exact concluded middle
  | passes idle => exact concluded base

theorem Recounts.passes (recounts : engine.Recounts executions traced)
    (passes : engine.Passes executions decision action after later) (effect : Effect) :
    after.Recounts later (traced ++ (traced? engine decision effect).toList) := by
  have unchanged : traced? engine decision effect = none → after.Recounts later traced →
      after.Recounts later (traced ++ (traced? engine decision effect).toList) := by
    intro nothing recountsToo
    rwa [nothing, Option.toList_none, List.append_nil]
  cases passes with
  | rests idle order harmless _ =>
      exact unchanged (by rcases harmless with rfl | rfl <;> rfl) recounts
  | records tainting idle instruction execution processor _ taintingToo supported frame =>
      exact recounts.recorded tainting (congrArg Engine.phaseNumber frame :)
        (congrArg Engine.basePosition frame :)
  | follows rollbacking near _ writes stands frame =>
      exact unchanged rfl (recounts.same (by simp [rollbacking]) (congrArg Engine.phaseNumber frame :)
        (congrArg Engine.basePosition frame :))
  | attempts base bases middle frames resolution old record found picks told processor input _
      rollsBack attempting =>
      have frame := frames.rollsBack rollsBack
      exact unchanged rfl (recounts.same bases.running
        ((congrArg Engine.phaseNumber frame :).trans bases.phaseNumber)
        ((congrArg Engine.basePosition frame :).trans bases.basePosition))
  | restores base bases middle frames resolution active told processor _ rollsBack forwards =>
      have frame := frames.rollsBack rollsBack
      exact unchanged rfl (recounts.same bases.running
        ((congrArg Engine.phaseNumber frame :).trans bases.phaseNumber)
        ((congrArg Engine.basePosition frame :).trans bases.basePosition))
  | finishes base bases _ treats middle leaves _ files phase idle phaseNumber rollbacks =>
      have same := phaseNumber.trans (leaves.frames.phaseNumber.trans bases.phaseNumber)
      exact unchanged (traced?_of_treats treats engine effect)
        (recounts.ended (Or.inl ⟨phase, Nat.le_of_eq same.symm⟩))
  | restarts base bases middle leaves seeking rollbacking seed processor _ files tainting supported
      idle phaseNumber rollbacks =>
      have same := leaves.frames.phaseNumber.trans bases.phaseNumber
      exact unchanged rfl (recounts.ended (Or.inr (by omega)))

theorem Stands.attempting_of_active (stands : engine.Stands executions)
    (active : engine.active = some resolution) :
    engine.Attempting anyFlip executions resolution := by
  cases stands with
  | waiting phase position trace checkpoints branches archive idle => simp [idle] at active
  | tainting _ tainting supported idle => simp [idle] at active
  | forwarding _ forwards => simp [forwards.idle] at active
  | attempting _ other attempting =>
      rw [attempting.active, Option.some.injEq] at active
      exact active ▸ attempting
  | finished _ phase idle => simp [idle] at active

theorem Recounts.untouched (recounts : engine.Recounts executions traced)
    (running : engine.phase ≠ .finished) {position address : Nat}
    (untouched : engine.recording.Untouched executions position address) {earlier : Traced}
    (member : earlier ∈ traced) (current : earlier.phase = engine.phaseNumber)
    (before : earlier.position < position) : ¬ earlier.execution.Touches address := by
  obtain ⟨index, found, place⟩ := (recounts earlier member).2 running current
  have base : engine.recording.basePosition = engine.basePosition := rfl
  exact untouched.before found (by omega)

theorem WorksThrough.perturbs {selection : Selection} {limit : Nat} {attempts : List Attempt}
    (works : engine.WorksThrough selection limit attempts)
    (attempting : engine.Attempting anyFlip executions resolution)
    (recounts : engine.Recounts executions traced) :
    ∃ branch checkpoint, engine.branches[resolution.branch]? = some branch ∧
      engine.checkpoints[resolution.checkpoint]? = some checkpoint ∧
      engine.Perturbs traced resolution branch checkpoint := by
  obtain ⟨_, selected, branch, known, found, _, tries⟩ :=
    works.tries resolution attempting.active
  obtain ⟨other, knownToo, follows⟩ := works.follows found
  rw [known, Option.some.injEq] at knownToo
  subst knownToo
  have shared := works.shared known
  have complete := follows.inputDependencies ▸ tries.perturbed_complete shared
  obtain ⟨point, there, _⟩ := attempting.attempts.target
  obtain ⟨checkpoint, here, same⟩ := exists_checkpoint there
  have place : checkpoint.position = point.position := congrArg Point.position same
  have running : engine.phase ≠ .finished := by simp [attempting.attempts.steered.phase]
  refine ⟨branch, checkpoint, found, here, tries.perturbed_nonempty shared,
    fun address member => (complete address).mpr (Or.inl member), ?_,
    fun there elsewhere address => tries.perturbed_apart shared there elsewhere, complete⟩
  intro earlier member current before address perturbed
  exact recounts.untouched running (attempting.attempts.bytes there address (Or.inl perturbed))
    member current (place ▸ before)

/-- Behind any calls none of which fails or clears a phase, the active branch is attempted with bytes of
its own that no instruction of the phase touched in front of the checkpoint. The other bytes that it depends
on are those of the candidates that are left. -/
theorem perturbs_of_active {config : Config} {random : Random} {calls : List Call}
    (keeps : ∀ call ∈ calls, call.request ≠ .clear)
    (reached : (initial config random).afterCalls calls = some engine)
    (active : engine.active = some resolution) :
    ∃ branch checkpoint, engine.branches[resolution.branch]? = some branch ∧
      engine.checkpoints[resolution.checkpoint]? = some checkpoint ∧
      engine.Perturbs ((initial config random).gather traced? calls) resolution branch checkpoint := by
  have both : ∃ executions, engine.Stands executions ∧
      engine.Recounts executions ((initial config random).gather traced? calls) := by
    refine afterCalls_chronicle (fun calls engine => ∃ executions,
      engine.Stands executions ∧ engine.Recounts executions ((initial config random).gather traced? calls))
      ⟨[], stands_initial config random, by simp [Recounts, gather]⟩ ?_ keeps reached
    rintro calls middle after call reached ⟨executions, stands, recounts⟩ keeps done
    rw [gather_concat reached]
    rcases stands.cases_afterCall keeps done with ⟨undecided, buffer, received⟩ |
      ⟨decision, action, changed, later, decides, answered, passes⟩
    · obtain ⟨capturing, rfl, standsToo, _, frame⟩ := stands.receiveInput received
      rw [shown_of_undecided undecided, Option.toList_none, List.append_nil]
      exact ⟨[], standsToo, recounts.same (by simp [capturing]) (congrArg Engine.phaseNumber frame :)
        (congrArg Engine.basePosition frame :)⟩
    · rw [shown_of_decision decides answered]
      exact ⟨later, passes.stands stands, recounts.passes passes _⟩
  obtain ⟨executions, stands, recounts⟩ := both
  have attempting := stands.attempting_of_active active
  obtain ⟨selection, _, works⟩ :=
    (tracks_of_afterCalls keeps reached).works attempting.attempts.steered.phase
  exact works.perturbs attempting recounts

def lateComparison : List Call :=
  [.blank (.input ⟨16, 2⟩), .blank (.instruction (.plain 96 "nop") (.plain 96))] ++
    comparison false 108 ++ [.blank .exit]

theorem perturbs_of_active_lateComparison :
    ∃ engine resolution branch checkpoint,
      (initial .default (.ofSeed 7)).afterCalls lateComparison = some engine ∧
      engine.active = some resolution ∧ resolution.perturbed.toList = [16, 17] ∧
      ((initial .default (.ofSeed 7)).gather traced? lateComparison).map (·.position) = [1, 2, 3, 4] ∧
      engine.checkpoints[resolution.checkpoint]? = some checkpoint ∧ checkpoint.position = 2 ∧
      engine.Perturbs ((initial .default (.ofSeed 7)).gather traced? lateComparison) resolution branch
        checkpoint := by
  obtain ⟨engine, reached, facts⟩ := (Option.any_eq_true _ _).mp
    (show ((initial .default (.ofSeed 7)).afterCalls lateComparison).any (fun engine =>
      engine.active.any fun resolution => resolution.perturbed.toList = [16, 17] &&
        engine.checkpoints[resolution.checkpoint]?.all fun checkpoint =>
          checkpoint.position = 2) = true by decide +kernel)
  obtain ⟨resolution, active, bytes⟩ := (Option.any_eq_true _ _).mp facts
  simp only [Bool.and_eq_true, decide_eq_true_eq] at bytes
  have keeps : ∀ call ∈ lateComparison, call.request ≠ .clear := by
    simp [lateComparison, comparison, Call.blank]
  obtain ⟨branch, checkpoint, _, found, perturbs⟩ := perturbs_of_active keeps reached active
  have place : checkpoint.position = 2 := by simpa [found] using bytes.2
  exact ⟨engine, resolution, branch, checkpoint, reached, active, bytes.1, by decide +kernel, found,
    place, perturbs⟩

end Engine

end BranchSteer
