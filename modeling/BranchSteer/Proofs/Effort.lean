import BranchSteer.Proofs.Workload

/-!
How often a branch is tried. Behind any calls of a host that clears no phase from outside, no branch was
given up before all attempts at its candidates were used up, and none was tried more often than that. So
the rollbacks of a phase are bounded by what its candidates allow.
-/

namespace BranchSteer

/-- A record that was given up. It was so when it was selected, or all of its attempts were made. -/
def Branch.GivenUp (branch : Branch) (limit : Nat) (selections : List Selection)
    (attempts : List Attempt) : Prop :=
  ∃ selection ∈ selections, selection.phase = branch.phase ∧ ∃ selected,
    selection.branches[branch.position]? = some selected ∧
      (selected.isBypassed ∨
        selected.Spent limit (attemptsAt branch.phase branch.position attempts))

theorem Branch.GivenUp.append {branch : Branch} {limit : Nat} {selections : List Selection}
    {attempts : List Attempt} (givenUp : branch.GivenUp limit selections attempts)
    (selection : Selection) : branch.GivenUp limit (selections ++ [selection]) attempts := by
  obtain ⟨other, listed, found⟩ := givenUp
  exact ⟨other, List.mem_append_left _ listed, found⟩

namespace Engine

/-- What was selected in the phases of an engine and what was attempted there. -/
structure Tried (engine : Engine) (limit : Nat) (selections : List Selection)
    (attempts : List Attempt) : Prop where
  phases : selections.Pairwise fun earlier later => earlier.phase < later.phase
  belongs : ∀ attempt ∈ attempts, ∃ selection ∈ selections, selection.phase = attempt.phase
  explains : ∀ selection ∈ selections, selection.Explains limit attempts
  givenUp : ∀ branch ∈ engine.archive ++ engine.branches.inTraceOrder, branch.isBypassed →
    branch.GivenUp limit selections attempts
  summed : ∀ summary ∈ engine.summaries, ∃ selection ∈ selections,
    selection.phase = summary.phase ∧ summary.rollbacks ≤ selection.effort limit
  current : engine.rollbacksInPhase = 0 ∨ ∃ selection ∈ selections,
    selection.phase = engine.phaseNumber ∧ engine.rollbacksInPhase ≤ selection.effort limit

structure Tracks (engine : Engine) (limit : Nat) (selections : List Selection)
    (attempts : List Attempt) : Prop extends engine.Tried limit selections attempts where
  limited : engine.config.attemptLimit = limit
  past : ∀ selection ∈ selections, selection.phase ≤ engine.phaseNumber
  archived : engine.phase ≠ .finished → ∀ branch ∈ engine.archive,
    branch.phase < engine.phaseNumber
  fresh : engine.phase = .capturing ∨ engine.phase = .tainting →
    (∀ selection ∈ selections, selection.phase ≠ engine.phaseNumber) ∧ engine.rollbacksInPhase = 0
  works : engine.phase = .rollbacking →
    ∃ selection ∈ selections, engine.WorksThrough selection limit attempts

variable {engine base middle after : Engine} {limit : Nat} {selections : List Selection}
  {attempts : List Attempt} {selection : Selection} {executions later : List Execution}
  {decision : Decision} {action : Action} {resolution : Resolution} {branch : Branch}

theorem Tried.unique (tried : engine.Tried limit selections attempts) {other : Selection}
    (member : other ∈ selections) (listed : selection ∈ selections)
    (same : other.phase = selection.phase) : other = selection := by
  have distinct : (selections.map Selection.phase).Nodup :=
    List.pairwise_map.mpr (tried.phases.imp fun below => Nat.ne_of_lt below)
  exact List.inj_on_of_nodup_map distinct member listed same

theorem WorksThrough.position (works : engine.WorksThrough selection limit attempts) {position : Nat}
    (found : engine.branches[position]? = some branch) :
    branch.position = position ∧ branch.phase = selection.phase := by
  obtain ⟨selected, known, follows⟩ := works.follows found
  exact ⟨follows.position.trans (works.explains.keyed _ _ known),
    follows.phase.trans (works.explains.numbered known)⟩

theorem WorksThrough.givenUp (works : engine.WorksThrough selection limit attempts)
    (listed : selection ∈ selections) (member : branch ∈ engine.branches.inTraceOrder)
    (bypassed : branch.isBypassed) : branch.GivenUp limit selections attempts := by
  obtain ⟨position, found⟩ := Flow.Branches.exists_of_mem member
  obtain ⟨rfl, phase⟩ := works.position found
  obtain ⟨selected, known, follows⟩ := works.follows found
  exact ⟨selection, listed, phase.symm, selected, known, phase ▸ follows.givenUp bypassed⟩

theorem WorksThrough.tracks (works : engine.WorksThrough selection limit attempts)
    (listed : selection ∈ selections) (rollbacking : engine.phase = .rollbacking)
    (phases : selections.Pairwise fun earlier later => earlier.phase < later.phase)
    (past : ∀ selection ∈ selections, selection.phase ≤ engine.phaseNumber)
    (belongs : ∀ attempt ∈ attempts, ∃ selection ∈ selections, selection.phase = attempt.phase)
    (explains : ∀ selection ∈ selections, selection.Explains limit attempts)
    (archived : ∀ branch ∈ engine.archive, branch.phase < engine.phaseNumber)
    (givenUp : ∀ branch ∈ engine.archive, branch.isBypassed →
      branch.GivenUp limit selections attempts)
    (summed : ∀ summary ∈ engine.summaries, ∃ selection ∈ selections,
      selection.phase = summary.phase ∧ summary.rollbacks ≤ selection.effort limit) :
    engine.Tracks limit selections attempts := by
  refine ⟨⟨phases, belongs, explains, fun branch member bypassed => ?_, summed, ?_⟩, works.limited,
    past, fun _ => archived, by simp [rollbacking], fun _ => ⟨selection, listed, works⟩⟩
  · rcases List.mem_append.mp member with old | here
    · exact givenUp branch old bypassed
    · exact works.givenUp listed here bypassed
  · exact Or.inr ⟨selection, listed, works.phase, works.rollbacks_le⟩

theorem Tracks.surveyed (tracks : engine.Tracks limit selections attempts)
    (tainting : engine.Tainting executions) (idle : engine.active = none)
    (surveys : engine.Surveys base) :
    base.Tracks limit
      (selections ++ [⟨engine.phaseNumber, engine.input, engine.baseInput, base.branches⟩])
      attempts := by
  obtain ⟨unselected, unused⟩ := tracks.fresh (Or.inr tainting.phase)
  have fresh : ∀ attempt ∈ attempts, attempt.phase ≠ engine.phaseNumber := by
    intro attempt member
    obtain ⟨selection, listed, phase⟩ := tracks.belongs attempt member
    exact phase ▸ unselected selection listed
  have works := tainting.works idle surveys tracks.limited fresh unused
  have frame := surveys.frame
  have phaseNumber : base.phaseNumber = engine.phaseNumber := (congrArg Engine.phaseNumber frame :)
  have archive : base.archive = engine.archive := (congrArg Engine.archive frame :)
  have summaries : base.summaries = engine.summaries := (congrArg Engine.summaries frame :)
  have active : engine.phase ≠ .finished := by simp [tainting.phase]
  refine works.tracks (List.mem_append_right _ (List.mem_singleton_self _))
    (congrArg Engine.phase frame) ?_ ?_ ?_ ?_ ?_ ?_ ?_
  · refine List.pairwise_append.mpr ⟨tracks.phases, List.pairwise_singleton _ _, ?_⟩
    intro earlier member later last
    rw [List.mem_singleton.mp last]
    exact Nat.lt_of_le_of_ne (tracks.past earlier member) (unselected earlier member)
  · intro selection member
    rw [phaseNumber]
    rcases List.mem_append.mp member with old | last
    · exact tracks.past selection old
    · rw [List.mem_singleton.mp last]
  · intro attempt member
    obtain ⟨selection, listed, phase⟩ := tracks.belongs attempt member
    exact ⟨selection, List.mem_append_left _ listed, phase⟩
  · intro selection member
    rcases List.mem_append.mp member with old | last
    · exact tracks.explains selection old
    · exact List.mem_singleton.mp last ▸ works.explains
  · rw [archive, phaseNumber]
    exact tracks.archived active
  · intro branch member bypassed
    rw [archive] at member
    exact (tracks.givenUp branch (List.mem_append_left _ member) bypassed).append _
  · intro summary member
    obtain ⟨selection, listed, bound⟩ := tracks.summed summary (summaries ▸ member)
    exact ⟨selection, List.mem_append_left _ listed, bound⟩

theorem Tracks.goesOn (tracks : base.Tracks limit selections attempts)
    (rollbacking : base.phase = .rollbacking) (listed : selection ∈ selections)
    (works : after.WorksThrough selection limit attempts) (phase : after.phase = .rollbacking)
    (phaseNumber : after.phaseNumber = base.phaseNumber) (archive : after.archive = base.archive)
    (summaries : after.summaries = base.summaries) : after.Tracks limit selections attempts := by
  have active : base.phase ≠ .finished := by simp [rollbacking]
  refine works.tracks listed phase tracks.phases (phaseNumber ▸ tracks.past) tracks.belongs
    tracks.explains (archive ▸ phaseNumber ▸ tracks.archived active) (fun branch member => ?_)
    (summaries ▸ tracks.summed)
  exact tracks.givenUp branch (List.mem_append_left _ (archive ▸ member))

theorem Tracks.concat (tracks : base.Tracks limit selections attempts)
    (rollbacking : base.phase = .rollbacking) (listed : selection ∈ selections) {attempt : Attempt}
    (made : attempt.phase = base.phaseNumber)
    (works : after.WorksThrough selection limit (attempts ++ [attempt]))
    (phase : after.phase = .rollbacking) (phaseNumber : after.phaseNumber = base.phaseNumber)
    (archive : after.archive = base.archive) (summaries : after.summaries = base.summaries) :
    after.Tracks limit selections (attempts ++ [attempt]) := by
  have active : base.phase ≠ .finished := by simp [rollbacking]
  have here : selection.phase = attempt.phase := works.phase.trans (phaseNumber.trans made.symm)
  refine works.tracks listed phase tracks.phases (phaseNumber ▸ tracks.past)
    (fun other member => ?_) (fun other member => ?_)
    (archive ▸ phaseNumber ▸ tracks.archived active) (fun branch member bypassed => ?_)
    (summaries ▸ tracks.summed)
  · rcases List.mem_append.mp member with old | last
    · exact tracks.belongs other old
    · exact ⟨selection, listed, List.mem_singleton.mp last ▸ here⟩
  · by_cases same : other = selection
    · exact same ▸ works.explains
    · refine (tracks.explains other member).concat_of_ne fun samePhase => same ?_
      exact tracks.unique member listed (samePhase.symm.trans here.symm)
  · rw [archive] at member
    obtain ⟨other, known, samePhase, selected, found, outcome⟩ :=
      tracks.givenUp branch (List.mem_append_left _ member) bypassed
    refine ⟨other, known, samePhase, selected, found, ?_⟩
    rwa [attemptsAt_concat_of_ne (Or.inl ?_)]
    exact fun same => absurd (tracks.archived active branch member) (by omega)

theorem Tracks.filed (tracks : base.Tracks limit selections attempts)
    (rollbacking : base.phase = .rollbacking) (leaves : base.Leaves middle)
    (files : middle.Files after) {branch : Branch}
    (member : branch ∈ after.archive ++ after.branches.inTraceOrder) :
    branch.phase ≤ base.phaseNumber ∧
      (branch.isBypassed → branch.GivenUp limit selections attempts) := by
  have active : base.phase ≠ .finished := by simp [rollbacking]
  obtain ⟨selection, listed, works⟩ := tracks.works rollbacking
  have archive : middle.archive = base.archive := (congrArg Engine.archive leaves.frames :)
  obtain ⟨next, known, filed⟩ := files.records branch member
  rw [Branch.GivenUp, filed.phase, filed.position, filed.isBypassed, archive] at *
  rcases List.mem_append.mp known with old | here
  · exact ⟨Nat.le_of_lt (tracks.archived active next old),
      tracks.givenUp next (List.mem_append_left _ old)⟩
  · obtain ⟨position, found⟩ := Flow.Branches.exists_of_mem here
    obtain ⟨before, there, phase, place, bypassed⟩ := leaves.records found
    obtain ⟨key, number⟩ := works.position there
    refine ⟨Nat.le_of_eq (phase.trans (number.trans works.phase)), fun isBypassed => ?_⟩
    rw [phase, place]
    rcases bypassed isBypassed with earlier | ⟨resolution, activeBefore, rfl, exhausted, last⟩
    · exact works.givenUp listed (Flow.Branches.mem_of_getElem? there) earlier
    · obtain ⟨begun, selected, other, selectedHere, otherHere, _, tries⟩ :=
        works.tries resolution activeBefore
      have same : other = before := Option.some.inj (otherHere.symm.trans there)
      subst same
      refine ⟨selection, listed, number.symm, selected, key ▸ selectedHere, Or.inr ?_⟩
      rw [number, key]
      exact tries.spent ((tries.isExhausted_iff begun works.limited).mp exhausted) last

theorem Tracks.summed_of_files (tracks : base.Tracks limit selections attempts)
    (rollbacking : base.phase = .rollbacking) (leaves : base.Leaves middle)
    (files : middle.Files after) : ∀ summary ∈ after.summaries, ∃ selection ∈ selections,
      selection.phase = summary.phase ∧ summary.rollbacks ≤ selection.effort limit := by
  obtain ⟨selection, listed, works⟩ := tracks.works rollbacking
  have summaries : middle.summaries = base.summaries := (congrArg Engine.summaries leaves.frames :)
  have rollbacks : middle.rollbacksInPhase = base.rollbacksInPhase :=
    (congrArg Engine.rollbacksInPhase leaves.frames :)
  intro summary member
  rcases files.summaries summary member with known | ⟨phase, count⟩
  · exact tracks.summed summary (summaries ▸ known)
  · refine ⟨selection, listed, ?_, ?_⟩
    · rw [phase, leaves.frames.phaseNumber, works.phase]
    · rw [count, rollbacks]
      exact works.rollbacks_le

theorem concludePhase_phase (rollbacking : engine.phase = .rollbacking) :
    engine.concludePhase.engine.phase ≠ .tainting := by
  obtain ⟨summaries, log, summed⟩ := addSummary_eq engine
  have concludes := concludePhase_concludes engine
  generalize engine.concludePhase = decision at concludes
  have ended : ∀ ending : Engine, (ending.finish false).phase ≠ .tainting := by
    intro ending
    obtain ⟨_, _, shape⟩ := finish_eq ending false
    simp [shape]
  cases concludes with
  | limited limited text => exact ended _
  | nothing seeking found text => exact ended _
  | seed seeking seed found =>
      have frame := takeSeed_frame engine.addSummary
      simp only [found] at frame
      rw [frame, summed]
      simp [rollbacking]

theorem Treats.phase (treats : base.Treats decision) (rollbacking : base.phase = .rollbacking) :
    decision.engine.phase ≠ .tainting := by
  have kept : ∀ {middle : Engine}, base.Frames middle → middle.phase = .rollbacking :=
    fun frames => (congrArg Engine.phase frames :).trans rollbacking
  cases treats with
  | attempts middle frames resolution old record found picks told => simp [kept frames]
  | restores middle frames idle resolution active told => simp [kept frames]
  | concludes middle frames resolution active told => exact concludePhase_phase (kept frames)
  | passes idle => exact concludePhase_phase rollbacking

theorem selection?_of_phase (elsewhere : engine.phase ≠ .tainting ∨ decision.engine.phase = .tainting)
    (effect : Effect) : selection? engine decision effect = none := by
  unfold selection?
  rw [if_neg]
  rintro ⟨tainting, ends⟩
  rcases elsewhere with other | goesOn
  · exact other tainting
  · exact ends goesOn

theorem Tracks.from_base (tracks : engine.Tracks limit selections attempts)
    (bases : engine.Bases executions base) (decision : Decision)
    (ends : decision.engine.phase ≠ .tainting) (effect : Effect) :
    base.Tracks limit (selections ++ (selection? engine decision effect).toList) attempts := by
  cases bases with
  | underway rollbacking =>
      rw [selection?_of_phase (Or.inl (by simp [rollbacking])), Option.toList_none, List.append_nil]
      exact tracks
  | surveyed _ tainting idle surveys =>
      obtain ⟨surveyed, selects, branches⟩ := surveys.selects
      have shows : selection? engine decision effect =
          some ⟨engine.phaseNumber, engine.input, engine.baseInput, base.branches⟩ := by
        simp only [selection?, tainting.phase, ends, selects, branches, ne_eq, not_false_eq_true,
          and_self, if_true]
      rw [shows, Option.toList_some]
      exact tracks.surveyed tainting idle surveys

theorem Tracks.recorded (tracks : engine.Tracks limit selections attempts)
    (tainting : engine.Tainting executions) (taintingToo : after.Tainting later)
    (frame : after = { engine with
      position := after.position
      trace := after.trace
      graph := after.graph
      checkpoints := after.checkpoints
      branches := after.branches }) : after.Tracks limit selections attempts := by
  have active : engine.phase ≠ .finished := by simp [tainting.phase]
  have archive : after.archive = engine.archive := (congrArg Engine.archive frame :)
  have phaseNumber : after.phaseNumber = engine.phaseNumber := (congrArg Engine.phaseNumber frame :)
  have rollbacks : after.rollbacksInPhase = engine.rollbacksInPhase :=
    (congrArg Engine.rollbacksInPhase frame :)
  have fresh := tracks.fresh (Or.inr tainting.phase)
  refine ⟨⟨tracks.phases, tracks.belongs, tracks.explains, fun branch member bypassed => ?_, ?_, ?_⟩,
    ?_, phaseNumber ▸ tracks.past, fun _ => archive ▸ phaseNumber ▸ tracks.archived active,
    fun _ => phaseNumber ▸ rollbacks ▸ fresh, by simp [taintingToo.phase]⟩
  · rcases List.mem_append.mp member with old | here
    · exact tracks.givenUp branch (List.mem_append_left _ (archive ▸ old)) bypassed
    · obtain ⟨position, found⟩ := Flow.Branches.exists_of_mem here
      simp [(branch.isUndecided_iff).mp (taintingToo.branch found).2.1] at bypassed
  · exact (show after.summaries = engine.summaries from (congrArg Engine.summaries frame :)) ▸
      tracks.summed
  · exact Or.inl (rollbacks.trans fresh.2)
  · exact (congrArg (fun engine => engine.config.attemptLimit) frame :).trans tracks.limited

theorem attempt?_performs (engine : Engine) {memory changed : Memory} {processor : Processor}
    (done : Decision.carryOut ⟨middle, .attempt resolution⟩ memory =
      ⟨after, changed, .ok (.rollback processor)⟩) :
    ∃ attempt, attempt? engine ⟨middle, .attempt resolution⟩
        ⟨memory, changed, .rollback processor⟩ = some attempt ∧
      attempt.phase = engine.phaseNumber ∧ attempt.branch = resolution.branch ∧
      attempt.checkpoint = resolution.checkpoint ∧
      attempt.Performs middle.input (nextPerturbation resolution) := by
  obtain ⟨target, found, size, bytes⟩ := perturb_bytes done
  refine ⟨⟨engine.phaseNumber, resolution.branch, resolution.checkpoint, target, middle.random, memory,
    changed⟩, ?_, rfl, rfl, rfl, size, bytes⟩
  simp only [attempt?, found, Option.map_some]

theorem Tracks.passes (tracks : engine.Tracks limit selections attempts)
    (passes : engine.Passes executions decision action after later) {memory changed : Memory}
    (done : decision.carryOut memory = ⟨after, changed, .ok action⟩) :
    after.Tracks limit (selections ++ (selection? engine decision ⟨memory, changed, action⟩).toList)
      (attempts ++ (attempt? engine decision ⟨memory, changed, action⟩).toList) := by
  cases passes with
  | rests idle order harmless _ =>
      have other : engine.phase ≠ .tainting := by rcases idle with phase | phase <;> simp [phase]
      rw [selection?_of_phase (Or.inl other)]
      rcases harmless with rfl | rfl <;> simpa [attempt?] using tracks
  | records tainting idle instruction execution processor _ taintingToo supported frame =>
      have goesOn : (engine.recordInstruction execution processor).phase = .tainting :=
        tainting.phase
      rw [selection?_of_phase (Or.inr goesOn)]
      simpa [attempt?] using tracks.recorded tainting taintingToo frame
  | follows rollbacking near _ writes stands frame =>
      obtain ⟨selection, listed, works⟩ := tracks.works rollbacking
      have same : after.Tracks limit selections attempts :=
        tracks.goesOn rollbacking listed (works.moved frame)
          ((congrArg Engine.phase frame :).trans rollbacking)
          (congrArg Engine.phaseNumber frame :) (congrArg Engine.archive frame :)
          (congrArg Engine.summaries frame :)
      rw [selection?_of_phase (Or.inl (by simp [rollbacking]))]
      simpa [attempt?] using same
  | attempts base bases middle frames resolution old record found picks told processor input _
      rollsBack attempting =>
      have frame := frames.rollsBack rollsBack
      have phase : middle.phase = .rollbacking := (congrArg Engine.phase frames :).trans bases.phase
      have begun := tracks.from_base bases ⟨middle, .attempt resolution⟩
        (by simp [phase]) ⟨memory, changed, .rollback processor⟩
      obtain ⟨selection, listed, works⟩ := begun.works bases.phase
      obtain ⟨attempt, shows, number, place, target, performs⟩ := attempt?_performs engine done
      rw [shows, Option.toList_some]
      have current : attempt.phase = base.phaseNumber := number.trans bases.phaseNumber.symm
      exact begun.concat bases.phase listed current
        (works.attempted frames found picks told rollsBack attempting current place target performs)
        attempting.attempts.steered.phase (congrArg Engine.phaseNumber frame :)
        (congrArg Engine.archive frame :) (congrArg Engine.summaries frame :)
  | restores base bases middle frames resolution active told processor _ rollsBack forwards =>
      have frame := frames.rollsBack rollsBack
      have phase : middle.phase = .rollbacking := (congrArg Engine.phase frames :).trans bases.phase
      have begun := tracks.from_base bases ⟨middle, .restore resolution.checkpoint⟩
        (by simp [phase]) ⟨memory, changed, .rollback processor⟩
      obtain ⟨selection, listed, works⟩ := begun.works bases.phase
      rw [show attempt? engine _ _ = none from rfl, Option.toList_none, List.append_nil]
      exact begun.goesOn bases.phase listed
        (works.released frames active told rollsBack forwards.idle) forwards.steered.phase
        (congrArg Engine.phaseNumber frame :) (congrArg Engine.archive frame :)
        (congrArg Engine.summaries frame :)
  | finishes base bases _ treats middle leaves _ files phase idle phaseNumber rollbacks =>
      have begun := tracks.from_base bases _ (treats.phase bases.phase) ⟨memory, changed, .stop⟩
      obtain ⟨selection, listed, works⟩ := begun.works bases.phase
      have nothing : attempt? engine decision ⟨memory, changed, .stop⟩ = none := by
        unfold attempt?
        split <;> simp_all
      have same := phaseNumber.trans leaves.frames.phaseNumber
      have count := rollbacks.trans (congrArg Engine.rollbacksInPhase leaves.frames :)
      rw [nothing, Option.toList_none, List.append_nil]
      refine ⟨⟨begun.phases, begun.belongs, begun.explains, fun branch member =>
        (begun.filed bases.phase leaves files member).2,
        begun.summed_of_files bases.phase leaves files, Or.inr ⟨selection, listed, ?_, ?_⟩⟩, ?_,
        same ▸ begun.past, by simp [phase], by simp [phase], by simp [phase]⟩
      · exact works.phase.trans same.symm
      · exact count ▸ works.rollbacks_le
      · rw [files.config, leaves.frames.config, begun.limited]
  | restarts base bases middle leaves seeking rollbacking seed processor _ files tainting supported
      idle phaseNumber rollbacks =>
      have begun := tracks.from_base bases ⟨seeking, .restart seed⟩
        (by simp [rollbacking]) ⟨memory, changed, .rollback processor⟩
      have next : after.phaseNumber = base.phaseNumber + 1 :=
        phaseNumber.trans (congrArg (· + 1) leaves.frames.phaseNumber)
      rw [show attempt? engine _ _ = none from rfl, Option.toList_none, List.append_nil]
      refine ⟨⟨begun.phases, begun.belongs, begun.explains, fun branch member =>
        (begun.filed bases.phase leaves files member).2,
        begun.summed_of_files bases.phase leaves files, Or.inl rollbacks⟩, ?_, ?_, ?_, ?_, ?_⟩
      · rw [files.config, leaves.frames.config, begun.limited]
      · intro selection listed
        exact next ▸ Nat.le_succ_of_le (begun.past selection listed)
      · intro _ branch member
        have bound := (begun.filed bases.phase leaves files (List.mem_append_left _ member)).1
        omega
      · refine fun _ => ⟨fun selection listed => ?_, rollbacks⟩
        have bound := begun.past selection listed
        omega
      · simp [tainting.phase]

theorem Tracks.receiveInput (tracks : engine.Tracks limit selections attempts)
    (stands : engine.Stands executions) {memory : Memory} {buffer : InputBuffer}
    (done : engine.receiveInput memory buffer = .ok after) :
    after.Tracks limit selections attempts := by
  obtain ⟨capturing, _, _, tainting, frame⟩ := stands.receiveInput done
  have active : engine.phase ≠ .finished := by simp [capturing]
  rw [frame]
  exact ⟨⟨tracks.phases, tracks.belongs, tracks.explains, tracks.givenUp, tracks.summed,
    tracks.current⟩, tracks.limited, tracks.past, fun _ => tracks.archived active,
    fun _ => tracks.fresh (Or.inl capturing), by simp [tainting]⟩

theorem tracks_initial (config : Config) (random : Random) :
    (initial config random).Tracks config.attemptLimit [] [] :=
  ⟨⟨.nil, by simp, by simp, by simp [initial, inTraceOrder_empty], by simp [initial], Or.inl rfl⟩, rfl,
    by simp,
    by simp [initial], fun _ => ⟨by simp, rfl⟩, by simp [initial]⟩

theorem tracks_of_afterCalls {config : Config} {random : Random} {calls : List Call}
    (keeps : ∀ call ∈ calls, call.request ≠ .clear)
    (reached : (initial config random).afterCalls calls = some engine) :
    engine.Tracks config.attemptLimit ((initial config random).gather selection? calls)
      ((initial config random).gather attempt? calls) := by
  refine (afterCalls_chronicle (fun calls engine => (∃ executions, engine.Stands executions) ∧
    engine.Tracks config.attemptLimit ((initial config random).gather selection? calls)
      ((initial config random).gather attempt? calls))
    ⟨⟨[], stands_initial config random⟩, tracks_initial config random⟩ ?_ keeps reached).2
  rintro calls middle after call reached ⟨⟨executions, stands⟩, tracks⟩ keeps done
  rw [gather_concat reached, gather_concat reached]
  rcases stands.cases_afterCall keeps done with ⟨undecided, buffer, received⟩ |
    ⟨decision, action, changed, later, decides, answered, passes⟩
  · rw [shown_of_undecided undecided, shown_of_undecided undecided, Option.toList_none,
      Option.toList_none, List.append_nil, List.append_nil]
    exact ⟨⟨[], (stands.receiveInput received).2.2.1⟩, tracks.receiveInput stands received⟩
  · rw [shown_of_decision decides answered, shown_of_decision decides answered]
    exact ⟨⟨later, passes.stands stands⟩, tracks.passes passes answered⟩

/-- Behind any calls none of which fails or clears a phase, all attempts were made at the candidates that
were selected, from the latest to the earliest and no more than are allowed for. A branch was given up only
behind all of them, and the rollbacks of each phase are bounded by what its candidates allow. -/
theorem tried_of_afterCalls {config : Config} {random : Random} {calls : List Call}
    (keeps : ∀ call ∈ calls, call.request ≠ .clear)
    (reached : (initial config random).afterCalls calls = some engine) :
    engine.Tried config.attemptLimit ((initial config random).gather selection? calls)
      ((initial config random).gather attempt? calls) :=
  (tracks_of_afterCalls keeps reached).toTried

def comparingSecond : List Call := [
  .blank (.instruction
    (((Instruction.plain 100 "cmp").reading ["a"]).writing [flagsName] |>.accessingMemory true false)
    { Execution.plain 100 with reads := [⟨17, 1⟩] }),
  .blank (.instruction (((Instruction.plain 104 "je").reading [flagsName]).branching 200 108)
    { Execution.plain 104 with taken := some false }),
  .blank (.instruction (.plain 108 "nop") (.plain 108))]

def comparingBoth : List Call :=
  .blank (.instruction (((Instruction.plain 96 "load").writing ["a"]).accessingMemory true false)
    { Execution.plain 96 with reads := [⟨16, 1⟩] }) :: comparingSecond

/-- A branch that nothing flips: two attempts at the second byte, and two at both of them. -/
def neverFlipped : List Call :=
  [.blank (.input ⟨16, 2⟩)] ++ comparingBoth ++ [.blank .exit] ++ comparingSecond ++
    comparingSecond ++ comparingBoth ++ comparingBoth

def twoAttempts : Config := { Config.default with attemptLimit := 2 }

theorem tried_neverFlipped :
    ∃ engine, (initial twoAttempts .scattered).afterCalls neverFlipped = some engine ∧
      (∃ branch, engine.branches[3]? = some branch ∧ branch.isBypassed) ∧
      ((initial twoAttempts .scattered).gather attempt? neverFlipped).map (·.checkpoint) =
        [1, 1, 0, 0] ∧
      engine.Tried 2 ((initial twoAttempts .scattered).gather selection? neverFlipped)
        ((initial twoAttempts .scattered).gather attempt? neverFlipped) := by
  have facts : ((initial twoAttempts .scattered).gather attempt? neverFlipped).map
      (·.checkpoint) = [1, 1, 0, 0] ∧
      ((initial twoAttempts .scattered).afterCalls neverFlipped).any fun engine =>
        engine.branches[3]?.any Branch.isBypassed := by decide +kernel
  obtain ⟨checkpoints, outcome⟩ := facts
  obtain ⟨engine, reached, bypassed⟩ := (Option.any_eq_true _ _).mp outcome
  have keeps : ∀ call ∈ neverFlipped, call.request ≠ .clear := by
    simp [neverFlipped, comparingBoth, comparingSecond, Call.blank]
  exact ⟨engine, reached, (Option.any_eq_true _ _).mp bypassed, checkpoints,
    tried_of_afterCalls keeps reached⟩

end Engine

end BranchSteer
