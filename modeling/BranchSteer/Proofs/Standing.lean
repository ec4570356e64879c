import BranchSteer.Proofs.Advances
import BranchSteer.Proofs.Treatments

/-!
The engine between the calls of a host that clears no phase from outside, together with the executions that
the current phase has traced. A call that does not fail is told in full: what was decided about which
branch, what was filed of a phase that ended, and where the engine stands behind it.
-/

namespace BranchSteer.Engine

/-- Where an engine stands in front of a call, if none has failed before and no phase was cleared. -/
inductive Stands (engine : Engine) : List Execution → Prop
  | waiting (phase : engine.phase = .capturing) (position : engine.position = engine.basePosition)
    (trace : engine.trace.size = engine.basePosition) (checkpoints : engine.checkpoints = #[])
    (branches : engine.branches = ∅) (archive : engine.archive = [])
    (idle : engine.active = none) : Stands _ []
  | tainting (executions : List Execution) (tainting : engine.Tainting executions)
    (supported : engine.Supported anyFlip) (idle : engine.active = none) : Stands _ executions
  | forwarding (executions : List Execution) (forwards : engine.Forwards anyFlip executions) :
    Stands _ executions
  | attempting (executions : List Execution) (resolution : Resolution)
    (attempting : engine.Attempting anyFlip executions resolution) : Stands _ executions
  | finished (executions : List Execution) (phase : engine.phase = .finished)
    (idle : engine.active = none) : Stands _ executions

inductive Bases (engine : Engine) (executions : List Execution) : Engine → Prop
  | underway (rollbacking : engine.phase = .rollbacking) : Bases _ _ engine
  | surveyed (base : Engine) (tainting : engine.Tainting executions) (idle : engine.active = none)
    (surveys : engine.Surveys base) : Bases _ _ base

inductive Ruling (engine : Engine) (executions : List Execution) : Decision → Prop
  | rest (idle : engine.phase = .capturing ∨ engine.phase = .finished) (order : Order)
    (harmless : order = .proceed [] ∨ order = .stop) : Ruling _ _ ⟨engine, order⟩
  | record (tainting : engine.Tainting executions) (supported : engine.Supported anyFlip)
    (idle : engine.active = none) (instruction : Instruction) (execution : Execution)
    (processor : Processor) :
    Ruling _ _ ⟨engine.recordInstruction execution processor, .record instruction execution⟩
  | follow (rollbacking : engine.phase = .rollbacking) (position : Nat)
    (checkpoints : Array Checkpoint) (writes : List MemoryRange)
    (stands : ∀ {memory : Memory} {logged : Array Checkpoint},
      LoggedAll memory (writes.flatMap MemoryRange.addresses) checkpoints logged →
        ({ engine with position := position, checkpoints := logged } : Engine).Stands executions) :
    Ruling _ _ ⟨{ engine with position := position, checkpoints := checkpoints }, .proceed writes⟩
  | treat (base : Engine) (bases : engine.Bases executions base) (decision : Decision)
    (treats : base.Treats decision) (near : Engine)
    (takesBack : near.TakesBack anyFlip executions decision) : Ruling _ _ decision
  | fail (after : Engine) (fault : Fault) : Ruling _ _ ⟨after, .fail fault⟩

variable {engine base middle after : Engine} {executions later : List Execution}
  {decision : Decision} {action : Action} {memory changed : Memory} {resolution : Resolution}

theorem Tainting.endTainting_ruling (tainting : engine.Tainting executions)
    (supported : engine.Supported anyFlip) (idle : engine.active = none) (log : Array LogEntry) :
    engine.Ruling executions ({ engine with log := log } : Engine).endTainting := by
  have taintingToo : ({ engine with log := log } : Engine).Tainting executions :=
    ⟨tainting.phase, tainting.describes, tainting.position, tainting.armed, tainting.branch,
      tainting.follows, tainting.sameInput⟩
  obtain ⟨base, surveys, treats⟩ := tainting.endTainting_treats idle log
  exact .treat base (.surveyed base tainting idle surveys) _ treats _
    (taintingToo.endTainting ⟨supported.archived, supported.current⟩)

theorem Tainting.taint_ruling (tainting : engine.Tainting executions)
    (supported : engine.Supported anyFlip) (idle : engine.active = none)
    (instruction : Instruction) (execution : Execution) (processor : Processor) :
    engine.Ruling executions (engine.taint instruction execution processor) := by
  unfold Engine.taint
  split
  · exact tainting.endTainting_ruling supported idle _
  · split
    · exact tainting.endTainting_ruling supported idle _
    · exact .record tainting supported idle instruction execution processor

theorem Forwards.replay_ruling (forwards : engine.Forwards anyFlip executions)
    (execution : Execution) : engine.Ruling executions (engine.replay execution) := by
  by_cases follows : engine.trace[engine.position]? = some execution.address
  · rcases forwards.replay follows with ⟨goesOn, forwardsToo⟩ | takesBack
    · rw [goesOn]
      rw [advanced_eq] at forwardsToo ⊢
      exact .follow forwards.steered.phase _ _ _ fun logged =>
        .forwarding _ (forwardsToo.logged logged)
    · rcases forwards.replay_treats follows with goesOn | treats
      · rw [goesOn] at takesBack
        cases takesBack
      · exact .treat engine (.underway forwards.steered.phase) _ treats _ takesBack
  · obtain ⟨after, fault, fails, _⟩ := replay_strays forwards.idle follows
    rw [fails]
    exact .fail after fault

theorem Attempting.replay_ruling (attempting : engine.Attempting anyFlip executions resolution)
    (execution : Execution) : engine.Ruling executions (engine.replay execution) := by
  have rollbacking := attempting.attempts.steered.phase
  rcases attempting.replay (fun _ _ _ _ => trivial) with ⟨goesOn, _, attemptingToo⟩ | takesBack
  · rw [goesOn]
    exact .follow rollbacking _ engine.checkpoints _ fun logged =>
      .attempting _ _ (attemptingToo.logged logged)
  · rcases attempting.replay_treats execution with goesOn | treats
    · rw [goesOn] at takesBack
      cases takesBack
    · exact .treat engine (.underway rollbacking) _ treats _ takesBack

theorem Stands.ruling (stands : engine.Stands executions) (processor : Processor)
    (instruction : Instruction) (execution : Execution) :
    engine.Ruling executions (engine.decide processor instruction execution) := by
  cases stands with
  | waiting phase position trace checkpoints branches archive idle =>
      simp only [Engine.decide, phase]
      exact .rest (Or.inl phase) _ (Or.inl rfl)
  | tainting _ tainting supported idle =>
      simp only [Engine.decide, tainting.phase]
      split
      · exact .fail _ _
      · exact tainting.taint_ruling supported idle instruction execution processor
  | forwarding _ forwards =>
      simp only [Engine.decide, forwards.steered.phase]
      split
      · exact .fail _ _
      · exact forwards.replay_ruling execution
  | attempting _ resolution attempting =>
      simp only [Engine.decide, attempting.attempts.steered.phase]
      split
      · exact .fail _ _
      · exact attempting.replay_ruling execution
  | finished _ phase idle =>
      simp only [Engine.decide, phase]
      exact .rest (Or.inr phase) _ (Or.inr rfl)

theorem Stands.rulingExit (stands : engine.Stands executions) :
    engine.Ruling executions engine.decideExit := by
  cases stands with
  | waiting phase position trace checkpoints branches archive idle =>
      simp only [decideExit, phase]
      exact .rest (Or.inl phase) _ (Or.inr rfl)
  | tainting _ tainting supported idle =>
      simp only [decideExit, tainting.phase]
      exact tainting.endTainting_ruling supported idle engine.log
  | forwarding _ forwards =>
      simp only [decideExit, forwards.steered.phase, replayExit, forwards.idle, Option.isSome_none,
        Bool.false_eq_true, if_false, if_neg (Nat.not_le_of_lt forwards.inside)]
      exact .fail _ _
  | attempting _ resolution attempting =>
      simp only [decideExit, attempting.attempts.steered.phase]
      exact .treat engine (.underway attempting.attempts.steered.phase) _
        attempting.replayExit_treats _ attempting.replayExit
  | finished _ phase idle =>
      simp only [decideExit, phase]
      exact .rest (Or.inr phase) _ (Or.inr rfl)

theorem Stands.ruling_of_decision (stands : engine.Stands executions) {call : Call}
    (decides : engine.decision? call = some decision) : engine.Ruling executions decision := by
  obtain ⟨machine, request⟩ := call
  cases request with
  | input buffer => simp [decision?] at decides
  | instruction instruction execution =>
      simp only [decision?, Option.some.injEq] at decides
      exact decides ▸ stands.ruling machine.processor instruction execution
  | exit =>
      simp only [decision?, Option.some.injEq] at decides
      exact decides ▸ stands.rulingExit
  | clear => simp [decision?] at decides

structure Leaves (engine middle : Engine) : Prop where
  frames : engine.Frames middle
  records : ∀ {position : Nat} {new : Branch}, middle.branches[position]? = some new →
    ∃ old, engine.branches[position]? = some old ∧ new.phase = old.phase ∧
      new.position = old.position ∧ (new.isBypassed → old.isBypassed ∨
        ∃ resolution, engine.active = some resolution ∧ resolution.branch = position ∧
          engine.isExhausted resolution ∧
          (old.withoutCandidate resolution.checkpoint).latestCandidate? = none)

theorem Picks.filed {old record : Branch} (picks : engine.Picks old record resolution) :
    record.phase = old.phase ∧ record.position = old.position ∧
      record.isBypassed = old.isBypassed := by
  cases picks <;> exact ⟨rfl, rfl, rfl⟩

theorem Picks.isOpen {old record : Branch} (picks : engine.Picks old record resolution) :
    record.isOpen = old.isOpen := by
  cases picks <;> rfl

theorem Picks.inputDependencies {old record : Branch}
    (picks : engine.Picks old record resolution) :
    record.inputDependencies = old.inputDependencies := by
  cases picks <;> rfl

theorem Leaves.of_only (frames : engine.Frames middle) {here : Branch → Branch → Prop} {place : Nat}
    (told : Flow.Branches.Retold (Branch.Only here place) engine.branches middle.branches)
    (each : ∀ {old new : Branch}, engine.branches[place]? = some old → here old new →
      new.phase = old.phase ∧ new.position = old.position ∧ (new.isBypassed → old.isBypassed ∨
        ∃ resolution, engine.active = some resolution ∧ resolution.branch = place ∧
          engine.isExhausted resolution ∧
          (old.withoutCandidate resolution.checkpoint).latestCandidate? = none)) :
    engine.Leaves middle := by
  refine ⟨frames, fun {position new} found => ?_⟩
  obtain ⟨old, known, ⟨rfl, related⟩ | ⟨_, spared⟩⟩ := told.cases_only found
  · exact ⟨old, known, each known related⟩
  · exact ⟨old, known, spared.phase, spared.position,
      fun bypassed => Or.inl (spared.isBypassed ▸ bypassed)⟩

theorem Leaves.of_shuts (frames : engine.Frames middle) (active : engine.active = some resolution)
    (told : Flow.Branches.Retold (Branch.Only (engine.Shuts resolution) resolution.branch)
      engine.branches middle.branches) : engine.Leaves middle :=
  .of_only frames told fun _ shuts => ⟨shuts.phase, shuts.position, fun bypassed =>
    Or.inr ⟨resolution, active, rfl, shuts.givenUp bypassed⟩⟩

theorem Leaves.of_picks (frames : engine.Frames middle) {old record : Branch}
    (found : engine.branches[resolution.branch]? = some old)
    (picks : engine.Picks old record resolution)
    (told : Flow.Branches.Retold (Branch.Only (fun _ new => new = record) resolution.branch)
      engine.branches middle.branches) : engine.Leaves middle := by
  refine .of_only frames told ?_
  rintro other _ known rfl
  rw [found, Option.some.injEq] at known
  subst known
  obtain ⟨phase, position, isBypassed⟩ := picks.filed
  exact ⟨phase, position, fun bypassed => Or.inl (isBypassed ▸ bypassed)⟩

theorem Leaves.refl (engine : Engine) : engine.Leaves engine :=
  ⟨rfl, fun found => ⟨_, found, rfl, rfl, Or.inl⟩⟩

end Engine

structure Branch.Filed (old new : Branch) : Prop where
  phase : new.phase = old.phase
  position : new.position = old.position
  isBypassed : new.isBypassed = old.isBypassed

namespace Engine

structure Files (engine after : Engine) : Prop where
  config : after.config = engine.config
  summaries : ∀ summary ∈ after.summaries, summary ∈ engine.summaries ∨
    summary.phase = engine.phaseNumber ∧ summary.rollbacks = engine.rollbacksInPhase
  records : ∀ branch ∈ after.archive ++ after.branches.inTraceOrder,
    ∃ old ∈ engine.archive ++ engine.branches.inTraceOrder, old.Filed branch

variable {engine base middle seeking after : Engine} {executions later : List Execution}
  {decision : Decision} {action : Action} {memory changed : Memory} {resolution : Resolution}

theorem Frames.rollsBack (frames : engine.Frames middle) (rollsBack : middle.RollsBack after) :
    after = { engine with
      position := after.position
      checkpoints := after.checkpoints
      branches := middle.branches
      active := after.active
      rollbacks := engine.rollbacks + 1
      rollbacksInPhase := engine.rollbacksInPhase + 1
      random := after.random
      log := middle.log } := by
  unfold Frames at frames
  refine rollsBack.frame.trans ?_
  rw [frames]

theorem mem_addSummary {summary : PhaseSummary} (member : summary ∈ engine.addSummary.summaries) :
    summary ∈ engine.summaries ∨
      summary.phase = engine.phaseNumber ∧ summary.rollbacks = engine.rollbacksInPhase := by
  unfold addSummary at member
  split at member
  · exact Or.inl member
  · rcases List.mem_append.mp member with known | here
    · exact Or.inl known
    · rw [List.mem_singleton.mp here]
      exact Or.inr ⟨rfl, rfl⟩

theorem filed_of_mayBeExplored {old new : Branch} (marked : MayBeExplored old new) :
    old.Filed new := by
  rcases marked with rfl | rfl <;> exact ⟨rfl, rfl, rfl⟩

theorem Ends.files {exhausted : Bool} (ends : engine.Ends exhausted after) : engine.Files after := by
  obtain ⟨log, rfl⟩ := ends.shape
  exact ⟨rfl, fun summary => mem_addSummary, fun branch member => ⟨branch, member, rfl, rfl, rfl⟩⟩

theorem files_takeSeed (engine : Engine) : engine.Files engine.addSummary.takeSeed.1 := by
  obtain ⟨archived, current⟩ := takeSeed_marks engine.addSummary
  have frame := takeSeed_frame engine.addSummary
  obtain ⟨summaries, log, shape⟩ := addSummary_eq engine
  refine ⟨?_, fun summary member => ?_, fun branch member => ?_⟩
  · rw [frame, shape]
  · rw [frame] at member
    exact mem_addSummary member
  · rw [shape] at archived current member
    rcases List.mem_append.mp member with listed | listed
    · obtain ⟨old, known, marked⟩ := archived branch listed
      exact ⟨old, List.mem_append_left _ known, filed_of_mayBeExplored marked⟩
    · obtain ⟨position, found⟩ := Flow.Branches.exists_of_mem listed
      obtain ⟨other, old, known, marked⟩ := current found
      exact ⟨old, List.mem_append_right _ (Flow.Branches.mem_of_getElem? known),
        filed_of_mayBeExplored marked⟩

theorem Files.trans (one : engine.Files middle) (phaseNumber : middle.phaseNumber = engine.phaseNumber)
    (rollbacks : middle.rollbacksInPhase = engine.rollbacksInPhase) (two : middle.Files after) :
    engine.Files after := by
  refine ⟨two.config.trans one.config, fun summary member => ?_, fun branch member => ?_⟩
  · rcases two.summaries summary member with known | here
    · exact one.summaries summary known
    · exact Or.inr (phaseNumber ▸ rollbacks ▸ here)
  · obtain ⟨next, listed, filed⟩ := two.records branch member
    obtain ⟨old, known, before⟩ := one.records next listed
    exact ⟨old, known, filed.phase.trans before.phase, filed.position.trans before.position,
      filed.isBypassed.trans before.isBypassed⟩

theorem files_restarted {taken : Engine} (rollsBack : seeking.RollsBack taken) (seed : List UInt8)
    (text : String) : seeking.Files ((taken.restarted seed).inform text) := by
  have archive : taken.archive = seeking.archive := (congrArg Engine.archive rollsBack.frame :)
  have summaries : taken.summaries = seeking.summaries :=
    (congrArg Engine.summaries rollsBack.frame :)
  refine ⟨rollsBack.config, fun summary member => Or.inl (summaries ▸ member),
    fun branch member => ?_⟩
  simp only [inform, note, restarted, clearPhase, inTraceOrder_empty, List.append_nil, archive,
    rollsBack.branches, List.mem_append, List.mem_map] at member
  rcases member with old | ⟨current, listed, rfl⟩
  · exact ⟨branch, List.mem_append_left _ old, rfl, rfl, rfl⟩
  · exact ⟨current, List.mem_append_right _ listed, rfl, rfl, rfl⟩

/-- A call that does not fail: its decision, its answer, the engine behind it and the executions that
the current phase has traced by then. -/
inductive Passes (engine : Engine) (executions : List Execution) :
    Decision → Action → Engine → List Execution → Prop
  | rests (idle : engine.phase = .capturing ∨ engine.phase = .finished) (order : Order)
    (harmless : order = .proceed [] ∨ order = .stop) (action : Action) :
    Passes _ _ ⟨engine, order⟩ action engine executions
  | records (tainting : engine.Tainting executions) (idle : engine.active = none)
    (instruction : Instruction) (execution : Execution) (processor : Processor) (after : Engine)
    (taintingToo : after.Tainting (executions ++ [execution]))
    (supported : after.Supported anyFlip)
    (frame : after = { engine with
      position := after.position
      trace := after.trace
      graph := after.graph
      checkpoints := after.checkpoints
      branches := after.branches }) :
    Passes _ _ ⟨engine.recordInstruction execution processor, .record instruction execution⟩
      .proceed after (executions ++ [execution])
  | follows (rollbacking : engine.phase = .rollbacking) (near after : Engine)
    (writes : List MemoryRange) (stands : after.Stands executions)
    (frame : after = { engine with
      position := after.position
      checkpoints := after.checkpoints }) :
    Passes _ _ ⟨near, .proceed writes⟩ .proceed after executions
  | attempts (base : Engine) (bases : engine.Bases executions base) (middle : Engine)
    (frames : base.Frames middle) (resolution : Resolution) (old record : Branch)
    (found : base.branches[resolution.branch]? = some old)
    (picks : base.Picks old record resolution)
    (told : Flow.Branches.Retold (Branch.Only (fun _ new => new = record) resolution.branch)
      base.branches middle.branches) (processor : Processor) (input : List UInt8) (after : Engine)
    (rollsBack : middle.RollsBack after)
    (attempting : after.Attempting anyFlip executions
      { spent resolution with attemptedInput := input }) :
    Passes _ _ ⟨middle, .attempt resolution⟩ (.rollback processor) after executions
  | restores (base : Engine) (bases : engine.Bases executions base) (middle : Engine)
    (frames : base.Frames middle) (resolution : Resolution) (active : base.active = some resolution)
    (told : Flow.Branches.Retold (Branch.Only (base.Shuts resolution) resolution.branch)
      base.branches middle.branches) (processor : Processor) (after : Engine)
    (rollsBack : middle.RollsBack after) (forwards : after.Forwards anyFlip executions) :
    Passes _ _ ⟨middle, .restore resolution.checkpoint⟩ (.rollback processor) after executions
  | finishes (base : Engine) (bases : engine.Bases executions base) (decision : Decision)
    (treats : base.Treats decision) (middle : Engine) (leaves : base.Leaves middle) (after : Engine)
    (files : middle.Files after) (phase : after.phase = .finished) (idle : after.active = none)
    (phaseNumber : after.phaseNumber = middle.phaseNumber)
    (rollbacks : after.rollbacksInPhase = middle.rollbacksInPhase) :
    Passes _ _ decision .stop after executions
  | restarts (base : Engine) (bases : engine.Bases executions base) (middle : Engine)
    (leaves : base.Leaves middle) (seeking : Engine) (rollbacking : seeking.phase = .rollbacking)
    (seed : List UInt8) (processor : Processor) (after : Engine) (files : middle.Files after)
    (tainting : after.Tainting []) (supported : after.Supported anyFlip)
    (idle : after.active = none) (phaseNumber : after.phaseNumber = middle.phaseNumber + 1)
    (rollbacks : after.rollbacksInPhase = 0) :
    Passes _ _ ⟨seeking, .restart seed⟩ (.rollback processor) after []

theorem Attempts.perturbed (attempts : engine.Attempts anyFlip executions resolution)
    (done : engine.perturb memory resolution = ⟨after, changed, .ok action⟩) :
    (engine.Ends true after ∧ action = .stop) ∨ ∃ input processor, action = .rollback processor ∧
      engine.RollsBack after ∧
      after.Attempting anyFlip executions { spent resolution with attemptedInput := input } := by
  obtain ⟨point, there, _⟩ := attempts.target
  obtain ⟨checkpoint, found, _⟩ := exists_checkpoint there
  have goesBack := @rewind_goesBack { engine with active := some (spent resolution) } _
    attempts.armed _ found memory (nextPerturbation resolution)
  simp only [spent] at goesBack
  simp only [Engine.perturb] at done
  generalize Engine.rewind _ _ _ _ = reaction at goesBack done
  cases goesBack with
  | exhausted limit text =>
      simp only [Reaction.mk.injEq, Except.ok.injEq] at done
      obtain ⟨rfl, _, rfl⟩ := done
      exact Or.inl ⟨⟨fun _ => limit, _, _, rfl⟩, rfl⟩
  | failed behind changed fault ofHost => simp at done
  | returned behind changed processor takenBack =>
      simp only [Reaction.mk.injEq, Except.ok.injEq] at done
      obtain ⟨rfl, _, rfl⟩ := done
      refine Or.inr ⟨_, processor, rfl, ⟨takenBack.budget, ?_⟩, attempts.attempting takenBack ?_⟩
      · rw [takenBack.frame]
      · rw [length_patchInput]
        exact attempts.steered.describes.inputLength

theorem Restores.rewound {id : Nat} (restores : engine.Restores anyFlip executions id)
    (done : engine.rewind memory id .none = ⟨after, changed, .ok action⟩) :
    (engine.Ends true after ∧ action = .stop) ∨ ∃ processor, action = .rollback processor ∧
      engine.RollsBack after ∧ after.Forwards anyFlip executions := by
  obtain ⟨point, there, _⟩ := restores.target
  obtain ⟨checkpoint, found, _⟩ := exists_checkpoint there
  have goesBack := rewind_goesBack restores.armed found memory .none
  rw [done] at goesBack
  cases goesBack with
  | exhausted limit text => exact Or.inl ⟨⟨fun _ => limit, engine.active, _, rfl⟩, rfl⟩
  | returned _ _ processor takenBack =>
      refine Or.inr ⟨processor, rfl, ⟨takenBack.budget, ?_⟩, restores.forwards takenBack⟩
      have active : after.active = engine.active := (congrArg Engine.active takenBack.frame :)
      rw [active]
      exact takenBack.frame

theorem Restarts.explored {seed : List UInt8} (restarts : engine.Restarts anyFlip executions seed)
    (done : engine.explore memory seed = ⟨after, changed, .ok action⟩) :
    ((∃ exhausted, engine.Ends exhausted after) ∧ action = .stop) ∨
      ∃ taken text processor, action = .rollback processor ∧ engine.RollsBack taken ∧
        after = (taken.restarted seed).inform text ∧ after.Tainting [] ∧
        after.Supported anyFlip := by
  unfold Engine.explore at done
  split at done
  · simp only [Reaction.mk.injEq, Except.ok.injEq] at done
    obtain ⟨rfl, _, rfl⟩ := done
    exact Or.inl ⟨⟨false, by simp, engine.active, _, rfl⟩, rfl⟩
  · rename_i nonempty
    obtain ⟨checkpoint, found⟩ : ∃ checkpoint, engine.checkpoints[0]? = some checkpoint := by
      have positive : 0 < engine.checkpoints.size := by
        simpa [Array.size_pos_iff] using nonempty
      exact ⟨_, Array.getElem?_eq_getElem positive⟩
    have first : engine.recording.points[0]? = some checkpoint.point := by
      rw [points_getElem?, found, Option.map_some]
    have goesBack := rewind_goesBack restarts.armed found memory (.input seed)
    generalize Engine.rewind _ _ _ _ = reaction at goesBack done
    cases goesBack with
    | exhausted limit text =>
        simp only [Reaction.mk.injEq, Except.ok.injEq] at done
        obtain ⟨rfl, _, rfl⟩ := done
        exact Or.inl ⟨⟨true, fun _ => limit, engine.active, _, rfl⟩, rfl⟩
    | failed behind changed fault ofHost => simp at done
    | returned taken changed processor takenBack =>
        simp only [Reaction.mk.injEq, Except.ok.injEq] at done
        obtain ⟨rfl, _, rfl⟩ := done
        obtain ⟨tainting, supported⟩ := restarts.tainting first takenBack
        refine Or.inr ⟨taken, _, processor, rfl, ⟨takenBack.budget, ?_⟩, rfl, ?_, ?_⟩
        · have active : taken.active = engine.active := (congrArg Engine.active takenBack.frame :)
          rw [active]
          exact takenBack.frame
        · exact ⟨tainting.phase, tainting.describes, tainting.position, tainting.armed,
            tainting.branch, tainting.follows, tainting.sameInput⟩
        · exact ⟨supported.archived, supported.current⟩

theorem Passes.of_ends (bases : engine.Bases executions base) (treats : base.Treats decision)
    (leaves : base.Leaves middle) (files : middle.Files seeking)
    (phaseNumber : seeking.phaseNumber = middle.phaseNumber)
    (rollbacks : seeking.rollbacksInPhase = middle.rollbacksInPhase) {exhausted : Bool}
    (ends : seeking.Ends exhausted after) :
    engine.Passes executions decision .stop after executions := by
  have filed := files.trans phaseNumber rollbacks ends.files
  obtain ⟨log, rfl⟩ := ends.shape
  exact .finishes base bases decision treats middle leaves _ filed rfl rfl phaseNumber rollbacks

theorem concludePhase_passes (bases : engine.Bases executions base)
    (treats : base.Treats middle.concludePhase) (leaves : base.Leaves middle)
    (rollbacking : middle.phase = .rollbacking) {near : Engine}
    (takesBack : near.TakesBack anyFlip executions middle.concludePhase)
    (done : middle.concludePhase.carryOut memory = ⟨after, changed, .ok action⟩) :
    ∃ later, engine.Passes executions middle.concludePhase action after later := by
  obtain ⟨summaries, log, summed⟩ := addSummary_eq middle
  have filed : middle.Files middle.addSummary := by
    refine ⟨by rw [summed], fun _ => mem_addSummary, fun branch member => ?_⟩
    rw [summed] at member
    exact ⟨branch, member, rfl, rfl, rfl⟩
  have frame := takeSeed_frame middle.addSummary
  have filedToo := files_takeSeed middle
  have concludes := concludePhase_concludes middle
  generalize middle.concludePhase = decision at treats takesBack done concludes ⊢
  cases concludes with
  | limited limited text =>
      simp only [Decision.carryOut, Reaction.mk.injEq, Except.ok.injEq] at done
      obtain ⟨rfl, _, rfl⟩ := done
      exact ⟨executions, .of_ends bases treats leaves filed (by rw [summed]) (by rw [summed])
        ⟨by simp, _, _, rfl⟩⟩
  | nothing seeking found text =>
      simp only [found] at frame filedToo
      simp only [Decision.carryOut, Reaction.mk.injEq, Except.ok.injEq] at done
      obtain ⟨rfl, _, rfl⟩ := done
      exact ⟨executions, .of_ends bases treats leaves filedToo (by rw [frame, summed])
        (by rw [frame, summed]) ⟨by simp, _, _, rfl⟩⟩
  | seed seeking seed found =>
      simp only [found] at frame filedToo
      cases takesBack with
      | restart _ _ keeps restarts =>
          rcases restarts.explored done with ⟨⟨exhausted, ends⟩, rfl⟩ |
            ⟨taken, text, processor, rfl, rollsBack, rfl, tainting, supported⟩
          · exact ⟨executions, .of_ends bases treats leaves filedToo (by rw [frame, summed])
              (by rw [frame, summed]) ends⟩
          · have number : seeking.phaseNumber = middle.phaseNumber := by rw [frame, summed]
            have phase : seeking.phase = .rollbacking := by
              rw [frame, summed]
              exact rollbacking
            refine ⟨[], .restarts base bases middle leaves seeking phase seed processor _
              (filedToo.trans number (by rw [frame, summed]) (files_restarted rollsBack seed text))
              tainting supported rfl ?_ rfl⟩
            have same : taken.phaseNumber = seeking.phaseNumber :=
              (congrArg Engine.phaseNumber rollsBack.frame :)
            exact congrArg (· + 1) (same.trans number)

theorem Bases.phase (bases : engine.Bases executions base) : base.phase = .rollbacking := by
  cases bases with
  | underway rollbacking => exact rollbacking
  | surveyed _ tainting idle surveys => exact (congrArg Engine.phase surveys.frame :)

theorem Bases.active (bases : engine.Bases executions base) : base.active = engine.active := by
  cases bases with
  | underway rollbacking => rfl
  | surveyed _ tainting idle surveys => exact (congrArg Engine.active surveys.frame :)

theorem Bases.phaseNumber (bases : engine.Bases executions base) :
    base.phaseNumber = engine.phaseNumber := by
  cases bases with
  | underway rollbacking => rfl
  | surveyed _ tainting idle surveys => exact (congrArg Engine.phaseNumber surveys.frame :)

theorem Treats.carriedOut (bases : engine.Bases executions base) (treats : base.Treats decision)
    {near : Engine} (takesBack : near.TakesBack anyFlip executions decision)
    (done : decision.carryOut memory = ⟨after, changed, .ok action⟩) :
    ∃ later, engine.Passes executions decision action after later := by
  have phase := bases.phase
  have known := treats
  cases treats with
  | attempts middle frames resolution old record found picks told =>
      have leaves := Leaves.of_picks frames found picks told
      cases takesBack with
      | attempt _ _ keeps attempts =>
          rcases attempts.perturbed done with ⟨ends, rfl⟩ |
            ⟨input, processor, rfl, rollsBack, attempting⟩
          · obtain ⟨log, shape⟩ := ends.shape
            exact ⟨executions, .finishes base bases _ known middle leaves after ends.files
              (by rw [shape]) (by rw [shape]) (by rw [shape]) (by rw [shape])⟩
          · exact ⟨executions, .attempts base bases middle frames resolution old record found picks
              told processor input after rollsBack attempting⟩
  | restores middle frames idle resolution active told =>
      have leaves := Leaves.of_shuts frames active told
      cases takesBack with
      | restore _ _ keeps restores =>
          rcases restores.rewound done with ⟨ends, rfl⟩ | ⟨processor, rfl, rollsBack, forwards⟩
          · obtain ⟨log, shape⟩ := ends.shape
            exact ⟨executions, .finishes base bases _ known middle leaves after ends.files
              (by rw [shape]) (by rw [shape]) (by rw [shape]) (by rw [shape])⟩
          · exact ⟨executions, .restores base bases middle frames resolution active told processor
              after rollsBack forwards⟩
  | concludes middle frames resolution active told =>
      have same : middle.phase = base.phase := (congrArg Engine.phase frames :)
      exact concludePhase_passes bases known (Leaves.of_shuts frames active told)
        (same.trans phase) takesBack done
  | passes idle => exact concludePhase_passes bases known (Leaves.refl base) phase takesBack done

theorem Ruling.passes (ruling : engine.Ruling executions decision)
    (done : decision.carryOut memory = ⟨after, changed, .ok action⟩) :
    ∃ later, engine.Passes executions decision action after later := by
  cases ruling with
  | rest idle order harmless =>
      have same : engine = after := by
        rcases harmless with rfl | rfl
        · exact congrArg Reaction.engine done
        · exact congrArg Reaction.engine done
      exact ⟨executions, same ▸ .rests idle order harmless action⟩
  | record tainting supported idle instruction execution processor =>
      have entered := (engine.recordInstruction execution processor).enter_entered memory instruction
        execution
      rw [show Engine.enter _ _ _ _ = _ from done] at entered
      cases entered with
      | plain checkpoints logged notBranch =>
          exact ⟨_, .records tainting idle instruction execution processor _
            (tainting.propagate logged instruction) ⟨supported.archived, supported.current⟩ rfl⟩
      | branch checkpoints logged taken outcome =>
          refine ⟨_, .records tainting idle instruction execution processor _
            ((tainting.propagate logged instruction).recordBranch outcome)
            (Supported.recordBranch ?_ _ _) rfl⟩
          exact ⟨supported.archived, supported.current⟩
  | follow rollbacking position checkpoints writes stands =>
      obtain ⟨tracked, ⟨logged, shape⟩ | ⟨access, shape⟩⟩ := ({ engine with
        position := position, checkpoints := checkpoints } : Engine).proceed_proceeded memory writes
      · rw [show Engine.proceed _ _ _ = _ from done] at shape
        simp only [Reaction.mk.injEq, Except.ok.injEq] at shape
        obtain ⟨rfl, _, rfl⟩ := shape
        exact ⟨executions, .follows rollbacking _ _ writes (stands logged) rfl⟩
      · rw [show Engine.proceed _ _ _ = _ from done] at shape
        simp at shape
  | treat base bases _ treats near takesBack => exact treats.carriedOut bases takesBack done
  | fail after fault => simp [Decision.carryOut] at done

theorem Passes.stands (passes : engine.Passes executions decision action after later)
    (stands : engine.Stands executions) : after.Stands later := by
  cases passes with
  | rests idle order harmless action => exact stands
  | records tainting idle instruction execution processor _ taintingToo supported frame =>
      have idleToo : after.active = engine.active := (congrArg Engine.active frame :)
      exact .tainting _ taintingToo supported (idleToo.trans idle)
  | follows rollbacking near _ writes standsToo frame => exact standsToo
  | attempts base bases middle frames resolution old record found picks told processor input _
      rollsBack attempting => exact .attempting _ _ attempting
  | restores base bases middle frames resolution active told processor _ rollsBack forwards =>
      exact .forwarding _ forwards
  | finishes base bases _ treats middle leaves _ files phase idle phaseNumber rollbacks =>
      exact .finished _ phase idle
  | restarts base bases middle leaves seeking rollbacking seed processor _ files tainting supported
      idle phaseNumber rollbacks => exact .tainting _ tainting supported idle

theorem Stands.receiveInput (stands : engine.Stands executions) {buffer : InputBuffer}
    (done : engine.receiveInput memory buffer = .ok after) :
    engine.phase = .capturing ∧ executions = [] ∧ after.Stands [] ∧
      after.phase = .tainting ∧ after = { engine with
        baseInput := after.baseInput
        input := after.input
        graph := after.graph
        phase := after.phase
        log := after.log } := by
  obtain ⟨capturing, bytes, log, length, rfl⟩ := receiveInput_eq_ok done
  cases stands with
  | waiting phase position trace checkpoints branches archive idle =>
      refine ⟨phase, rfl, .tainting [] (tainting_nil rfl length position trace checkpoints branches
        rfl) ⟨fun branch member => ?_, fun {position branch} found => ?_⟩ idle, rfl, rfl⟩
      · simp [archive] at member
      · simp [branches] at found
  | tainting _ tainting supported idle => simp [tainting.phase] at capturing
  | forwarding _ forwards => simp [forwards.steered.phase] at capturing
  | attempting _ resolution attempting =>
      simp [attempting.attempts.steered.phase] at capturing
  | finished _ phase idle => simp [phase] at capturing

theorem Stands.cases_afterCall (stands : engine.Stands executions) {call : Call}
    (keeps : call.request ≠ .clear) (done : engine.afterCall call = some after) :
    (engine.decision? call = none ∧ ∃ buffer,
      engine.receiveInput call.machine.memory buffer = .ok after) ∨
    ∃ decision action changed later, engine.decision? call = some decision ∧
      decision.carryOut call.machine.memory = ⟨after, changed, .ok action⟩ ∧
      engine.Passes executions decision action after later := by
  obtain ⟨memory, action, answered⟩ := afterCall_eq_some done
  cases decides : engine.decision? call with
  | some decision =>
      rw [answer_of_decision decides] at answered
      obtain ⟨later, passes⟩ := (stands.ruling_of_decision decides).passes answered
      exact Or.inr ⟨decision, action, memory, later, rfl, answered, passes⟩
  | none =>
      obtain ⟨machine, request⟩ := call
      cases request with
      | input buffer =>
          simp only [answer] at answered
          split at answered
          · rename_i behind received
            simp only [Reaction.mk.injEq] at answered
            exact Or.inl ⟨rfl, buffer, answered.1 ▸ received⟩
          · simp at answered
      | instruction instruction execution => simp [decision?] at decides
      | exit => simp [decision?] at decides
      | clear => exact absurd rfl keeps

theorem stands_initial (config : Config) (random : Random) : (initial config random).Stands [] :=
  .waiting rfl rfl rfl rfl rfl rfl rfl

end Engine

end BranchSteer
