import BranchSteer.Proofs.Decisions

/-!
What a decision of the rollbacking phase does to the records, in full. It is about one branch at most: that
one is attempted, moved to its next candidate, flipped or given up. All others are left as they are, except
that a branch which is not open may be resolved by chance.
-/

namespace BranchSteer

structure Branch.Spared (old new : Branch) : Prop where
  phase : new.phase = old.phase
  position : new.position = old.position
  inputDependencies : new.inputDependencies = old.inputDependencies
  candidates : new.candidates = old.candidates
  isBypassed : new.isBypassed = old.isBypassed
  isOpen : new.isOpen → old.isOpen

namespace Branch

theorem Spared.refl (branch : Branch) : branch.Spared branch := ⟨rfl, rfl, rfl, rfl, rfl, id⟩

theorem Spared.trans {old middle new : Branch} (one : old.Spared middle) (two : middle.Spared new) :
    old.Spared new :=
  ⟨two.phase.trans one.phase, two.position.trans one.position,
    two.inputDependencies.trans one.inputDependencies, two.candidates.trans one.candidates,
    two.isBypassed.trans one.isBypassed, fun isOpen => one.isOpen (two.isOpen isOpen)⟩

theorem Spared.dependsOnInput {old new : Branch} (spared : old.Spared new) :
    new.dependsOnInput = old.dependsOnInput := by
  rw [Branch.dependsOnInput, Branch.dependsOnInput, spared.inputDependencies]

theorem spared_resolve {branch : Branch} (undecided : branch.isUndecided)
    (input : List UInt8) : branch.Spared (branch.resolve input) := by
  have retains := branch.retains_resolve input
  obtain ⟨resolved, unbypassed⟩ := resolved_resolve undecided input
  refine ⟨retains.phase, retains.position, retains.inputDependencies, branch.candidates_resolve input,
    ?_, ?_⟩
  · rw [unbypassed, (branch.isUndecided_iff.mp undecided).2]
  · simp [isOpen, isUndecided, resolved]

def Only (here : Branch → Branch → Prop) (place position : Nat) (old new : Branch) : Prop :=
  if position = place then here old new else old.Spared new

end Branch

theorem Flow.Branches.Retold.only {before middle after : Flow.Branches} {place : Nat}
    {here : Branch → Branch → Prop} {old new : Branch}
    (spared : Retold (fun _ => Branch.Spared) before middle) (found : before[place]? = some old)
    (related : here old new) (inserted : after = middle.insert place new) :
    Retold (Branch.Only here place) before after := by
  subst inserted
  refine ⟨fun {position branch} lookup => ?_, fun member =>
    Std.ExtTreeMap.mem_insert.mpr (Or.inr (spared.kept member))⟩
  simp only [Std.ExtTreeMap.getElem?_insert, Nat.compare_eq_eq] at lookup
  unfold Branch.Only
  split at lookup
  · rename_i same
    subst same
    rw [Option.some.injEq] at lookup
    exact ⟨old, found, by rw [if_pos rfl]; exact lookup ▸ related⟩
  · rename_i different
    obtain ⟨other, known, spares⟩ := spared.origin lookup
    exact ⟨other, known, by rwa [if_neg fun same => different same.symm]⟩

theorem Flow.Branches.Retold.cases_only {before after : Flow.Branches} {place position : Nat}
    {here : Branch → Branch → Prop} {new : Branch}
    (told : Retold (Branch.Only here place) before after) (found : after[position]? = some new) :
    ∃ old, before[position]? = some old ∧
      (position = place ∧ here old new ∨ position ≠ place ∧ old.Spared new) := by
  obtain ⟨old, known, related⟩ := told.origin found
  refine ⟨old, known, ?_⟩
  unfold Branch.Only at related
  split at related
  · rename_i same
    exact Or.inl ⟨same, related⟩
  · rename_i elsewhere
    exact Or.inr ⟨elsewhere, related⟩

theorem Flow.Branches.Retold.exists_only {before after : Flow.Branches} {place position : Nat}
    {here : Branch → Branch → Prop} {old : Branch}
    (told : Retold (Branch.Only here place) before after) (found : before[position]? = some old) :
    ∃ new, after[position]? = some new ∧
      (position = place ∧ here old new ∨ position ≠ place ∧ old.Spared new) := by
  have member : position ∈ before := Std.ExtTreeMap.mem_iff_isSome_getElem?.mpr (by simp [found])
  obtain ⟨new, there⟩ := Option.isSome_iff_exists.mp
    (Std.ExtTreeMap.mem_iff_isSome_getElem?.mp (told.kept member))
  obtain ⟨other, known, related⟩ := told.cases_only there
  rw [found, Option.some.injEq] at known
  exact ⟨new, there, known ▸ related⟩

namespace Engine

def Frames (engine middle : Engine) : Prop :=
  middle = { engine with
    position := middle.position
    checkpoints := middle.checkpoints
    branches := middle.branches
    active := middle.active
    random := middle.random
    log := middle.log }

/-- Why a resolution is attempted that is about a record, and the record behind the decision. -/
inductive Picks (engine : Engine) (old : Branch) : Branch → Resolution → Prop
  | first (checkpoint : Nat) (idle : engine.active = none) (isOpen : old.isOpen)
    (latest : old.latestCandidate? = some checkpoint) :
    Picks _ _ old
      (engine.prepare old (freshResolution old.position checkpoint engine.baseInput)).2
  | again (resolution : Resolution) (active : engine.active = some resolution)
    (left : ¬ engine.isExhausted resolution) : Picks _ _ old resolution
  | next (resolution : Resolution) (checkpoint : Nat) (active : engine.active = some resolution)
    (exhausted : engine.isExhausted resolution)
    (latest : (old.withoutCandidate resolution.checkpoint).latestCandidate? = some checkpoint) :
    Picks _ _ (old.withoutCandidate resolution.checkpoint)
      (engine.prepare (old.withoutCandidate resolution.checkpoint)
        (movedResolution old resolution checkpoint)).2

/-- The record of a branch that is released, since it was flipped or since no candidate is left. -/
structure Shuts (engine : Engine) (resolution : Resolution) (old new : Branch) : Prop where
  phase : new.phase = old.phase
  position : new.position = old.position
  inputDependencies : new.inputDependencies = old.inputDependencies
  closed : ¬ new.isOpen
  givenUp : new.isBypassed → engine.isExhausted resolution ∧
    (old.withoutCandidate resolution.checkpoint).latestCandidate? = none

inductive Treats (engine : Engine) : Decision → Prop
  | attempts (middle : Engine) (frames : engine.Frames middle) (resolution : Resolution)
    (old record : Branch) (found : engine.branches[resolution.branch]? = some old)
    (picks : engine.Picks old record resolution)
    (told : Flow.Branches.Retold (Branch.Only (fun _ new => new = record) resolution.branch)
      engine.branches middle.branches) : Treats _ ⟨middle, .attempt resolution⟩
  | restores (middle : Engine) (frames : engine.Frames middle) (idle : middle.active = none)
    (resolution : Resolution) (active : engine.active = some resolution)
    (told : Flow.Branches.Retold (Branch.Only (engine.Shuts resolution) resolution.branch)
      engine.branches middle.branches) : Treats _ ⟨middle, .restore resolution.checkpoint⟩
  | concludes (middle : Engine) (frames : engine.Frames middle) (resolution : Resolution)
    (active : engine.active = some resolution)
    (told : Flow.Branches.Retold (Branch.Only (engine.Shuts resolution) resolution.branch)
      engine.branches middle.branches) : Treats _ middle.concludePhase
  | passes (idle : engine.active = none) : Treats _ engine.concludePhase

variable {engine middle after : Engine} {genuine : Finding → List UInt8 → Prop}
  {executions : List Execution} {decision : Decision} {resolution : Resolution} {branch : Branch}

theorem Frames.trans (one : engine.Frames middle) (two : middle.Frames after) :
    engine.Frames after := by
  unfold Frames at one two
  refine two.trans ?_
  rw [one]

theorem Frames.config (frames : engine.Frames middle) : middle.config = engine.config :=
  (congrArg Engine.config frames :)

theorem Frames.phaseNumber (frames : engine.Frames middle) :
    middle.phaseNumber = engine.phaseNumber :=
  (congrArg Engine.phaseNumber frames :)

theorem Frames.input (frames : engine.Frames middle) : middle.input = engine.input :=
  (congrArg Engine.input frames :)

theorem Frames.baseInput (frames : engine.Frames middle) : middle.baseInput = engine.baseInput :=
  (congrArg Engine.baseInput frames :)

theorem Frames.isExhausted (frames : engine.Frames middle) (resolution : Resolution) :
    middle.isExhausted resolution = engine.isExhausted resolution := by
  simp only [Engine.isExhausted, frames.config]

theorem prepare_congr (input : middle.input = engine.input)
    (baseInput : middle.baseInput = engine.baseInput) (random : middle.random = engine.random)
    (branch : Branch) (resolution : Resolution) :
    (middle.prepare branch resolution).2 = (engine.prepare branch resolution).2 := by
  simp only [prepare, makeSchedule, input, baseInput, random]

theorem beginAt_eq (found : engine.branches[resolution.branch]? = some branch) :
    engine.beginAt resolution = ⟨{ engine with
      active := some resolution
      random := (engine.prepare branch resolution).1.random },
      .attempt (engine.prepare branch resolution).2⟩ := by
  simp only [beginAt, found]
  rfl

structure Credits (engine : Engine) (resolution : Resolution) (credited : Engine) : Prop where
  frames : engine.Frames credited
  random : credited.random = engine.random
  before : engine.active = some resolution
  active : credited.active = some resolution
  spared : Flow.Branches.Retold (fun _ => Branch.Spared) engine.branches credited.branches
  kept : credited.branches[resolution.branch]? = engine.branches[resolution.branch]?

namespace Credits

variable {credited : Engine}

theorem moved (active : engine.active = some resolution) (position : Nat) :
    engine.Credits resolution { engine with position := position } :=
  ⟨rfl, rfl, active, active, .refl (fun _ => Branch.Spared.refl) _, rfl⟩

theorem trans (one : engine.Credits resolution middle) (two : middle.Credits resolution credited) :
    engine.Credits resolution credited :=
  ⟨one.frames.trans two.frames, two.random.trans one.random, one.before, two.active,
    one.spared.trans (fun first second => first.trans second) two.spared,
    two.kept.trans one.kept⟩

theorem release_treats (credits : engine.Credits resolution credited)
    (found : engine.branches[resolution.branch]? = some branch) {closed : Branch}
    (key : closed.position = resolution.branch) (shuts : engine.Shuts resolution branch closed)
    (noted : Branch) (text : String) :
    engine.Treats ((credited.setBranch closed).noteBranch noted text).release := by
  have told : Flow.Branches.Retold (Branch.Only (engine.Shuts resolution) resolution.branch)
      engine.branches ((credited.setBranch closed).noteBranch noted text).branches :=
    credits.spared.only found shuts (by rw [← key]; rfl)
  have frames : engine.Frames { (credited.setBranch closed).noteBranch noted text with
      active := none } :=
    credits.frames.trans rfl
  have active : ((credited.setBranch closed).noteBranch noted text).active = some resolution :=
    credits.active
  simp only [release, active]
  split
  · exact .restores _ frames rfl resolution credits.before told
  · exact .concludes _ frames resolution credits.before told

theorem retry_treats (credits : engine.Credits resolution credited)
    (found : engine.branches[resolution.branch]? = some branch)
    (key : branch.position = resolution.branch) (isOpen : branch.isOpen) :
    engine.Treats credited.retry := by
  have foundToo : credited.branches[resolution.branch]? = some branch := credits.kept.trans found
  simp only [retry, credits.active, foundToo, credits.frames.isExhausted]
  split
  · rename_i left
    refine .attempts credited credits.frames resolution branch branch found
      (.again resolution credits.before (by simpa using left)) ⟨fun {position new} lookup => ?_,
        credits.spared.kept⟩
    unfold Branch.Only
    split
    · rename_i here
      subst here
      rw [foundToo, Option.some.injEq] at lookup
      exact ⟨branch, found, lookup.symm⟩
    · exact credits.spared.origin lookup
  · rename_i spent
    have exhausted : engine.isExhausted resolution := by simpa using spent
    split
    · rename_i next latest
      generalize "No flip after " ++ _ ++ _ ++ _ ++ _ ++ _ = text
      generalize shape : (credited.setBranch (branch.withoutCandidate
        resolution.checkpoint)).noteBranch branch text = dropped
      have told : Flow.Branches.Retold (Branch.Only (fun _ new => new =
          branch.withoutCandidate resolution.checkpoint) resolution.branch)
            engine.branches dropped.branches :=
        credits.spared.only found rfl (by rw [← shape, ← key]; rfl)
      have lookup : dropped.branches[(movedResolution branch resolution next).branch]? =
          some (branch.withoutCandidate resolution.checkpoint) := by
        rw [← shape, movedResolution, ← key]
        exact getElem?_setBranch credited (branch.withoutCandidate resolution.checkpoint)
      have frames : credited.Frames dropped := shape ▸ rfl
      have random : dropped.random = engine.random := by
        rw [← shape]
        exact credits.random
      have begun := credits.frames.trans frames
      change engine.Treats (dropped.beginAt (movedResolution branch resolution next))
      rw [beginAt_eq lookup, prepare_congr begun.input begun.baseInput random]
      refine .attempts _ ?_ _ branch _ found
        (.next resolution next credits.before exhausted latest) told
      exact begun.trans rfl
    · rename_i last
      have undecided : (branch.withoutCandidate resolution.checkpoint).isUndecided :=
        isOpen_undecided isOpen
      obtain ⟨shape, _, closed⟩ := bypass_spec undecided
      refine credits.release_treats found ?_ ⟨?_, ?_, ?_, closed, fun _ => ⟨exhausted, last⟩⟩ _ _
      · rw [shape]
        exact key
      all_goals rw [shape]; rfl

theorem acceptFlip_treats (credits : engine.Credits resolution credited)
    (found : engine.branches[resolution.branch]? = some branch)
    (key : branch.position = resolution.branch) (isOpen : branch.isOpen) :
    engine.Treats credited.acceptFlip := by
  have foundToo : credited.branches[resolution.branch]? = some branch := credits.kept.trans found
  have retains := branch.retains_resolve resolution.attemptedInput
  obtain ⟨resolved, unbypassed⟩ :=
    Branch.resolved_resolve (isOpen_undecided isOpen) resolution.attemptedInput
  simp only [acceptFlip, credits.active, foundToo]
  refine credits.release_treats found (retains.position.trans key) ⟨retains.phase,
    retains.position, retains.inputDependencies, ?_, fun bypassed => ?_⟩ _ _
  · simp [Branch.isOpen, Branch.isUndecided, resolved]
  · simp [unbypassed] at bypassed

end Credits

theorem creditDivergence_credits (keyed : Flow.Branches.Keyed engine.branches)
    (active : engine.active = some resolution)
    (elsewhere : Position.previous engine.position ≠ resolution.branch) :
    engine.Credits resolution (engine.creditDivergence resolution) := by
  have kept := getElem?_creditDivergence keyed resolution elsewhere
  obtain ⟨_, _, sameActive⟩ := engine.creditDivergence_frame resolution
  refine ⟨?_, ?_, active, sameActive.trans active, ?_, kept⟩
  · unfold creditDivergence
    split
    · split <;> rfl
    · rfl
  · unfold creditDivergence
    split
    · split <;> rfl
    · rfl
  · unfold creditDivergence
    split
    · rename_i branch found
      split
      · rename_i undecided
        have spared := Branch.spared_resolve undecided resolution.attemptedInput
        have key : (branch.resolve resolution.attemptedInput).position =
            Position.previous engine.position := spared.position.trans (keyed _ _ found)
        rw [← key] at found
        exact .insert (fun _ => Branch.Spared.refl) found spared
      · exact .refl (fun _ => Branch.Spared.refl) _
    · exact .refl (fun _ => Branch.Spared.refl) _

theorem beginResolution_treats {position checkpoint : Nat} (frames : engine.Frames middle)
    (random : middle.random = engine.random) (branches : middle.branches = engine.branches)
    (idle : engine.active = none) (found : engine.branches[position]? = some branch)
    (key : branch.position = position) (isOpen : branch.isOpen)
    (latest : branch.latestCandidate? = some checkpoint) :
    engine.Treats (middle.beginResolution position) := by
  subst key
  have foundToo : middle.branches[branch.position]? = some branch := branches ▸ found
  simp only [beginResolution, foundToo, Option.bind_some, latest]
  change engine.Treats (middle.beginAt (freshResolution branch.position checkpoint
    middle.baseInput))
  rw [frames.baseInput, beginAt_eq foundToo, prepare_congr frames.input frames.baseInput random]
  refine .attempts _ ?_ _ branch branch found (.first checkpoint idle isOpen latest)
    ⟨fun {other new} lookup => ?_, fun member => ?_⟩
  · exact frames.trans rfl
  · rw [show Engine.branches _ = engine.branches from branches] at lookup
    refine ⟨new, lookup, ?_⟩
    unfold Branch.Only
    split
    · rename_i here
      rw [here] at lookup
      exact Option.some.inj (lookup.symm.trans found)
    · exact .refl new
  · rw [show Engine.branches _ = engine.branches from branches]
    exact member

theorem Steered.exists_latest (steered : engine.Steered genuine executions) {position : Nat}
    (found : engine.branches[position]? = some branch) (isOpen : branch.isOpen) :
    ∃ checkpoint, branch.latestCandidate? = some checkpoint := by
  rw [Branch.latestCandidate?_eq_maxKey?]
  exact Option.isSome_iff_exists.mp (Std.ExtTreeMap.isSome_maxKey?_iff_ne_empty.mpr
    ((steered.branch found).pending isOpen).1)

theorem Forwards.replay_treats (forwards : engine.Forwards genuine executions)
    {execution : Execution} (follows : engine.trace[engine.position]? = some execution.address) :
    engine.replay execution = ⟨engine.advanced, .proceed execution.writes⟩ ∨
      engine.Treats (engine.replay execution) := by
  by_cases waits : ∃ branch, engine.branches[engine.position + 1]? = some branch ∧ branch.isOpen
  · obtain ⟨branch, found, isOpen⟩ := waits
    obtain ⟨checkpoint, latest⟩ := forwards.steered.exists_latest found isOpen
    have key := forwards.steered.keyed _ _ found
    rw [replay_open forwards.idle follows found isOpen]
    refine Or.inr (beginResolution_treats ?_ ?_ (branches_advanced engine) forwards.idle found key
      isOpen latest)
    · rw [advanced_eq]
      rfl
    · rw [advanced_eq]
  · exact Or.inl (replay_closed forwards.idle follows fun branch found isOpen =>
      waits ⟨branch, found, isOpen⟩)

theorem Attempting.replay_treats (attempting : engine.Attempting genuine executions resolution)
    (execution : Execution) :
    engine.replay execution =
        ⟨{ engine with position := engine.position + 1 }, .proceed execution.writes⟩ ∨
      engine.Treats (engine.replay execution) := by
  obtain ⟨branch, found, isOpen, _⟩ := attempting.attempts.branch
  have keyed := attempting.attempts.steered.keyed
  have active := attempting.active
  have moved := Credits.moved active (engine.position + 1)
  rw [replay_active active]
  split
  · split
    · exact Or.inr (moved.retry_treats found (keyed _ _ found) isOpen)
    · exact Or.inr (moved.acceptFlip_treats found (keyed _ _ found) isOpen)
  · rename_i elsewhere
    split
    · exact Or.inl rfl
    · have credits := moved.trans (creditDivergence_credits keyed active elsewhere)
      exact Or.inr (credits.retry_treats found (keyed _ _ found) isOpen)

theorem Attempting.replayExit_treats (attempting : engine.Attempting genuine executions resolution) :
    engine.Treats engine.replayExit := by
  obtain ⟨branch, found, isOpen, _⟩ := attempting.attempts.branch
  have keyed := attempting.attempts.steered.keyed
  simp only [Engine.replayExit, attempting.active, Option.isSome_some, if_true]
  exact (Credits.moved attempting.active engine.position).retry_treats found (keyed _ _ found) isOpen

structure Surveys (engine base : Engine) : Prop where
  selects : ∃ surveyed, engine.surveyAll = .ok surveyed ∧ base.branches = surveyed.branches
  frame : base = { engine with
    phase := .rollbacking
    tracedLength := base.tracedLength
    branches := base.branches
    seenOutcomes := base.seenOutcomes
    log := base.log }

theorem surveyAll_measured (engine : Engine) (tracedLength : Nat) (log : Array LogEntry) :
    ({ engine with tracedLength := tracedLength, log := log } : Engine).surveyAll =
      engine.surveyAll.map fun surveyed =>
        { surveyed with tracedLength := tracedLength, log := log } := by
  unfold surveyAll
  cases engine.graph.attribution engine.branches with
  | error fault => rfl
  | ok attributed =>
      have same : ({ engine with tracedLength := tracedLength, log := log } : Engine).survey
          engine.checkpoints.toList = engine.survey engine.checkpoints.toList := rfl
      simp only [same]
      cases attributed.inTraceOrder.mapM (engine.survey engine.checkpoints.toList) <;> rfl

theorem Tainting.endTainting_treats (tainting : engine.Tainting executions)
    (idle : engine.active = none) (log : Array LogEntry) :
    ∃ base, engine.Surveys base ∧
      base.Treats ({ engine with log := log } : Engine).endTainting := by
  obtain ⟨branches, outcomes, selects, retold⟩ := tainting.surveyAll
  have surveyed := surveyAll_measured engine
    (Position.stepsSince engine.position engine.basePosition) log
  rw [selects] at surveyed
  simp only [Except.map] at surveyed
  have keyed : Flow.Branches.Keyed branches := by
    intro position branch found
    obtain ⟨_, _, _, steerable⟩ := retold.origin found
    exact steerable.observed.key
  have surveys : ∀ messages : Array LogEntry, engine.Surveys { engine with
      branches := branches
      seenOutcomes := outcomes
      tracedLength := Position.stepsSince engine.position engine.basePosition
      log := messages
      phase := .rollbacking } := fun _ => ⟨⟨_, selects, rfl⟩, rfl⟩
  let measured : Engine := { engine with
    tracedLength := Position.stepsSince engine.position engine.basePosition
    log := log
    branches := branches
    seenOutcomes := outcomes }
  refine ⟨{ measured.note (.debug measured.recordingSummary "Tainting") with
    phase := .rollbacking }, surveys _, ?_⟩
  simp only [Engine.endTainting, surveyed]
  split
  · rename_i position first
    simp only [nextOpen?, Option.map_eq_some_iff] at first
    obtain ⟨branch, found, rfl⟩ := first
    obtain ⟨known, isOpen, _⟩ := keyed.find?_eq_some found
    obtain ⟨_, _, _, steerable⟩ := retold.origin known
    obtain ⟨checkpoint, latest⟩ := Option.isSome_iff_exists.mp
      (Std.ExtTreeMap.isSome_maxKey?_iff_ne_empty.mpr (steerable.pending isOpen).1)
    rw [← Branch.latestCandidate?_eq_maxKey?] at latest
    exact beginResolution_treats rfl rfl rfl idle known rfl isOpen latest
  · exact .passes idle

end Engine

end BranchSteer
