import BranchSteer.Proofs.Chronicle
import BranchSteer.Proofs.Standing

/-!
The order in which branches are resolved. The active branch is always the first that is pending, and it is
attempted at the latest checkpoint that is left to it; without an active branch all pending ones lie ahead.
So no pending branch is ever left behind, and the branches of a phase are begun in trace order.
-/

namespace BranchSteer

def Activation.Precedes (earlier later : Activation) : Prop :=
  earlier.phase = later.phase → earlier.position < later.position

namespace Engine

/-- The active branch is the first that is pending, and the process runs between the checkpoint that it is
attempted at and the branch. -/
structure Resolves (engine : Engine) (resolution : Resolution) : Prop where
  pending : ∃ branch, engine.branches[resolution.branch]? = some branch ∧ branch.isOpen ∧
    branch.position = resolution.branch ∧ branch.latestCandidate? = some resolution.checkpoint
  first : ∀ (position : Nat) (branch : Branch), engine.branches[position]? = some branch →
    branch.isOpen → resolution.branch ≤ position
  target : ∃ checkpoint, engine.checkpoints[resolution.checkpoint]? = some checkpoint ∧
    checkpoint.armed ∧ checkpoint.position ≤ resolution.branch ∧
    checkpoint.position ≤ engine.position + 1
  upTo : engine.position ≤ resolution.branch

/-- Some branch is pending, and all that are lie behind the position of the process. -/
structure Awaits (engine : Engine) : Prop where
  pending : ∃ (position : Nat) (branch : Branch), engine.branches[position]? = some branch ∧
    branch.isOpen
  ahead : ∀ (position : Nat) (branch : Branch), engine.branches[position]? = some branch →
    branch.isOpen → engine.position < position

structure Ordered (engine : Engine) (activations : List Activation) : Prop where
  pairwise : activations.Pairwise Activation.Precedes
  past : ∀ activation ∈ activations, activation.phase ≤ engine.phaseNumber
  fresh : engine.phase = .capturing ∨ engine.phase = .tainting →
    ∀ activation ∈ activations, activation.phase ≠ engine.phaseNumber
  behind : engine.phase = .rollbacking → ∀ activation ∈ activations,
    activation.phase = engine.phaseNumber → ∀ (position : Nat) (branch : Branch),
      engine.branches[position]? = some branch → branch.isOpen → activation.position < position ∨
        activation.position = position ∧ engine.active.map (·.branch) = some position

variable {engine base middle after : Engine} {executions later : List Execution}
  {decision : Decision} {action : Action} {resolution : Resolution}
  {activations : List Activation}

theorem Attempting.resolves (attempting : engine.Attempting anyFlip executions resolution) :
    engine.Resolves resolution := by
  have attempts := attempting.attempts
  obtain ⟨branch, found, isOpen, latest⟩ := attempts.branch
  obtain ⟨point, there, bound⟩ := attempts.target
  obtain ⟨checkpoint, known, same⟩ := exists_checkpoint there
  have position : checkpoint.position = point.position := congrArg Point.position same
  refine ⟨⟨branch, found, isOpen, attempts.steered.keyed _ _ found, latest⟩,
    fun _ _ other openOther => attempts.first other openOther,
    ⟨checkpoint, known, attempts.armed _ _ (Nat.le_refl _) known, ?_, ?_⟩, attempting.before⟩
  · exact position ▸ bound
  · exact position ▸ attempting.reached there

theorem Forwards.awaits (forwards : engine.Forwards anyFlip executions) : engine.Awaits :=
  ⟨forwards.pending, fun _ _ found isOpen => forwards.ahead found isOpen⟩

theorem Stands.cases_rollbacking (stands : engine.Stands executions)
    (rollbacking : engine.phase = .rollbacking) :
    (engine.active = none ∧ engine.Awaits) ∨
      ∃ resolution, engine.active = some resolution ∧ engine.Resolves resolution := by
  cases stands with
  | waiting phase position trace checkpoints branches archive idle => simp [phase] at rollbacking
  | tainting _ tainting supported idle => simp [tainting.phase] at rollbacking
  | forwarding _ forwards => exact Or.inl ⟨forwards.idle, forwards.awaits⟩
  | attempting _ resolution attempting =>
      exact Or.inr ⟨resolution, attempting.active, attempting.resolves⟩
  | finished _ phase idle => simp [phase] at rollbacking

theorem Ordered.from_base (ordered : engine.Ordered activations)
    (bases : engine.Bases executions base) : base.Ordered activations := by
  have phaseNumber := bases.phaseNumber
  have phase := bases.phase
  refine ⟨ordered.pairwise, phaseNumber ▸ ordered.past, fun idle => by simp [phase] at idle,
    fun _ activation member current => ?_⟩
  cases bases with
  | underway rollbacking => exact ordered.behind rollbacking activation member current
  | surveyed _ tainting idle surveys =>
      exact absurd (current.trans phaseNumber)
        (ordered.fresh (Or.inr tainting.phase) activation member)

theorem Ordered.of_same (ordered : engine.Ordered activations) (phase : after.phase = engine.phase)
    (phaseNumber : after.phaseNumber = engine.phaseNumber)
    (behind : engine.phase = .rollbacking →
      after.branches = engine.branches ∧ after.active = engine.active) :
    after.Ordered activations := by
  refine ⟨ordered.pairwise, phaseNumber ▸ ordered.past, phase ▸ phaseNumber ▸ ordered.fresh,
    fun rollbacking => ?_⟩
  obtain ⟨branches, active⟩ := behind (phase ▸ rollbacking)
  rw [phaseNumber, branches, active]
  exact ordered.behind (phase ▸ rollbacking)

theorem Ordered.restarted (ordered : engine.Ordered activations) (tainting : after.phase = .tainting)
    (above : engine.phaseNumber < after.phaseNumber) : after.Ordered activations := by
  refine ⟨ordered.pairwise, fun activation member => ?_, fun _ activation member => ?_,
    fun rollbacking => by simp [tainting] at rollbacking⟩
  · exact Nat.le_of_lt (Nat.lt_of_le_of_lt (ordered.past activation member) above)
  · exact Nat.ne_of_lt (Nat.lt_of_le_of_lt (ordered.past activation member) above)

theorem Picks.cases_activation {old record : Branch} (picks : base.Picks old record resolution)
    (bases : engine.Bases executions base) (middle : Engine) :
    (∀ effect, activation? engine ⟨middle, .attempt resolution⟩ effect = none) ∧
      base.active.map (·.branch) = some resolution.branch ∨
    (∀ effect, activation? engine ⟨middle, .attempt resolution⟩ effect =
      some ⟨base.phaseNumber, resolution.branch⟩) ∧ base.active = none ∧ old.isOpen := by
  have active := bases.active
  have phaseNumber := bases.phaseNumber
  cases picks with
  | first checkpoint idle isOpen latest =>
      refine Or.inr ⟨fun effect => ?_, idle, isOpen⟩
      simp [activation?, ← active, idle, phaseNumber]
  | again _ known left =>
      refine Or.inl ⟨fun effect => ?_, by simp [known]⟩
      simp [activation?, ← active, known]
  | next before checkpoint known exhausted latest =>
      have same : (base.prepare (old.withoutCandidate before.checkpoint)
          (movedResolution old before checkpoint)).2.branch = before.branch := rfl
      refine Or.inl ⟨fun effect => ?_, by simp [known, same]⟩
      simp [activation?, ← active, known, same]

theorem Ordered.concat (ordered : engine.Ordered activations)
    (rollbacking : engine.phase = .rollbacking) (idle : engine.active = none) {position : Nat}
    {branch : Branch} (found : engine.branches[position]? = some branch) (isOpen : branch.isOpen) :
    (activations ++ [Activation.mk engine.phaseNumber position]).Pairwise Activation.Precedes := by
  refine List.pairwise_append.mpr ⟨ordered.pairwise, List.pairwise_singleton _ _, ?_⟩
  intro earlier member later last
  obtain rfl := List.mem_singleton.mp last
  intro same
  rcases ordered.behind rollbacking earlier member same position branch found isOpen with
    inFront | ⟨_, active⟩
  · exact inFront
  · simp [idle] at active

theorem concludePhase_no_attempt (engine : Engine) (resolution : Resolution) :
    engine.concludePhase.order ≠ .attempt resolution := by
  have concludes := concludePhase_concludes engine
  generalize engine.concludePhase = decision at concludes
  cases concludes <;> simp

theorem activation?_of_order (engine : Engine) (effect : Effect)
    (other : ∀ resolution, decision.order ≠ .attempt resolution) :
    activation? engine decision effect = none := by
  unfold activation?
  split
  · rename_i resolution order
    exact absurd order (other resolution)
  · rfl

theorem Ordered.treats (ordered : base.Ordered activations) (bases : engine.Bases executions base)
    (treats : base.Treats decision) (effect : Effect) :
    (activations ++ (activation? engine decision effect).toList).Pairwise Activation.Precedes ∧
    ∀ activation ∈ activations ++ (activation? engine decision effect).toList,
      activation.phase ≤ base.phaseNumber := by
  have nothing : activation? engine decision effect = none →
      (activations ++ (activation? engine decision effect).toList).Pairwise Activation.Precedes ∧
      ∀ activation ∈ activations ++ (activation? engine decision effect).toList,
        activation.phase ≤ base.phaseNumber := by
    intro none
    simpa [none] using ⟨ordered.pairwise, ordered.past⟩
  cases treats with
  | attempts middle frames resolution old record found picks told =>
      rcases picks.cases_activation bases middle with ⟨none, _⟩ | ⟨activates, idle, isOpen⟩
      · exact nothing (none effect)
      · rw [activates, Option.toList_some]
        refine ⟨ordered.concat bases.phase idle found isOpen, fun activation member => ?_⟩
        rcases List.mem_append.mp member with old | last
        · exact ordered.past activation old
        · rw [List.mem_singleton.mp last]
  | restores middle frames idle resolution active told =>
      exact nothing (activation?_of_order engine effect (by simp))
  | concludes middle frames resolution active told =>
      exact nothing (activation?_of_order engine effect (concludePhase_no_attempt middle))
  | passes idle => exact nothing (activation?_of_order engine effect (concludePhase_no_attempt base))

theorem Ordered.attempts (ordered : base.Ordered activations)
    (bases : engine.Bases executions base) (frames : base.Frames middle) {old record : Branch}
    (found : base.branches[resolution.branch]? = some old)
    (picks : base.Picks old record resolution)
    (told : Flow.Branches.Retold (Branch.Only (fun _ new => new = record) resolution.branch)
      base.branches middle.branches) (rollsBack : middle.RollsBack after) {input : List UInt8}
    (attempting : after.Attempting anyFlip executions
      { spent resolution with attemptedInput := input }) (effect : Effect) :
    after.Ordered
      (activations ++ (activation? engine ⟨middle, .attempt resolution⟩ effect).toList) := by
  have frame := frames.rollsBack rollsBack
  have phaseNumber : after.phaseNumber = base.phaseNumber := (congrArg Engine.phaseNumber frame :)
  have branches : after.branches = middle.branches := (congrArg Engine.branches frame :)
  obtain ⟨pairwise, past⟩ := ordered.treats bases
    (.attempts middle frames resolution old record found picks told) effect
  have rollbacking := attempting.attempts.steered.phase
  refine ⟨pairwise, phaseNumber ▸ past, fun early => by simp [rollbacking] at early, ?_⟩
  intro _ activation member current position branch here isOpen
  have active : after.active.map (·.branch) = some resolution.branch := by
    rw [attempting.active]
    rfl
  have wasOpen : ∃ before, base.branches[position]? = some before ∧ before.isOpen := by
    rw [branches] at here
    obtain ⟨before, known, ⟨rfl, rfl⟩ | ⟨_, spared⟩⟩ := told.cases_only here
    · exact ⟨old, found, picks.isOpen ▸ isOpen⟩
    · exact ⟨before, known, spared.isOpen isOpen⟩
  obtain ⟨before, known, open_⟩ := wasOpen
  have first : resolution.branch ≤ position := attempting.attempts.first here isOpen
  rw [active]
  rcases picks.cases_activation bases middle with ⟨none, activeBefore⟩ | ⟨activates, idle, _⟩
  · rw [none effect, Option.toList_none, List.append_nil] at member
    rw [← activeBefore]
    exact ordered.behind bases.phase activation member (current.trans phaseNumber) position before
      known open_
  · rw [activates effect, Option.toList_some, List.mem_append, List.mem_singleton] at member
    rcases member with earlier | rfl
    · rcases ordered.behind bases.phase activation earlier (current.trans phaseNumber) position
        before known open_ with inFront | ⟨_, activeBefore⟩
      · exact Or.inl inFront
      · simp [idle] at activeBefore
    · exact (Nat.lt_or_eq_of_le first).imp id fun same => ⟨same, congrArg some same⟩

theorem Ordered.restores (ordered : base.Ordered activations)
    (rollbacking : base.phase = .rollbacking) (frames : base.Frames middle)
    (active : base.active = some resolution)
    (told : Flow.Branches.Retold (Branch.Only (base.Shuts resolution) resolution.branch)
      base.branches middle.branches) (rollsBack : middle.RollsBack after)
    (forwards : after.Forwards anyFlip executions) : after.Ordered activations := by
  have frame := frames.rollsBack rollsBack
  have phaseNumber : after.phaseNumber = base.phaseNumber := (congrArg Engine.phaseNumber frame :)
  have branches : after.branches = middle.branches := (congrArg Engine.branches frame :)
  have phase := forwards.steered.phase
  refine ⟨ordered.pairwise, phaseNumber ▸ ordered.past, fun early => by simp [phase] at early, ?_⟩
  intro _ activation member current position branch here isOpen
  rw [branches] at here
  obtain ⟨before, known, ⟨_, shuts⟩ | ⟨elsewhere, spared⟩⟩ := told.cases_only here
  · exact absurd isOpen shuts.closed
  · rcases ordered.behind rollbacking activation member (current.trans phaseNumber) position before
      known (spared.isOpen isOpen) with inFront | ⟨_, activeBefore⟩
    · exact Or.inl inFront
    · simp only [active, Option.map_some, Option.some.injEq] at activeBefore
      exact absurd activeBefore.symm elsewhere

theorem Ordered.passes (ordered : engine.Ordered activations)
    (passes : engine.Passes executions decision action after later) (effect : Effect) :
    after.Ordered (activations ++ (activation? engine decision effect).toList) := by
  have unchanged : (∀ resolution, decision.order ≠ .attempt resolution) →
      after.Ordered activations →
        after.Ordered (activations ++ (activation? engine decision effect).toList) := by
    intro other orderedToo
    rwa [activation?_of_order engine effect other, Option.toList_none, List.append_nil]
  cases passes with
  | rests idle order harmless _ =>
      exact unchanged (by rcases harmless with rfl | rfl <;> simp) ordered
  | records tainting idle instruction execution processor _ taintingToo supported frame =>
      have phaseNumber : after.phaseNumber = engine.phaseNumber :=
        (congrArg Engine.phaseNumber frame :)
      have phase : after.phase = engine.phase := (congrArg Engine.phase frame :)
      exact unchanged (by simp) (ordered.of_same phase phaseNumber fun rollbacking => by
        simp [tainting.phase] at rollbacking)
  | follows rollbacking near _ writes stands frame =>
      exact unchanged (by simp) (ordered.of_same (congrArg Engine.phase frame :)
        (congrArg Engine.phaseNumber frame :) fun _ =>
          ⟨(congrArg Engine.branches frame :), (congrArg Engine.active frame :)⟩)
  | attempts base bases middle frames resolution old record found picks told processor input _
      rollsBack attempting =>
      exact (ordered.from_base bases).attempts bases frames found picks told rollsBack attempting _
  | restores base bases middle frames resolution active told processor _ rollsBack forwards =>
      exact unchanged (by simp) ((ordered.from_base bases).restores bases.phase frames active told
        rollsBack forwards)
  | finishes base bases _ treats middle leaves _ files phase idle phaseNumber rollbacks =>
      obtain ⟨pairwise, past⟩ := (ordered.from_base bases).treats bases treats effect
      have same := phaseNumber.trans leaves.frames.phaseNumber
      refine ⟨pairwise, same ▸ past, fun early => by simp [phase] at early,
        fun rollbacking => by simp [phase] at rollbacking⟩
  | restarts base bases middle leaves seeking rollbacking seed processor _ files tainting supported
      idle phaseNumber rollbacks =>
      have same := leaves.frames.phaseNumber.trans bases.phaseNumber
      exact unchanged (by simp) (ordered.restarted tainting.phase (by omega))

theorem Ordered.receiveInput (ordered : engine.Ordered activations)
    (stands : engine.Stands executions) {memory : Memory} {buffer : InputBuffer}
    (done : engine.receiveInput memory buffer = .ok after) : after.Ordered activations := by
  obtain ⟨capturing, _, _, tainting, frame⟩ := stands.receiveInput done
  have phaseNumber : after.phaseNumber = engine.phaseNumber := (congrArg Engine.phaseNumber frame :)
  exact ⟨ordered.pairwise, phaseNumber ▸ ordered.past,
    fun _ => phaseNumber ▸ ordered.fresh (Or.inl capturing),
    fun rollbacking => by simp [tainting] at rollbacking⟩

theorem ordered_initial (config : Config) (random : Random) : (initial config random).Ordered [] :=
  ⟨.nil, by simp, by simp, by simp⟩

/-- Behind any calls none of which fails or clears a phase, the active branch is the first of those that
are pending, or all of them lie ahead. Within a phase, branches are activated in trace order. -/
theorem resolves_inTraceOrder {config : Config} {random : Random} {calls : List Call}
    (keeps : ∀ call ∈ calls, call.request ≠ .clear)
    (reached : (initial config random).afterCalls calls = some engine) :
    (engine.phase = .rollbacking →
      (∀ resolution, engine.active = some resolution → engine.Resolves resolution) ∧
      (engine.active = none → engine.Awaits)) ∧
    ((initial config random).gather activation? calls).Pairwise Activation.Precedes := by
  have both : (∃ executions, engine.Stands executions) ∧
      engine.Ordered ((initial config random).gather activation? calls) := by
    refine afterCalls_chronicle (fun calls engine => (∃ executions, engine.Stands executions) ∧
      engine.Ordered ((initial config random).gather activation? calls))
      ⟨⟨[], stands_initial config random⟩, ordered_initial config random⟩ ?_ keeps reached
    rintro calls middle after call reached ⟨⟨executions, stands⟩, ordered⟩ keeps done
    rw [gather_concat reached]
    rcases stands.cases_afterCall keeps done with ⟨undecided, buffer, received⟩ |
      ⟨decision, action, changed, later, decides, answered, passes⟩
    · rw [shown_of_undecided undecided, Option.toList_none, List.append_nil]
      exact ⟨⟨[], (stands.receiveInput received).2.2.1⟩, ordered.receiveInput stands received⟩
    · rw [shown_of_decision decides answered]
      exact ⟨⟨later, passes.stands stands⟩, ordered.passes passes _⟩
  obtain ⟨⟨executions, stands⟩, ordered⟩ := both
  refine ⟨fun rollbacking => ?_, ordered.pairwise⟩
  rcases stands.cases_rollbacking rollbacking with ⟨idle, awaits⟩ | ⟨resolution, active, resolves⟩
  · exact ⟨by simp [idle], fun _ => awaits⟩
  · refine ⟨fun other same => ?_, by simp [active]⟩
    rw [active, Option.some.injEq] at same
    exact same ▸ resolves

def branchOn (address : Nat) (access : MemoryRange) (taken : Bool) : List Call := [
  .blank (.instruction
    (((Instruction.plain address "cmp").writing [flagsName]).accessingMemory true false)
    { Execution.plain address with reads := [access] }),
  .blank (.instruction
    (((Instruction.plain (address + 4) "je").reading [flagsName]).branching 200 (address + 8))
    { Execution.plain (address + 4) with taken := some taken })]

def flippingFirst : List Call :=
  [.blank (.input ⟨16, 4⟩)] ++ branchOn 100 ⟨16, 2⟩ false ++ branchOn 108 ⟨18, 2⟩ false ++
    [.blank (.instruction (.plain 116 "nop") (.plain 116)), .blank .exit] ++
    branchOn 100 ⟨16, 2⟩ true ++ [.blank (.instruction (.plain 200 "nop") (.plain 200))]

/-- The trace is then followed up to the second one. -/
def reachingSecond : List Call :=
  flippingFirst ++ branchOn 100 ⟨16, 2⟩ false ++ branchOn 108 ⟨18, 2⟩ false

theorem resolves_inTraceOrder_twoBranches :
    (∃ engine, (initial .default (.ofSeed 7)).afterCalls flippingFirst = some engine ∧
      engine.position = 0 ∧ engine.active = none ∧ engine.Awaits) ∧
    ∃ engine resolution, (initial .default (.ofSeed 7)).afterCalls reachingSecond = some engine ∧
      engine.active = some resolution ∧ resolution.branch = 4 ∧ engine.Resolves resolution ∧
      ((initial .default (.ofSeed 7)).gather activation? reachingSecond).map (·.position) = [2, 4] ∧
      ((initial .default (.ofSeed 7)).gather activation? reachingSecond).Pairwise
        Activation.Precedes := by
  have keeps : ∀ call ∈ reachingSecond, call.request ≠ .clear := by
    simp [reachingSecond, flippingFirst, branchOn, Call.blank]
  constructor
  · obtain ⟨engine, reached, facts⟩ := (Option.any_eq_true _ _).mp
      (show ((initial .default (.ofSeed 7)).afterCalls flippingFirst).any (fun engine =>
        Decidable.decide (engine.phase = .rollbacking ∧ engine.position = 0) &&
          engine.active.isNone) = true by decide +kernel)
    simp only [Bool.and_eq_true, decide_eq_true_eq, Option.isNone_iff_eq_none] at facts
    obtain ⟨⟨rollbacking, position⟩, idle⟩ := facts
    have resolves := resolves_inTraceOrder
      (fun call member => keeps call (List.mem_append_left _ (List.mem_append_left _ member))) reached
    exact ⟨engine, reached, position, idle, (resolves.1 rollbacking).2 idle⟩
  · obtain ⟨engine, reached, facts⟩ := (Option.any_eq_true _ _).mp
      (show ((initial .default (.ofSeed 7)).afterCalls reachingSecond).any (fun engine =>
        Decidable.decide (engine.phase = .rollbacking) &&
          engine.active.any fun resolution => resolution.branch = 4) = true by decide +kernel)
    simp only [Bool.and_eq_true, decide_eq_true_eq] at facts
    obtain ⟨rollbacking, current⟩ := facts
    obtain ⟨resolution, active, second⟩ := (Option.any_eq_true _ _).mp current
    have resolves := resolves_inTraceOrder keeps reached
    exact ⟨engine, resolution, reached, active, of_decide_eq_true second,
      (resolves.1 rollbacking).1 resolution active, by decide +kernel, resolves.2⟩

end Engine

end BranchSteer
