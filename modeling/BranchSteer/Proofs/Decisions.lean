import BranchSteer.Proofs.Judgements
import BranchSteer.Proofs.Situations

/-!
What a decision of the engine changes. The phase that is under way is judged anew: some of its records may
be resolved or given up, but none is added, dropped or marked as explored. A phase is concluded only when
no branch is left to flip.
-/

namespace BranchSteer

structure Branch.Rejudged (old new : Branch) : Prop where
  phase : new.phase = old.phase
  address : new.address = old.address
  position : new.position = old.position
  taken : new.taken = old.taken
  explored : new.explored = old.explored
  depends : old.dependsOnInput → new.dependsOnInput
  bypassed : new.isBypassed → old.isBypassed ∨ new.dependsOnInput
  flips : new.isResolved →
    old.isResolved ∧ new.flippingInput = old.flippingInput ∨ new.flippingInput.isSome

namespace Branch

theorem Rejudged.refl (branch : Branch) : branch.Rejudged branch :=
  ⟨rfl, rfl, rfl, rfl, rfl, id, Or.inl, fun resolved => Or.inl ⟨resolved, rfl⟩⟩

theorem Rejudged.trans {old middle new : Branch} (one : old.Rejudged middle)
    (two : middle.Rejudged new) : old.Rejudged new := by
  refine ⟨two.phase.trans one.phase, two.address.trans one.address,
    two.position.trans one.position, two.taken.trans one.taken, two.explored.trans one.explored,
    fun depends => two.depends (one.depends depends), fun bypassed => ?_, fun resolved => ?_⟩
  · rcases two.bypassed bypassed with earlier | depends
    · exact (one.bypassed earlier).imp id two.depends
    · exact Or.inr depends
  · rcases two.flips resolved with ⟨earlier, same⟩ | known
    · rw [same]
      exact one.flips earlier
    · exact Or.inr known

theorem rejudged_withoutCandidate (branch : Branch) (checkpoint : Nat) :
    branch.Rejudged (branch.withoutCandidate checkpoint) :=
  ⟨rfl, rfl, rfl, rfl, rfl, id, Or.inl, fun resolved => Or.inl ⟨resolved, rfl⟩⟩

theorem rejudged_bypass {branch : Branch} (depends : branch.dependsOnInput) :
    branch.Rejudged branch.bypass := by
  unfold bypass
  split
  · exact .refl branch
  · exact ⟨rfl, rfl, rfl, rfl, rfl, id, fun _ => Or.inr depends,
      fun resolved => Or.inl ⟨resolved, rfl⟩⟩

theorem rejudged_resolve (branch : Branch) (input : List UInt8) :
    branch.Rejudged (branch.resolve input) := by
  unfold resolve
  split
  · exact .refl branch
  · unfold remember
    cases taken : branch.taken with
    | false =>
        exact ⟨rfl, rfl, rfl, taken.symm, rfl, id, Or.inl, fun _ =>
          Or.inr (by simp [flippingInput, inputLeadingTo])⟩
    | true =>
        exact ⟨rfl, rfl, rfl, taken.symm, rfl, id, Or.inl, fun _ =>
          Or.inr (by simp [flippingInput, inputLeadingTo])⟩

end Branch

namespace Outcomes

theorem contains_insert (outcomes : Outcomes) (address other : Nat) (taken outcome : Bool) :
    (outcomes.insert address taken).contains other outcome ↔
      address = other ∧ taken = outcome ∨ outcomes.contains other outcome := by
  cases taken <;> cases outcome <;>
    simp [insert, contains, Std.ExtTreeSet.contains_insert]

theorem contains_foldl (records : List Branch) (outcomes : Outcomes) (address : Nat)
    (taken : Bool) :
    (records.foldl (fun outcomes branch => outcomes.insert branch.address branch.taken)
        outcomes).contains address taken ↔
      outcomes.contains address taken ∨
        ∃ branch ∈ records, branch.address = address ∧ branch.taken = taken := by
  induction records generalizing outcomes with
  | nil => simp
  | cons branch rest ih =>
      rw [List.foldl_cons, ih, contains_insert]
      simp only [List.mem_cons, exists_eq_or_imp]
      rw [← or_assoc, or_comm (a := outcomes.contains address taken = true)]

end Outcomes

namespace Engine

/-- The engine behind a decision of a phase, up to what is then done to the process. -/
structure Revises (engine after : Engine) : Prop where
  phase : after.phase = .rollbacking
  frame : after = { engine with
    phase := after.phase
    tracedLength := after.tracedLength
    position := after.position
    checkpoints := after.checkpoints
    branches := after.branches
    active := after.active
    seenOutcomes := after.seenOutcomes
    random := after.random
    log := after.log }
  branches : Flow.Branches.Retold (fun _ => Branch.Rejudged) engine.branches after.branches
  seen : ∀ (address : Nat) (taken : Bool), after.seenOutcomes.contains address taken ↔
    engine.seenOutcomes.contains address taken ∨ engine.phase = .tainting ∧
      ∃ branch ∈ engine.branches.inTraceOrder, branch.address = address ∧ branch.taken = taken

variable {engine middle after : Engine} {genuine : Finding → List UInt8 → Prop}
  {executions : List Execution} {decision : Decision}

theorem Revises.config (revises : engine.Revises after) : after.config = engine.config :=
  (congrArg Engine.config revises.frame :)

theorem Revises.archive (revises : engine.Revises after) : after.archive = engine.archive :=
  (congrArg Engine.archive revises.frame :)

theorem Revises.phaseNumber (revises : engine.Revises after) :
    after.phaseNumber = engine.phaseNumber :=
  (congrArg Engine.phaseNumber revises.frame :)

theorem Revises.of_retold (rollbacking : engine.phase = .rollbacking)
    (frame : after = { engine with
      position := after.position
      checkpoints := after.checkpoints
      branches := after.branches
      active := after.active
      random := after.random
      log := after.log })
    (branches : Flow.Branches.Retold (fun _ => Branch.Rejudged) engine.branches after.branches) :
    engine.Revises after := by
  have phase : after.phase = engine.phase := (congrArg Engine.phase frame :)
  have tracedLength : after.tracedLength = engine.tracedLength :=
    (congrArg Engine.tracedLength frame :)
  have seen : after.seenOutcomes = engine.seenOutcomes := (congrArg Engine.seenOutcomes frame :)
  refine ⟨phase.trans rollbacking, ?_, branches, fun address taken => ?_⟩
  · rw [phase, tracedLength, seen]
    exact frame
  · simp [seen, rollbacking]

theorem Revises.of_branches (rollbacking : engine.phase = .rollbacking)
    (frame : after = { engine with
      position := after.position
      checkpoints := after.checkpoints
      active := after.active
      random := after.random
      log := after.log }) : engine.Revises after := by
  have branches : after.branches = engine.branches := (congrArg Engine.branches frame :)
  refine .of_retold rollbacking ?_ ?_
  · rw [branches]
    exact frame
  · rw [branches]
    exact .refl (fun _ => Branch.Rejudged.refl) _

theorem Revises.trans (one : engine.Revises middle) (two : middle.Revises after) :
    engine.Revises after := by
  refine ⟨two.phase, ?_, one.branches.trans (fun first second => first.trans second) two.branches,
    fun address taken => ?_⟩
  · refine two.frame.trans ?_
    rw [one.frame]
  · rw [two.seen, one.seen, one.phase]
    simp

theorem revises_setBranch (rollbacking : engine.phase = .rollbacking) {old branch : Branch}
    (found : engine.branches[old.position]? = some old) (rejudged : old.Rejudged branch)
    (noted : Branch) (text : String) :
    engine.Revises ((engine.setBranch branch).noteBranch noted text) := by
  rw [← rejudged.position] at found
  exact .of_retold rollbacking rfl (.insert (fun _ => Branch.Rejudged.refl) found rejudged)

/-- What the rules of a phase lead to: an attempt, a way back to the trace, or the conclusion of the
phase, behind which no branch is left to flip. -/
inductive Rules (engine : Engine) : Decision → Prop
  | attempt (middle : Engine) (revises : engine.Revises middle) (resolution : Resolution) :
    Rules _ ⟨middle, .attempt resolution⟩
  | restore (middle : Engine) (revises : engine.Revises middle) (id : Nat) :
    Rules _ ⟨middle, .restore id⟩
  | conclude (middle : Engine) (revises : engine.Revises middle) (closed : middle.Closed) :
    Rules _ middle.concludePhase
  | fail (middle : Engine) (fault : Fault) : Rules _ ⟨middle, .fail fault⟩

theorem Rules.mono (rules : middle.Rules decision)
    (each : ∀ {after : Engine}, middle.Revises after → engine.Revises after) :
    engine.Rules decision := by
  cases rules with
  | attempt after revises resolution => exact .attempt after (each revises) resolution
  | restore after revises id => exact .restore after (each revises) id
  | conclude after revises closed => exact .conclude after (each revises) closed
  | fail after fault => exact .fail after fault

theorem Rules.of_revises (rules : middle.Rules decision) (revises : engine.Revises middle) :
    engine.Rules decision :=
  rules.mono revises.trans

theorem release_rules (rollbacking : engine.phase = .rollbacking) : engine.Rules engine.release := by
  unfold release
  split
  · exact .fail _ _
  · rename_i resolution active
    have revises : engine.Revises { engine with active := none } := .of_branches rollbacking rfl
    simp only
    split
    · exact .restore _ revises _
    · rename_i none
      exact .conclude _ revises (closed_of_not_hasOpen none)

theorem beginAt_rules (rollbacking : engine.phase = .rollbacking) (resolution : Resolution) :
    engine.Rules (engine.beginAt resolution) := by
  simp only [beginAt]
  split
  · exact .fail _ _
  · exact .attempt _ (.of_branches rollbacking rfl) _

theorem beginResolution_rules (rollbacking : engine.phase = .rollbacking) (position : Nat) :
    engine.Rules (engine.beginResolution position) := by
  simp only [beginResolution]
  split
  · exact .fail _ _
  · exact beginAt_rules rollbacking _

theorem Attempts.retry_rules {resolution : Resolution}
    (attempts : engine.Attempts genuine executions resolution)
    (active : engine.active = some resolution) : engine.Rules engine.retry := by
  obtain ⟨branch, found, isOpen, _⟩ := attempts.branch
  have rollbacking := attempts.steered.phase
  have key : branch.position = resolution.branch :=
    (attempts.steered.branch found).observed.key
  have depends : branch.dependsOnInput := by
    simp only [Branch.isOpen, Bool.and_eq_true] at isOpen
    exact isOpen.1
  have foundToo : engine.branches[branch.position]? = some branch := key ▸ found
  have dropped := branch.rejudged_withoutCandidate resolution.checkpoint
  simp only [retry, active]
  split
  · exact .attempt _ (.of_branches rollbacking rfl) _
  · simp only [found]
    split
    · have revises := revises_setBranch rollbacking foundToo dropped
      exact (beginAt_rules (revises _ _).phase _).of_revises (revises _ _)
    · have revises := revises_setBranch rollbacking foundToo
        (dropped.trans (Branch.rejudged_bypass depends))
      exact (release_rules (revises _ _).phase).of_revises (revises _ _)

theorem Attempts.acceptFlip_rules {resolution : Resolution}
    (attempts : engine.Attempts genuine executions resolution)
    (active : engine.active = some resolution) : engine.Rules engine.acceptFlip := by
  obtain ⟨branch, found, _⟩ := attempts.branch
  have key : branch.position = resolution.branch :=
    (attempts.steered.branch found).observed.key
  have foundToo : engine.branches[branch.position]? = some branch := key ▸ found
  have revises := revises_setBranch attempts.steered.phase foundToo
    (branch.rejudged_resolve resolution.attemptedInput)
  simp only [acceptFlip, active, found]
  exact (release_rules (revises _ _).phase).of_revises (revises _ _)

theorem creditDivergence_revises (rollbacking : engine.phase = .rollbacking)
    (keyed : Flow.Branches.Keyed engine.branches) (resolution : Resolution) :
    engine.Revises (engine.creditDivergence resolution) := by
  unfold creditDivergence
  split
  · rename_i branch found
    have foundToo : engine.branches[branch.position]? = some branch := by
      rw [keyed _ _ found]
      exact found
    split
    · exact revises_setBranch rollbacking foundToo
        (branch.rejudged_resolve resolution.attemptedInput) _ _
    · exact .of_branches rollbacking rfl
  · exact .of_branches rollbacking rfl

theorem Attempting.replay_rules {resolution : Resolution}
    (attempting : engine.Attempting anyFlip executions resolution) (execution : Execution) :
    engine.replay execution =
        ⟨{ engine with position := engine.position + 1 }, .proceed execution.writes⟩ ∨
      engine.Rules (engine.replay execution) := by
  obtain ⟨⟨⟨phase, describes, branch, supported⟩, target, first, armed, bytes⟩, active, reached,
    before, length⟩ := attempting
  have attempts : ({ engine with position := engine.position + 1 } : Engine).Attempts anyFlip
      executions resolution :=
    ⟨⟨phase, describes, branch, supported.archived, supported.current⟩, target, first, armed, bytes⟩
  have revises : engine.Revises { engine with position := engine.position + 1 } :=
    .of_branches phase rfl
  rw [replay_active active]
  split
  · split
    · exact Or.inr ((attempts.retry_rules active).of_revises revises)
    · exact Or.inr ((attempts.acceptFlip_rules active).of_revises revises)
  · rename_i elsewhere
    split
    · exact Or.inl rfl
    · obtain ⟨_, activeCredit, credited⟩ := attempts.creditDivergence length elsewhere
        fun _ _ => trivial
      have credits := @creditDivergence_revises { engine with position := engine.position + 1 }
        phase attempts.steered.keyed resolution
      exact Or.inr (((credited.retry_rules (activeCredit.trans active)).of_revises
        credits).of_revises revises)

theorem replay_idle_rules (rollbacking : engine.phase = .rollbacking) (idle : engine.active = none)
    (execution : Execution) :
    engine.replay execution = ⟨engine.advanced, .proceed execution.writes⟩ ∨
      engine.Rules (engine.replay execution) := by
  have revises : engine.Revises engine.advanced := by
    rw [advanced_eq]
    exact .of_branches rollbacking rfl
  by_cases follows : engine.trace[engine.position]? = some execution.address
  · by_cases waits : ∃ branch, engine.branches[engine.position + 1]? = some branch ∧ branch.isOpen
    · obtain ⟨branch, found, isOpen⟩ := waits
      rw [replay_open idle follows found isOpen]
      exact Or.inr ((beginResolution_rules revises.phase _).of_revises revises)
    · exact Or.inl (replay_closed idle follows fun branch found isOpen =>
        waits ⟨branch, found, isOpen⟩)
  · obtain ⟨after, fault, fails, _⟩ := replay_strays idle follows
    rw [fails]
    exact Or.inr (.fail after fault)

theorem survey_rejudged {checkpoints : List Checkpoint} {position : Nat}
    {old attributed new : Branch} {condition : Nat → Nat → Prop}
    (undecided : old.isUndecided) (independent : old.inputDependencies = ∅)
    (attributes : Flow.Attributes condition position old attributed)
    (done : engine.survey checkpoints attributed = .ok new) : old.Rejudged new := by
  have becomes := survey_surveyed done
  rw [Branch.isUndecided_iff] at undecided
  have shape : new = { old with
      isBypassed := new.isBypassed
      inputDependencies := attributed.inputDependencies
      otherDependencies := new.otherDependencies
      traces := attributed.traces
      candidates := new.candidates } := by
    refine becomes.kept.trans ?_
    rw [attributes.1]
  have unresolved : ¬ new.isResolved := by
    rw [shape]
    simp [undecided]
  refine ⟨(congrArg Branch.phase shape :), (congrArg Branch.address shape :),
    (congrArg Branch.position shape :), (congrArg Branch.taken shape :),
    (congrArg Branch.explored shape :), fun depends => ?_, fun bypassed => Or.inr ?_,
    fun resolved => absurd resolved unresolved⟩
  · simp [Branch.dependsOnInput, independent] at depends
  · -- The survey gives up no branch that does not depend on the input.
    have same : new.inputDependencies = attributed.inputDependencies :=
      (congrArg Branch.inputDependencies shape :)
    unfold survey at done
    split at done
    · rw [Except.ok.injEq] at done
      rw [← done, attributes.1] at bypassed
      simp [undecided] at bypassed
    · rename_i depends
      rw [Branch.dependsOnInput, same]
      simpa [Branch.dependsOnInput] using depends

theorem Tainting.surveyAll_revises (tainting : engine.Tainting executions)
    (done : engine.surveyAll = .ok after) (message : LogEntry) :
    engine.Revises { after.note message with phase := .rollbacking } := by
  obtain ⟨attributed, attribution, retold⟩ :=
    Flow.Graph.attribution_attributed tainting.follows engine.branches
  have keyed : Flow.Branches.Keyed attributed :=
    retold.keyed (fun position branch found => (tainting.branch found).1.key)
      fun attributes => by rw [attributes.1]
  obtain ⟨branches, outcomes, same, steerable⟩ := tainting.surveyAll
  rw [done, Except.ok.injEq] at same
  simp only [Engine.surveyAll, attribution] at done
  split at done
  · simp at done
  · rename_i surveyed all
    rw [Except.ok.injEq] at done
    subst done
    have origin : ∀ branch ∈ surveyed, ∃ old, engine.branches[branch.position]? = some old ∧
        old.Rejudged branch := by
      intro branch member
      obtain ⟨item, listed, surveys⟩ := exists_of_mem_forall₂ (forall₂_of_mapM_eq_ok all) member
      obtain ⟨old, known, attributes⟩ := retold.origin (keyed.getElem?_of_mem listed)
      obtain ⟨_, undecided, independent, _⟩ := tainting.branch known
      have rejudged := survey_rejudged undecided independent attributes surveys
      have place : old.position = item.position := (tainting.branch known).1.key
      exact ⟨old, by rw [rejudged.position, place]; exact known, rejudged⟩
    have kept : ∀ {position : Nat}, position ∈ engine.branches →
        position ∈ branchesOf surveyed := by
      intro position member
      have there := steerable.kept member
      rwa [show branches = branchesOf surveyed from (congrArg Engine.branches same :).symm] at there
    refine ⟨rfl, rfl, ⟨fun {position branch} found => ?_, kept⟩, fun address taken => ?_⟩
    · obtain ⟨member, rfl⟩ := Flow.Branches.mem_of_branchesOf found
      exact origin branch member
    · simp only [note, Outcomes.contains_foldl, tainting.phase, true_and]
      refine or_congr Iff.rfl ⟨?_, ?_⟩
      · rintro ⟨branch, member, rfl, rfl⟩
        obtain ⟨old, known, rejudged⟩ := origin branch member
        exact ⟨old, Flow.Branches.mem_of_getElem? known, rejudged.address.symm,
          rejudged.taken.symm⟩
      · rintro ⟨old, member, rfl, rfl⟩
        obtain ⟨position, known⟩ := Flow.Branches.exists_of_mem member
        have inside : position ∈ engine.branches :=
          Std.ExtTreeMap.mem_iff_isSome_getElem?.mpr (Option.isSome_of_eq_some known)
        have there := kept inside
        obtain ⟨branch, found⟩ := Option.isSome_iff_exists.mp
          (Std.ExtTreeMap.mem_iff_isSome_getElem?.mp there)
        obtain ⟨listed, rfl⟩ := Flow.Branches.mem_of_branchesOf found
        obtain ⟨other, knownToo, rejudged⟩ := origin branch listed
        rw [known, Option.some.injEq] at knownToo
        subst knownToo
        exact ⟨branch, listed, rejudged.address, rejudged.taken⟩

theorem Tainting.endTainting_rules (tainting : engine.Tainting executions) :
    engine.Rules engine.endTainting := by
  have measured : ({ engine with
      tracedLength := Position.stepsSince engine.position engine.basePosition } : Engine).Tainting
        executions :=
    ⟨tainting.phase, tainting.describes, tainting.position, tainting.armed, tainting.branch,
      tainting.follows, tainting.sameInput⟩
  simp only [Engine.endTainting]
  split
  · exact .fail _ _
  · rename_i surveyed done
    have revises : engine.Revises { surveyed.note (.debug surveyed.recordingSummary "Tainting") with
        phase := .rollbacking } := by
      obtain ⟨phase, frame, branches, seen⟩ := measured.surveyAll_revises done
        (.debug surveyed.recordingSummary "Tainting")
      exact ⟨phase, frame, branches, seen⟩
    split
    · exact (beginResolution_rules rfl _).of_revises revises
    · rename_i none
      refine .conclude _ revises fun position branch found isOpen => ?_
      simp only [nextOpen?, Option.map_eq_none_iff, List.find?_eq_none] at none
      exact none branch (Flow.Branches.mem_of_getElem? found) isOpen

theorem Tainting.taint_rules (tainting : engine.Tainting executions) (instruction : Instruction)
    (execution : Execution) (processor : Processor) :
    engine.taint instruction execution processor =
        ⟨engine.recordInstruction execution processor, .record instruction execution⟩ ∨
      engine.Rules (engine.taint instruction execution processor) := by
  have noted : ∀ message, engine.Rules (engine.note message).endTainting := by
    intro message
    have taintingToo : (engine.note message).Tainting executions :=
      ⟨tainting.phase, tainting.describes, tainting.position, tainting.armed, tainting.branch,
        tainting.follows, tainting.sameInput⟩
    exact taintingToo.endTainting_rules.mono fun revises =>
      ⟨revises.phase, revises.frame, revises.branches, revises.seen⟩
  unfold Engine.taint
  split
  · exact Or.inr (noted _)
  · split
    · exact Or.inr (noted _)
    · exact Or.inl rfl

inductive Decides (engine : Engine) : Decision → Prop
  | rest (idle : engine.phase = .capturing ∨ engine.phase = .finished) (order : Order)
    (harmless : order = .proceed [] ∨ order = .stop) : Decides _ ⟨engine, order⟩
  | record (tainting : engine.phase = .tainting) (instruction : Instruction)
    (execution : Execution) (processor : Processor) :
    Decides _ ⟨engine.recordInstruction execution processor, .record instruction execution⟩
  | follow (rollbacking : engine.phase = .rollbacking) (position : Nat)
    (checkpoints : Array Checkpoint) (writes : List MemoryRange) :
    Decides _ ⟨{ engine with position := position, checkpoints := checkpoints }, .proceed writes⟩
  | rule (active : engine.phase = .tainting ∨ engine.phase = .rollbacking) (decision : Decision)
    (rules : engine.Rules decision) : Decides _ decision

theorem Steered.decides_idle (steered : engine.Steered genuine executions)
    (idle : engine.active = none) (processor : Processor) (instruction : Instruction)
    (execution : Execution) :
    engine.Decides (engine.decide processor instruction execution) := by
  simp only [Engine.decide, steered.phase]
  split
  · exact .rule (Or.inr steered.phase) _ (.fail _ _)
  · rcases replay_idle_rules steered.phase idle execution with goesOn | rules
    · rw [goesOn, advanced_eq]
      exact .follow steered.phase _ _ _
    · exact .rule (Or.inr steered.phase) _ rules

theorem Situated.decides (situated : engine.Situated) (processor : Processor)
    (instruction : Instruction) (execution : Execution) :
    engine.Decides (engine.decide processor instruction execution) := by
  cases situated with
  | waiting phase position trace checkpoints branches archive =>
      simp only [Engine.decide, phase]
      exact .rest (Or.inl phase) _ (Or.inl rfl)
  | tainting executions tainting supported =>
      simp only [Engine.decide, tainting.phase]
      split
      · exact .rule (Or.inl tainting.phase) _ (.fail _ _)
      · rcases tainting.taint_rules instruction execution processor with records | rules
        · rw [records]
          exact .record tainting.phase instruction execution processor
        · exact .rule (Or.inl tainting.phase) _ rules
  | attempting executions resolution attempting =>
      have rollbacking := attempting.attempts.steered.phase
      simp only [Engine.decide, rollbacking]
      split
      · exact .rule (Or.inr rollbacking) _ (.fail _ _)
      · rcases attempting.replay_rules execution with goesOn | rules
        · rw [goesOn]
          exact .follow rollbacking _ _ _
        · exact .rule (Or.inr rollbacking) _ rules
  | forwarding executions forwards =>
      exact forwards.steered.decides_idle forwards.idle processor instruction execution
  | cleared executions steered idle checkpoints branches =>
      exact steered.decides_idle idle processor instruction execution
  | finished phase =>
      simp only [Engine.decide, phase]
      exact .rest (Or.inr phase) _ (Or.inr rfl)

theorem Situated.decidesExit (situated : engine.Situated) :
    engine.Decides engine.decideExit := by
  cases situated with
  | waiting phase position trace checkpoints branches archive =>
      simp only [decideExit, phase]
      exact .rest (Or.inl phase) _ (Or.inr rfl)
  | tainting executions tainting supported =>
      simp only [decideExit, tainting.phase]
      exact .rule (Or.inl tainting.phase) _ tainting.endTainting_rules
  | forwarding executions forwards =>
      simp only [decideExit, forwards.steered.phase, replayExit, forwards.idle, Option.isSome_none,
        Bool.false_eq_true, if_false, if_neg (Nat.not_le_of_lt forwards.inside)]
      exact .rule (Or.inr forwards.steered.phase) _ (.fail _ _)
  | attempting executions resolution attempting =>
      have rollbacking := attempting.attempts.steered.phase
      simp only [decideExit, rollbacking, replayExit, attempting.active, Option.isSome_some,
        if_true]
      exact .rule (Or.inr rollbacking) _ (attempting.attempts.retry_rules attempting.active)
  | cleared executions steered idle checkpoints branches =>
      simp only [decideExit, steered.phase, replayExit, idle, Option.isSome_none,
        Bool.false_eq_true, if_false]
      refine .rule (Or.inr steered.phase) _ ?_
      split
      · refine .conclude engine (.of_branches steered.phase rfl) fun position branch found => ?_
        simp [branches] at found
      · exact .fail _ _
  | finished phase =>
      simp only [decideExit, phase]
      exact .rest (Or.inr phase) _ (Or.inr rfl)

theorem Situated.decides_of_decision (situated : engine.Situated) {call : Call}
    (decides : engine.decision? call = some decision) : engine.Decides decision := by
  obtain ⟨machine, request⟩ := call
  cases request with
  | input buffer => simp [decision?] at decides
  | instruction instruction execution =>
      simp only [decision?, Option.some.injEq] at decides
      exact decides ▸ situated.decides machine.processor instruction execution
  | exit =>
      simp only [decision?, Option.some.injEq] at decides
      exact decides ▸ situated.decidesExit
  | clear => simp [decision?] at decides

end Engine

end BranchSteer
