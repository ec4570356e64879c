import BranchSteer.Proofs.GoingBack
import BranchSteer.Proofs.Surveys

/-!
Judgements on records and attempts, and that the decisions of the rollbacking phase uphold them. A
judgement is a parameter here: it has to survive that a record is marked, loses a candidate, is resolved
or given up. Two facts hold with any judgement: a run is stopped or restarted only when no branch is left
to flip, and it is restarted only if another phase is allowed.
-/

namespace BranchSteer

structure Branch.Retains (old new : Branch) : Prop where
  phase : new.phase = old.phase
  position : new.position = old.position
  taken : new.taken = old.taken
  inputDependencies : new.inputDependencies = old.inputDependencies

theorem Branch.retains_resolve (branch : Branch) (input : List UInt8) :
    branch.Retains (branch.resolve input) := by
  unfold Branch.resolve Branch.remember
  split
  · exact ⟨rfl, rfl, rfl, rfl⟩
  · split <;> exact ⟨rfl, rfl, rfl, rfl⟩

theorem Branch.candidates_resolve (branch : Branch) (input : List UInt8) :
    (branch.resolve input).candidates = branch.candidates := by
  unfold Branch.resolve Branch.remember
  split
  · rfl
  · split <;> rfl

theorem Branch.resolved_resolve {branch : Branch} (undecided : branch.isUndecided)
    (input : List UInt8) :
    (branch.resolve input).isResolved ∧ (branch.resolve input).isBypassed = false := by
  rw [isUndecided_iff] at undecided
  rw [resolve, if_neg (by simp [undecided])]
  refine ⟨rfl, ?_⟩
  unfold remember
  split <;> exact undecided.2

theorem Branch.retains_bypass (branch : Branch) : branch.Retains branch.bypass := by
  unfold Branch.bypass
  split <;> exact ⟨rfl, rfl, rfl, rfl⟩

/-- What is known of the records of earlier phases, of the records of the current phase, and of the
attempts at one of them, before they are made and while they are made. -/
structure Judgement where
  archived : Branch → Prop
  current : Branch → Prop
  ready : Branch → Resolution → Prop
  trying : Branch → Resolution → Prop

namespace Engine

def freshResolution (position checkpoint : Nat) (baseInput : List UInt8) : Resolution where
  branch := position
  checkpoint := checkpoint
  attempts := 0
  perturbed := ∅
  released := ∅
  schedule := []
  attemptedInput := baseInput

def movedResolution (branch : Branch) (resolution : Resolution) (next : Nat) : Resolution :=
  { resolution with
    checkpoint := next
    released := resolution.released.insertMany (branch.candidateBytes resolution.checkpoint).toList }

end Engine

/-- What a judgement has to survive in a phase. `departs` tells whether an attempt leaves the trace right
behind the branch. -/
structure Judgement.Upheld (judgement : Judgement) (recording : Recording) (config : Config)
    (departs : Resolution → Prop) : Prop where
  explored : ∀ {branch : Branch}, judgement.current branch → judgement.current branch.explore
  exploredLater : ∀ {branch : Branch}, judgement.archived branch → judgement.archived branch.explore
  dropped : ∀ {branch : Branch} (id : Nat), judgement.current branch →
    judgement.current (branch.withoutCandidate id)
  begins : ∀ {engine : Engine} {branch : Branch} {position checkpoint : Nat},
    engine.recording = recording → judgement.current branch → branch.isOpen →
    branch.position = position → branch.latestCandidate? = some checkpoint →
    judgement.ready branch
      (engine.prepare branch (Engine.freshResolution position checkpoint engine.baseInput)).2
  moves : ∀ {engine : Engine} {branch : Branch} {resolution : Resolution} {next : Nat},
    engine.recording = recording → judgement.current branch → branch.isOpen →
    judgement.trying branch resolution →
    (branch.withoutCandidate resolution.checkpoint).latestCandidate? = some next →
    judgement.ready (branch.withoutCandidate resolution.checkpoint)
      (engine.prepare (branch.withoutCandidate resolution.checkpoint)
        (Engine.movedResolution branch resolution next)).2
  again : ∀ {engine : Engine} {branch : Branch} {resolution : Resolution}, engine.config = config →
    judgement.trying branch resolution → ¬ departs resolution → ¬ engine.isExhausted resolution →
    judgement.ready branch resolution
  failed : ∀ {engine : Engine} {branch : Branch} {resolution : Resolution}, engine.config = config →
    judgement.current branch → branch.isOpen → judgement.trying branch resolution →
    ¬ departs resolution → engine.isExhausted resolution →
    judgement.current (branch.withoutCandidate resolution.checkpoint).bypass
  flipped : ∀ {branch : Branch} {resolution : Resolution}, judgement.current branch →
    branch.isOpen → judgement.trying branch resolution → departs resolution →
    judgement.current (branch.resolve resolution.attemptedInput)
  credited : ∀ {branch : Branch} (input : List UInt8), judgement.current branch → ¬ branch.isOpen →
    branch.isUndecided → judgement.current (branch.resolve input)
  perturbed : ∀ {engine : Engine} {branch : Branch} {resolution : Resolution} {memory : Memory},
    engine.recording = recording → judgement.ready branch resolution →
    (∀ {address : Nat} {value : UInt8}, (Engine.nextPerturbation resolution).value? engine.input
      engine.random address = some value → memory.byte address = value) →
    judgement.trying branch { Engine.spent resolution with
      attemptedInput := engine.patchInput memory resolution.perturbed }

structure Engine.Records (engine : Engine) (judgement : Judgement) : Prop where
  archived : ∀ branch ∈ engine.archive, judgement.archived branch
  current : ∀ {position : Nat} {branch : Branch}, engine.branches[position]? = some branch →
    judgement.current branch

def Engine.Closed (engine : Engine) : Prop :=
  ∀ (position : Nat) (branch : Branch), engine.branches[position]? = some branch → ¬ branch.isOpen

structure Decision.Upholds (decision : Decision) (judgement : Judgement) : Prop where
  records : decision.engine.Records judgement
  ready : ∀ {resolution : Resolution}, decision.order = .attempt resolution →
    ∃ branch, decision.engine.branches[resolution.branch]? = some branch ∧
      judgement.ready branch resolution
  closed : (decision.order = .stop ∨ ∃ seed, decision.order = .restart seed) →
    decision.engine.Closed
  phases : ∀ {seed : List UInt8}, decision.order = .restart seed →
    decision.engine.config.phaseLimit = 0 ∨
      decision.engine.phaseNumber + 1 < decision.engine.config.phaseLimit

namespace Engine

variable {engine : Engine} {judgement : Judgement} {departs : Resolution → Prop}
  {genuine : Finding → List UInt8 → Prop} {executions : List Execution}

theorem isOpen_explore (branch : Branch) : branch.explore.isOpen = branch.isOpen := rfl

theorem branchesOf_explored (covered : Outcomes) {position : Nat} {branch : Branch}
    (found : (branchesOf (pickSeed covered engine.branches.inTraceOrder).1)[position]? =
      some branch) :
    ∃ (other : Nat) (old : Branch), engine.branches[other]? = some old ∧ MayBeExplored old branch := by
  obtain ⟨member, _⟩ := Flow.Branches.mem_of_branchesOf found
  obtain ⟨_, origin, _⟩ := pickSeed_spec covered engine.branches.inTraceOrder
  obtain ⟨old, listed, marked⟩ := origin branch member
  obtain ⟨other, known⟩ := Flow.Branches.exists_of_mem listed
  exact ⟨other, old, known, marked⟩

theorem takeSeed_marks (engine : Engine) :
    (∀ branch ∈ engine.takeSeed.1.archive, ∃ old ∈ engine.archive, MayBeExplored old branch) ∧
      ∀ {position : Nat} {branch : Branch}, engine.takeSeed.1.branches[position]? = some branch →
        ∃ (other : Nat) (old : Branch), engine.branches[other]? = some old ∧ MayBeExplored old branch := by
  obtain ⟨_, originArchive, _⟩ := pickSeed_spec engine.seenOutcomes engine.archive
  have current := fun {position : Nat} {branch : Branch} =>
    @branchesOf_explored engine engine.seenOutcomes position branch
  unfold takeSeed
  split
  · rename_i records address taken input shape
    rw [shape] at current
    exact ⟨fun branch member => ⟨branch, member, Or.inl rfl⟩, current⟩
  · rename_i records shape
    rw [shape] at current
    split
    · rename_i archive address taken input shapeArchive
      rw [shapeArchive] at originArchive
      exact ⟨originArchive, current⟩
    · rename_i archive shapeArchive
      rw [shapeArchive] at originArchive
      exact ⟨originArchive, current⟩

theorem takeSeed_keeps (engine : Engine) :
    engine.takeSeed.1.config = engine.config ∧
      engine.takeSeed.1.phaseNumber = engine.phaseNumber := by
  unfold takeSeed
  split
  · exact ⟨rfl, rfl⟩
  · split <;> exact ⟨rfl, rfl⟩

theorem Records.marked {after : Engine} (records : engine.Records judgement)
    {recording : Recording} {config : Config} (upheld : judgement.Upheld recording config departs)
    (archived : ∀ branch ∈ after.archive, ∃ old ∈ engine.archive, MayBeExplored old branch)
    (current : ∀ {position : Nat} {branch : Branch}, after.branches[position]? = some branch →
      ∃ (other : Nat) (old : Branch), engine.branches[other]? = some old ∧
        MayBeExplored old branch) : after.Records judgement := by
  constructor
  · intro branch member
    obtain ⟨old, listed, rfl | rfl⟩ := archived branch member
    · exact records.archived _ listed
    · exact upheld.exploredLater (records.archived _ listed)
  · intro position branch found
    obtain ⟨other, old, known, rfl | rfl⟩ := current found
    · exact records.current known
    · exact upheld.explored (records.current known)

theorem Closed.marked {after : Engine} (closed : engine.Closed)
    (current : ∀ {position : Nat} {branch : Branch}, after.branches[position]? = some branch →
      ∃ (other : Nat) (old : Branch), engine.branches[other]? = some old ∧
        MayBeExplored old branch) : after.Closed := by
  intro position branch found
  obtain ⟨other, old, known, rfl | rfl⟩ := current found
  · exact closed _ _ known
  · rw [isOpen_explore]
    exact closed _ _ known

theorem upholds_finish (records : engine.Records judgement) (closed : engine.Closed) (text : String)
    (exhausted : Bool) :
    Decision.Upholds ⟨(engine.inform text).finish exhausted, .stop⟩ judgement := by
  obtain ⟨summaries, log, shape⟩ := finish_eq (engine.inform text) exhausted
  rw [shape]
  exact ⟨⟨records.archived, records.current⟩, by simp, fun _ => closed, by simp⟩

theorem concludePhase_upholds (upheld : judgement.Upheld engine.recording engine.config departs)
    (records : engine.Records judgement) (closed : engine.Closed) :
    engine.concludePhase.Upholds judgement := by
  have summary : engine.addSummary.Records judgement ∧ engine.addSummary.Closed ∧
      judgement.Upheld engine.addSummary.recording engine.addSummary.config departs := by
    obtain ⟨summaries, log, shape⟩ := addSummary_eq engine
    rw [shape]
    exact ⟨⟨records.archived, records.current⟩, closed, upheld⟩
  unfold concludePhase
  generalize engine.addSummary = summed at summary
  obtain ⟨recordsSummed, closedSummed, upheldSummed⟩ := summary
  simp only
  split
  · exact upholds_finish recordsSummed closedSummed _ false
  · rename_i allowed
    obtain ⟨archived, current⟩ := takeSeed_marks summed
    obtain ⟨config, phaseNumber⟩ := takeSeed_keeps summed
    have marked := recordsSummed.marked upheldSummed archived current
    have closedToo := closedSummed.marked current
    split
    · rename_i taken seed found
      simp only [found] at marked closedToo config phaseNumber
      refine ⟨marked, by simp, fun _ => closedToo, fun _ => ?_⟩
      simp only [config, phaseNumber]
      omega
    · rename_i taken found
      simp only [found] at marked closedToo
      exact upholds_finish marked closedToo _ false

theorem closed_of_not_hasOpen (none : ¬ engine.hasOpen) : engine.Closed := by
  intro position branch found isOpen
  exact none (List.any_eq_true.mpr ⟨branch, Flow.Branches.mem_of_getElem? found, isOpen⟩)

theorem release_upholds {resolution : Resolution}
    (upheld : judgement.Upheld engine.recording engine.config departs)
    (records : engine.Records judgement) (active : engine.active = some resolution) :
    engine.release.Upholds judgement := by
  have recordsToo : Engine.Records { engine with active := none } judgement :=
    ⟨records.archived, records.current⟩
  simp only [release, active]
  split
  · exact ⟨recordsToo, by simp, by simp, by simp⟩
  · rename_i none
    exact concludePhase_upholds upheld recordsToo (closed_of_not_hasOpen none)

theorem beginAt_upholds (records : engine.Records judgement) {resolution : Resolution}
    {branch : Branch} (found : engine.branches[resolution.branch]? = some branch)
    (ready : judgement.ready branch
      (({ engine with active := some resolution } : Engine).prepare branch resolution).2) :
    (engine.beginAt resolution).Upholds judgement := by
  simp only [beginAt, found]
  refine ⟨⟨records.archived, records.current⟩, fun same => ?_, by simp, by simp⟩
  simp only [Order.attempt.injEq] at same
  subst same
  exact ⟨branch, found, ready⟩

theorem beginResolution_upholds (upheld : judgement.Upheld engine.recording engine.config departs)
    (records : engine.Records judgement) {position checkpoint : Nat} {branch : Branch}
    (found : engine.branches[position]? = some branch) (isOpen : branch.isOpen)
    (key : branch.position = position) (latest : branch.latestCandidate? = some checkpoint) :
    (engine.beginResolution position).Upholds judgement := by
  simp only [beginResolution, found, Option.bind_some, latest]
  exact beginAt_upholds records found (upheld.begins rfl (records.current found) isOpen key latest)

theorem Records.setBranch (records : engine.Records judgement) {branch : Branch}
    (judged : judgement.current branch) (noted : Branch) (text : String) :
    ((engine.setBranch branch).noteBranch noted text).Records judgement := by
  refine ⟨records.archived, fun found => ?_⟩
  rcases setBranch_cases found with ⟨_, rfl⟩ | ⟨_, old⟩
  · exact judged
  · exact records.current old

theorem retry_upholds (upheld : judgement.Upheld engine.recording engine.config departs)
    (records : engine.Records judgement) {resolution : Resolution} {branch : Branch}
    (active : engine.active = some resolution)
    (found : engine.branches[resolution.branch]? = some branch) (isOpen : branch.isOpen)
    (key : branch.position = resolution.branch) (trying : judgement.trying branch resolution)
    (stays : ¬ departs resolution) : engine.retry.Upholds judgement := by
  have judged := records.current found
  simp only [retry, active]
  split
  · rename_i left
    refine ⟨records, fun same => ?_, by simp, by simp⟩
    simp only [Order.attempt.injEq] at same
    subst same
    exact ⟨branch, found, upheld.again rfl trying stays (by simpa using left)⟩
  · rename_i exhausted
    simp only [found]
    split
    · rename_i next remaining
      have recordsToo := records.setBranch (upheld.dropped resolution.checkpoint judged) branch
        ("No flip after " ++ toString resolution.attempts ++ " attempts at checkpoint " ++
          toString resolution.checkpoint ++ ", moving to checkpoint " ++ toString next)
      refine beginAt_upholds recordsToo ?_ (upheld.moves rfl judged isOpen trying remaining)
      have here := getElem?_setBranch engine (branch.withoutCandidate resolution.checkpoint)
      rw [show (branch.withoutCandidate resolution.checkpoint).position = resolution.branch from key]
        at here
      exact here
    · have judgedToo := upheld.failed rfl judged isOpen trying stays (by simpa using exhausted)
      exact release_upholds upheld (records.setBranch judgedToo branch _) active

theorem acceptFlip_upholds (upheld : judgement.Upheld engine.recording engine.config departs)
    (records : engine.Records judgement) {resolution : Resolution} {branch : Branch}
    (active : engine.active = some resolution)
    (found : engine.branches[resolution.branch]? = some branch) (isOpen : branch.isOpen)
    (trying : judgement.trying branch resolution) (leaves : departs resolution) :
    engine.acceptFlip.Upholds judgement := by
  have judged := upheld.flipped (records.current found) isOpen trying leaves
  simp only [acceptFlip, active, found]
  exact release_upholds upheld (records.setBranch judged branch _) active

theorem creditDivergence_records (upheld : judgement.Upheld engine.recording engine.config departs)
    (records : engine.Records judgement) (resolution : Resolution)
    (closed : ∀ {branch : Branch},
      engine.branches[Position.previous engine.position]? = some branch → ¬ branch.isOpen) :
    (engine.creditDivergence resolution).Records judgement := by
  unfold creditDivergence
  split
  · rename_i branch found
    split
    · rename_i undecided
      exact records.setBranch (upheld.credited _ (records.current found) (closed found) undecided)
        branch _
    · exact records
  · exact records

theorem creditDivergence_frame (engine : Engine) (resolution : Resolution) :
    (engine.creditDivergence resolution).recording = engine.recording ∧
      (engine.creditDivergence resolution).config = engine.config ∧
      (engine.creditDivergence resolution).active = engine.active := by
  unfold creditDivergence
  split
  · split <;> exact ⟨rfl, rfl, rfl⟩
  · exact ⟨rfl, rfl, rfl⟩

theorem getElem?_creditDivergence (keyed : Flow.Branches.Keyed engine.branches)
    (resolution : Resolution) {position : Nat}
    (elsewhere : Position.previous engine.position ≠ position) :
    (engine.creditDivergence resolution).branches[position]? = engine.branches[position]? := by
  unfold creditDivergence
  split
  · rename_i branch found
    split
    · have key : (branch.resolve resolution.attemptedInput).position =
          Position.previous engine.position :=
        (branch.retains_resolve _).position.trans (keyed _ _ found)
      simp only [noteBranch, note, setBranch, Std.ExtTreeMap.getElem?_insert, Nat.compare_eq_eq, key,
        elsewhere, if_false]
    · rfl
  · rfl

theorem credit_upholds (keyed : Flow.Branches.Keyed engine.branches)
    (upheld : judgement.Upheld engine.recording engine.config departs)
    (records : engine.Records judgement) {resolution : Resolution} {branch : Branch}
    (active : engine.active = some resolution)
    (found : engine.branches[resolution.branch]? = some branch) (isOpen : branch.isOpen)
    (trying : judgement.trying branch resolution) (stays : ¬ departs resolution)
    (elsewhere : Position.previous engine.position ≠ resolution.branch)
    (closed : ∀ {other : Branch},
      engine.branches[Position.previous engine.position]? = some other → ¬ other.isOpen) :
    (engine.creditDivergence resolution).retry.Upholds judgement := by
  obtain ⟨recording, config, sameActive⟩ := engine.creditDivergence_frame resolution
  have credited := creditDivergence_records upheld records resolution closed
  have kept := getElem?_creditDivergence keyed resolution elsewhere
  rw [← recording, ← config] at upheld
  exact Engine.retry_upholds upheld credited (sameActive.trans active) (kept.trans found) isOpen
    (keyed _ _ found) trying stays

theorem Forwards.replay_upholds (forwards : engine.Forwards genuine executions)
    (upheld : judgement.Upheld engine.recording engine.config departs)
    (records : engine.Records judgement) {execution : Execution}
    (follows : engine.trace[engine.position]? = some execution.address) :
    engine.replay execution = ⟨engine.advanced, .proceed execution.writes⟩ ∨
      (engine.replay execution).Upholds judgement := by
  by_cases waits : ∃ branch, engine.branches[engine.position + 1]? = some branch ∧ branch.isOpen
  · obtain ⟨branch, found, isOpen⟩ := waits
    have steerable := forwards.steered.branch found
    obtain ⟨id, latest⟩ := Option.isSome_iff_exists.mp
      (Std.ExtTreeMap.isSome_maxKey?_iff_ne_empty.mpr (steerable.pending isOpen).1)
    rw [← Branch.latestCandidate?_eq_maxKey?] at latest
    have same := recording_advanced engine
    have config : engine.advanced.config = engine.config := by rw [advanced_eq]
    have archive : engine.advanced.archive = engine.archive := by rw [advanced_eq]
    rw [replay_open forwards.idle follows found isOpen]
    rw [← same, ← config] at upheld
    refine Or.inr (beginResolution_upholds upheld ⟨?_, ?_⟩ ?_ isOpen steerable.observed.key latest)
    · rw [archive]
      exact records.archived
    · rw [branches_advanced]
      exact records.current
    · rw [branches_advanced]
      exact found
  · exact Or.inl (replay_closed forwards.idle follows fun branch found isOpen =>
      waits ⟨branch, found, isOpen⟩)

theorem Attempts.retry_upholds {resolution : Resolution}
    (attempts : engine.Attempts genuine executions resolution)
    (upheld : judgement.Upheld engine.recording engine.config departs)
    (records : engine.Records judgement) (active : engine.active = some resolution)
    (trying : ∀ {branch : Branch}, engine.branches[resolution.branch]? = some branch →
      judgement.trying branch resolution)
    (stays : ¬ departs resolution) : engine.retry.Upholds judgement := by
  obtain ⟨branch, found, isOpen, _⟩ := attempts.branch
  exact Engine.retry_upholds upheld records active found isOpen
    (attempts.steered.branch found).observed.key (trying found) stays

theorem Attempting.replay_upholds {resolution : Resolution}
    (attempting : engine.Attempting genuine executions resolution)
    (upheld : judgement.Upheld engine.recording engine.config departs)
    (records : engine.Records judgement)
    (trying : ∀ {branch : Branch}, engine.branches[resolution.branch]? = some branch →
      judgement.trying branch resolution) {execution : Execution}
    (leaves : engine.position = resolution.branch →
      engine.trace[engine.position]? ≠ some execution.address → departs resolution)
    (arrives : engine.position = resolution.branch →
      engine.trace[engine.position]? = some execution.address → ¬ departs resolution)
    (strays : engine.position ≠ resolution.branch →
      engine.trace[engine.position]? ≠ some execution.address → ¬ departs resolution) :
    engine.replay execution =
        ⟨{ engine with position := engine.position + 1 }, .proceed execution.writes⟩ ∨
      (engine.replay execution).Upholds judgement := by
  obtain ⟨⟨⟨phase, describes, steerable, supported⟩, target, first, armed, bytes⟩, active, reached,
    before, length⟩ := attempting
  have attempts : ({ engine with position := engine.position + 1 } : Engine).Attempts genuine
      executions resolution :=
    ⟨⟨phase, describes, steerable, supported.archived, supported.current⟩, target, first, armed, bytes⟩
  have recordsToo : ({ engine with position := engine.position + 1 } : Engine).Records judgement :=
    ⟨records.archived, records.current⟩
  rw [replay_active active]
  split
  · rename_i here
    split
    · rename_i agrees
      exact Or.inr (attempts.retry_upholds upheld recordsToo active trying (arrives here agrees))
    · rename_i differs
      obtain ⟨branch, found, isOpen, _⟩ := target
      exact Or.inr (acceptFlip_upholds upheld recordsToo active found isOpen (trying found)
        (leaves here differs))
  · rename_i elsewhere
    split
    · exact Or.inl rfl
    · rename_i differs
      -- All branches in front of the active one are closed already.
      have closed : ∀ {branch : Branch}, engine.branches[engine.position]? = some branch →
          ¬ branch.isOpen := fun found isOpen =>
        elsewhere (Nat.le_antisymm before (first found isOpen))
      obtain ⟨branch, found, isOpen, _⟩ := target
      refine Or.inr (@credit_upholds { engine with position := engine.position + 1 } _ _ ?_ upheld
        recordsToo _ _ active found isOpen (trying found) (strays elsewhere differs) elsewhere closed)
      exact fun _ _ known => (steerable known).observed.key

theorem Attempting.replayExit_upholds {resolution : Resolution}
    (attempting : engine.Attempting genuine executions resolution)
    (upheld : judgement.Upheld engine.recording engine.config departs)
    (records : engine.Records judgement)
    (trying : ∀ {branch : Branch}, engine.branches[resolution.branch]? = some branch →
      judgement.trying branch resolution)
    (stays : ¬ departs resolution) : engine.replayExit.Upholds judgement := by
  simp only [Engine.replayExit, attempting.active, Option.isSome_some, if_true]
  exact attempting.attempts.retry_upholds upheld records attempting.active trying stays

theorem Tainting.endTainting_upholds (tainting : engine.Tainting executions)
    (upheld : judgement.Upheld engine.recording engine.config departs)
    (archived : ∀ branch ∈ engine.archive, judgement.archived branch)
    (surveyed : ∀ {position : Nat} {branch : Branch},
      FromSurvey engine.graph engine.branches engine.position position branch →
        judgement.current branch) : engine.endTainting.Upholds judgement := by
  have measured : ({ engine with
      tracedLength := Position.stepsSince engine.position engine.basePosition } : Engine).Tainting
        executions :=
    ⟨tainting.phase, tainting.describes, tainting.position, tainting.armed, tainting.branch,
      tainting.follows, tainting.sameInput⟩
  obtain ⟨branches, outcomes, done, retold⟩ := measured.surveyAll
  have records : ∀ {position : Nat} {branch : Branch}, branches[position]? = some branch →
      judgement.current branch := fun found => surveyed (measured.fromSurvey done found)
  have keyed : Flow.Branches.Keyed branches := by
    intro position branch found
    obtain ⟨_, _, _, steerable⟩ := retold.origin found
    exact steerable.observed.key
  simp only [Engine.endTainting, done]
  split
  · rename_i position next
    simp only [nextOpen?, Option.map_eq_some_iff] at next
    obtain ⟨branch, first, rfl⟩ := next
    obtain ⟨found, isOpen, _⟩ := keyed.find?_eq_some first
    obtain ⟨_, _, _, steerable⟩ := retold.origin found
    obtain ⟨id, latest⟩ := Option.isSome_iff_exists.mp
      (Std.ExtTreeMap.isSome_maxKey?_iff_ne_empty.mpr (steerable.pending isOpen).1)
    rw [← Branch.latestCandidate?_eq_maxKey?] at latest
    refine @beginResolution_upholds _ judgement departs ?_ ?_ _ _ _ ?_ isOpen rfl latest
    · exact upheld
    · exact ⟨archived, records⟩
    · exact found
  · rename_i none
    refine @concludePhase_upholds _ judgement departs ?_ ?_ fun position branch found isOpen => ?_
    · exact upheld
    · exact ⟨archived, records⟩
    · simp only [nextOpen?, Option.map_eq_none_iff, List.find?_eq_none] at none
      exact none branch (Flow.Branches.mem_of_getElem? found) isOpen

theorem Tainting.taint_upholds (tainting : engine.Tainting executions)
    (upheld : judgement.Upheld engine.recording engine.config departs)
    (archived : ∀ branch ∈ engine.archive, judgement.archived branch)
    (surveyed : ∀ {position : Nat} {branch : Branch},
      FromSurvey engine.graph engine.branches engine.position position branch →
        judgement.current branch)
    (instruction : Instruction) (execution : Execution) (processor : Processor) :
    engine.taint instruction execution processor =
        ⟨engine.recordInstruction execution processor, .record instruction execution⟩ ∨
      (engine.taint instruction execution processor).Upholds judgement := by
  have noted : ∀ message, (engine.note message).endTainting.Upholds judgement := by
    intro message
    have taintingToo : (engine.note message).Tainting executions :=
      ⟨tainting.phase, tainting.describes, tainting.position, tainting.armed, tainting.branch,
        tainting.follows, tainting.sameInput⟩
    exact taintingToo.endTainting_upholds upheld archived surveyed
  unfold Engine.taint
  split
  · exact Or.inr (noted _)
  · split
    · exact Or.inr (noted _)
    · exact Or.inl rfl

end Engine

end BranchSteer
