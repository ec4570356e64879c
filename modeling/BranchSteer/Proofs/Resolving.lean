import BranchSteer.Proofs.Recording

/-!
The decisions of the rollbacking phase. Whatever the engine decides, the checkpoint that it wants to go
back to exists and is armed, the bytes that it wants to perturb were not touched before that checkpoint,
and no branch in front of the checkpoint waits to be flipped.

That an input flips a branch is a matter of the observed process: `genuine` stands for what is known of
it, and a record is resolved only by an input for which it is known.
-/

namespace BranchSteer

def Finding.Supported (genuine : Finding → List UInt8 → Prop) (length : Nat) (finding : Finding) :
    Prop :=
  if finding.isResolved then
    ∃ input, finding.flippingInput = some input ∧ input.length = length ∧ genuine finding input
  else finding.flippingInput = none

namespace Engine

structure Keeps (before after : Engine) : Prop where
  config : after.config = before.config
  rollbacks : after.rollbacks = before.rollbacks
  checkpoints : after.checkpoints = before.checkpoints
  recording : after.recording = before.recording

theorem Keeps.refl (engine : Engine) : Keeps engine engine := ⟨rfl, rfl, rfl, rfl⟩

theorem Keeps.trans {before middle after : Engine} (one : Keeps before middle)
    (two : Keeps middle after) : Keeps before after :=
  ⟨two.config.trans one.config, two.rollbacks.trans one.rollbacks,
    two.checkpoints.trans one.checkpoints, two.recording.trans one.recording⟩

theorem Keeps.input {before after : Engine} (keeps : Keeps before after) :
    after.input = before.input :=
  Engine.input_of_recording keeps.recording

structure Supported (engine : Engine) (genuine : Finding → List UInt8 → Prop) : Prop where
  archived : ∀ branch ∈ engine.archive, branch.finding.Supported genuine engine.input.length
  current : ∀ {position : Nat} {branch : Branch}, engine.branches[position]? = some branch →
    branch.finding.Supported genuine engine.input.length

structure Steered (engine : Engine) (genuine : Finding → List UInt8 → Prop)
    (executions : List Execution) : Prop where
  phase : engine.phase = .rollbacking
  describes : engine.recording.Describes executions
  branch : ∀ {position : Nat} {branch : Branch}, engine.branches[position]? = some branch →
    engine.recording.Steerable executions position branch
  supported : engine.Supported genuine

def ArmedUpTo (engine : Engine) (id : Nat) : Prop :=
  ∀ (lower : Nat) (checkpoint : Checkpoint), lower ≤ id →
    engine.checkpoints[lower]? = some checkpoint → checkpoint.armed

/-- A resolution that can be attempted: it is about the first open branch, at the latest of its
candidates, and perturbs bytes that nothing touched before. -/
structure Attempts (engine : Engine) (genuine : Finding → List UInt8 → Prop)
    (executions : List Execution) (resolution : Resolution) : Prop where
  steered : engine.Steered genuine executions
  branch : ∃ branch, engine.branches[resolution.branch]? = some branch ∧ branch.isOpen ∧
    branch.latestCandidate? = some resolution.checkpoint
  first : ∀ {position : Nat} {branch : Branch}, engine.branches[position]? = some branch →
    branch.isOpen → resolution.branch ≤ position
  armed : engine.ArmedUpTo resolution.checkpoint
  bytes : ∀ {point : Point}, engine.recording.points[resolution.checkpoint]? = some point →
    ∀ address, address ∈ resolution.perturbed ∨ address ∈ resolution.released →
      engine.recording.Untouched executions point.position address

/-- A checkpoint that the input of the phase can be restored at, since open branches are left and all of
them lie behind it. -/
structure Restores (engine : Engine) (genuine : Finding → List UInt8 → Prop)
    (executions : List Execution) (id : Nat) : Prop where
  steered : engine.Steered genuine executions
  idle : engine.active = none
  armed : engine.ArmedUpTo id
  target : ∃ point, engine.recording.points[id]? = some point ∧
    ∀ {position : Nat} {branch : Branch}, engine.branches[position]? = some branch →
      branch.isOpen → point.position ≤ position
  pending : ∃ (position : Nat) (branch : Branch), engine.branches[position]? = some branch ∧
    branch.isOpen

structure Restarts (engine : Engine) (genuine : Finding → List UInt8 → Prop)
    (executions : List Execution) (seed : List UInt8) : Prop where
  describes : engine.recording.Describes executions
  supported : engine.Supported genuine
  armed : engine.ArmedUpTo 0
  length : seed.length = engine.input.length

inductive TakesBack (engine : Engine) (genuine : Finding → List UInt8 → Prop)
    (executions : List Execution) : Decision → Prop
  | attempt (after : Engine) (resolution : Resolution) (keeps : Keeps engine after)
    (attempts : after.Attempts genuine executions resolution) :
    TakesBack _ _ _ ⟨after, .attempt resolution⟩
  | restore (after : Engine) (id : Nat) (keeps : Keeps engine after)
    (restores : after.Restores genuine executions id) : TakesBack _ _ _ ⟨after, .restore id⟩
  | restart (after : Engine) (seed : List UInt8) (keeps : Keeps engine after)
    (restarts : after.Restarts genuine executions seed) : TakesBack _ _ _ ⟨after, .restart seed⟩
  | stop (after : Engine) (keeps : Keeps engine after) (finished : after.phase = .finished)
    (supported : after.Supported genuine) : TakesBack _ _ _ ⟨after, .stop⟩

variable {engine middle after : Engine} {genuine : Finding → List UInt8 → Prop}
  {executions : List Execution}

theorem TakesBack.of_keeps {decision : Decision}
    (takesBack : middle.TakesBack genuine executions decision) (keeps : Keeps engine middle) :
    engine.TakesBack genuine executions decision := by
  cases takesBack with
  | attempt after resolution keepsToo attempts =>
      exact .attempt after resolution (keeps.trans keepsToo) attempts
  | restore after id keepsToo restores => exact .restore after id (keeps.trans keepsToo) restores
  | restart after seed keepsToo restarts => exact .restart after seed (keeps.trans keepsToo) restarts
  | stop after keepsToo finished supported =>
      exact .stop after (keeps.trans keepsToo) finished supported

theorem TakesBack.keeps {decision : Decision}
    (takesBack : engine.TakesBack genuine executions decision) : Keeps engine decision.engine := by
  cases takesBack with
  | attempt after resolution keeps attempts => exact keeps
  | restore after id keeps restores => exact keeps
  | restart after seed keeps restarts => exact keeps
  | stop after keeps finished supported => exact keeps

theorem Supported.retold (supported : engine.Supported genuine) (input : after.input = engine.input)
    (archived : ∀ branch ∈ after.archive, ∃ old ∈ engine.archive, branch.finding = old.finding)
    (current : Flow.Branches.Retold (fun _ old new => new.finding = old.finding) engine.branches
      after.branches) : after.Supported genuine := by
  constructor
  · intro branch member
    obtain ⟨old, listed, same⟩ := archived branch member
    rw [same, input]
    exact supported.archived old listed
  · intro position branch found
    obtain ⟨old, foundOld, same⟩ := current.origin found
    rw [same, input]
    exact supported.current foundOld

theorem addSummary_eq (engine : Engine) :
    ∃ summaries log, engine.addSummary = { engine with summaries := summaries, log := log } := by
  unfold addSummary
  split
  · exact ⟨engine.summaries, engine.log, rfl⟩
  · exact ⟨_, _, rfl⟩

theorem finish_eq (engine : Engine) (exhausted : Bool) :
    ∃ summaries log, engine.finish exhausted = { engine with
      budgetExhausted := engine.budgetExhausted || exhausted
      summaries := summaries
      log := log
      active := none
      phase := .finished } := by
  obtain ⟨summaries, log, shape⟩ := addSummary_eq
    { engine with budgetExhausted := engine.budgetExhausted || exhausted }
  exact ⟨summaries, log, by simp only [finish, shape]⟩

theorem TakesBack.finish (keeps : Keeps engine middle) (supported : middle.Supported genuine)
    (exhausted : Bool) : engine.TakesBack genuine executions ⟨middle.finish exhausted, .stop⟩ := by
  obtain ⟨summaries, log, shape⟩ := finish_eq middle exhausted
  rw [shape]
  exact .stop _ (keeps.trans ⟨rfl, rfl, rfl, rfl⟩) rfl ⟨supported.archived, supported.current⟩

theorem Supported.inform (supported : engine.Supported genuine) (text : String) :
    (engine.inform text).Supported genuine :=
  ⟨supported.archived, supported.current⟩

theorem keeps_inform (engine : Engine) (text : String) : Keeps engine (engine.inform text) :=
  ⟨rfl, rfl, rfl, rfl⟩

theorem takeSeed_spec (keyed : Flow.Branches.Keyed engine.branches)
    (supported : engine.Supported genuine) :
    Keeps engine engine.takeSeed.1 ∧ engine.takeSeed.1.Supported genuine ∧
      ∀ {seed : List UInt8}, engine.takeSeed.2 = some seed →
        seed.length = engine.input.length := by
  obtain ⟨positions, origin, seeds⟩ := pickSeed_spec engine.seenOutcomes engine.branches.inTraceOrder
  obtain ⟨_, originArchive, seedsArchive⟩ := pickSeed_spec engine.seenOutcomes engine.archive
  have findings : ∀ {old new : Branch}, MayBeExplored old new → new.finding = old.finding := by
    rintro old new (rfl | rfl) <;> rfl
  have current := keyed.retold_branchesOf (fun _ old new => new.finding = old.finding) positions
    fun branch member => by
      obtain ⟨old, listed, marked⟩ := origin branch member
      exact ⟨old, listed, marked.position, findings marked⟩
  have lengths : ∀ {branch : Branch} {input : List UInt8},
      branch.finding.Supported genuine engine.input.length → branch.isResolved →
        branch.flippingInput = some input → input.length = engine.input.length := by
    intro branch input known resolved flips
    rw [Finding.Supported, if_pos (show branch.finding.isResolved from resolved)] at known
    obtain ⟨other, same, length, _⟩ := known
    rw [Branch.finding, flips, Option.some.injEq] at same
    exact same ▸ length
  unfold takeSeed
  split
  · rename_i records address taken input shape
    rw [shape] at current seeds
    refine ⟨⟨rfl, rfl, rfl, rfl⟩, supported.retold rfl (fun branch member => ⟨branch, member, rfl⟩)
      current, fun {seed} same => ?_⟩
    obtain ⟨branch, listed, resolved, flips⟩ := seeds rfl
    rw [Option.some.injEq] at same
    exact same ▸ lengths (supported.current (keyed.getElem?_of_mem listed)) resolved flips
  · rename_i records shape
    rw [shape] at current
    have archived : ∀ branch ∈ (pickSeed engine.seenOutcomes engine.archive).1,
        ∃ old ∈ engine.archive, branch.finding = old.finding := by
      intro branch member
      obtain ⟨old, listed, marked⟩ := originArchive branch member
      exact ⟨old, listed, findings marked⟩
    split
    · rename_i archive address taken input shapeArchive
      rw [shapeArchive] at archived seedsArchive
      refine ⟨⟨rfl, rfl, rfl, rfl⟩, supported.retold rfl archived current, fun {seed} same => ?_⟩
      obtain ⟨branch, listed, resolved, flips⟩ := seedsArchive rfl
      rw [Option.some.injEq] at same
      exact same ▸ lengths (supported.archived branch listed) resolved flips
    · rename_i archive shapeArchive
      rw [shapeArchive] at archived
      exact ⟨⟨rfl, rfl, rfl, rfl⟩, supported.retold rfl archived current, by simp⟩

theorem concludePhase_takesBack (describes : engine.recording.Describes executions)
    (keyed : Flow.Branches.Keyed engine.branches) (supported : engine.Supported genuine)
    (armed : engine.ArmedUpTo 0) :
    engine.TakesBack genuine executions engine.concludePhase := by
  have summary : Keeps engine engine.addSummary ∧ engine.addSummary.Supported genuine ∧
      Flow.Branches.Keyed engine.addSummary.branches := by
    obtain ⟨summaries, log, shape⟩ := addSummary_eq engine
    rw [shape]
    exact ⟨⟨rfl, rfl, rfl, rfl⟩, ⟨supported.archived, supported.current⟩, keyed⟩
  unfold concludePhase
  generalize engine.addSummary = summed at summary
  obtain ⟨keepsSummed, supportedSummed, keyedSummed⟩ := summary
  simp only
  split
  · exact .finish (keepsSummed.trans (keeps_inform _ _)) (supportedSummed.inform _) false
  · obtain ⟨keepsTaken, supportedTaken, length⟩ := takeSeed_spec keyedSummed supportedSummed
    have keeps := keepsSummed.trans keepsTaken
    split
    · rename_i taken seed found
      rw [found] at keeps supportedTaken length
      refine .restart taken seed keeps ⟨keeps.recording ▸ describes, supportedTaken, ?_, ?_⟩
      · intro id checkpoint
        rw [keeps.checkpoints]
        exact armed id checkpoint
      · rw [length rfl, keeps.input, keepsSummed.input]
    · rename_i taken found
      rw [found] at keeps supportedTaken
      exact .finish (keeps.trans (keeps_inform _ _)) (supportedTaken.inform _) false

theorem candidateBytes_untouched {recording : Recording} {position : Nat} {branch : Branch}
    (steerable : recording.Steerable executions position branch) {id : Nat} {point : Point}
    (found : recording.points[id]? = some point) :
    ∀ address ∈ branch.candidateBytes id,
      recording.Untouched executions point.position address := by
  intro address member
  unfold Branch.candidateBytes at member
  cases selected : branch.candidates[id]? with
  | none => simp [selected] at member
  | some bytes =>
      simp only [selected, Option.getD_some] at member
      obtain ⟨other, there, _, untouched⟩ := steerable.candidate selected
      rw [found, Option.some.injEq] at there
      exact there ▸ untouched address member

theorem candidate_position {recording : Recording} {position : Nat} {branch : Branch}
    (steerable : recording.Steerable executions position branch) {id : Nat}
    (latest : branch.latestCandidate? = some id) :
    ∃ point, recording.points[id]? = some point ∧ point.position ≤ position := by
  rw [Branch.latestCandidate?_eq_maxKey?] at latest
  have member := Std.ExtTreeMap.maxKey?_mem latest
  obtain ⟨point, found, bound, _⟩ :=
    steerable.candidate (Std.ExtTreeMap.getElem?_eq_some_getElem member)
  exact ⟨point, found, bound⟩

theorem beginAt_takesBack (steered : engine.Steered genuine executions) {resolution : Resolution}
    {branch : Branch} (found : engine.branches[resolution.branch]? = some branch)
    (isOpen : branch.isOpen) (latest : branch.latestCandidate? = some resolution.checkpoint)
    (first : ∀ {position : Nat} {other : Branch}, engine.branches[position]? = some other →
      other.isOpen → resolution.branch ≤ position)
    (armed : engine.ArmedUpTo resolution.checkpoint)
    (released : ∀ {point : Point}, engine.recording.points[resolution.checkpoint]? = some point →
      ∀ address ∈ resolution.released,
        engine.recording.Untouched executions point.position address) :
    engine.TakesBack genuine executions (engine.beginAt resolution) := by
  simp only [beginAt, found, prepare]
  refine .attempt _ _ ⟨rfl, rfl, rfl, rfl⟩ ⟨⟨steered.phase, steered.describes, steered.branch,
    steered.supported.archived, steered.supported.current⟩, ⟨branch, found, isOpen, latest⟩, first,
    armed, ?_⟩
  intro point there address member
  rcases member with perturbed | known
  · rw [Std.ExtTreeSet.mem_insertMany_list] at perturbed
    rcases perturbed with own | given
    · exact candidateBytes_untouched (steered.branch found) there address own
    · refine released there address ?_
      simpa using given
  · exact released there address known

theorem beginResolution_takesBack (steered : engine.Steered genuine executions) {position : Nat}
    {branch : Branch} (found : engine.branches[position]? = some branch) (isOpen : branch.isOpen)
    (first : ∀ {other : Nat} {later : Branch}, engine.branches[other]? = some later →
      later.isOpen → position ≤ other)
    (armed : ∀ {id : Nat} {checkpoint : Checkpoint}, engine.checkpoints[id]? = some checkpoint →
      checkpoint.position ≤ position → checkpoint.armed) :
    engine.TakesBack genuine executions (engine.beginResolution position) := by
  have steerable := steered.branch found
  obtain ⟨id, latest⟩ := Option.isSome_iff_exists.mp
    (Std.ExtTreeMap.isSome_maxKey?_iff_ne_empty.mpr (steerable.pending isOpen).1)
  rw [← Branch.latestCandidate?_eq_maxKey?] at latest
  obtain ⟨point, there, bound⟩ := candidate_position steerable latest
  simp only [beginResolution, found, Option.bind_some, latest]
  refine beginAt_takesBack steered found isOpen latest first ?_ fun _ _ member => by simp at member
  intro lower checkpoint upTo known
  apply armed known
  have lowerPoint : engine.recording.points[lower]? = some checkpoint.point := by
    rw [points_getElem?, known, Option.map_some]
  rcases Nat.lt_or_eq_of_le upTo with below | same
  · exact Nat.le_trans (Nat.le_of_lt (steered.describes.increasing below lowerPoint there)) bound
  · simp only at same
    subst same
    rw [lowerPoint, Option.some.injEq] at there
    have samePosition : checkpoint.position = point.position := congrArg Point.position there
    omega

theorem Steered.keyed (steered : engine.Steered genuine executions) :
    Flow.Branches.Keyed engine.branches :=
  fun _ _ found => (steered.branch found).observed.key

theorem release_takesBack (steered : engine.Steered genuine executions) {resolution : Resolution}
    (active : engine.active = some resolution) (armed : engine.ArmedUpTo resolution.checkpoint)
    (target : ∃ point, engine.recording.points[resolution.checkpoint]? = some point ∧
      point.position ≤ resolution.branch)
    (ahead : ∀ {position : Nat} {branch : Branch}, engine.branches[position]? = some branch →
      branch.isOpen → resolution.branch < position) :
    engine.TakesBack genuine executions engine.release := by
  simp only [release, active]
  have steeredToo : ({ engine with active := none } : Engine).Steered genuine executions :=
    ⟨steered.phase, steered.describes, steered.branch, steered.supported.archived,
      steered.supported.current⟩
  split
  · rename_i some
    obtain ⟨branch, member, isOpen⟩ := List.any_eq_true.mp some
    obtain ⟨position, found⟩ := Flow.Branches.exists_of_mem member
    obtain ⟨point, there, bound⟩ := target
    refine .restore _ _ ⟨rfl, rfl, rfl, rfl⟩ ⟨steeredToo, rfl, armed, ⟨point, there, ?_⟩,
      ⟨position, branch, found, isOpen⟩⟩
    intro other later foundLater isOpenLater
    have := ahead foundLater isOpenLater
    omega
  · have ends := concludePhase_takesBack steeredToo.describes steeredToo.keyed steeredToo.supported
      fun lower checkpoint zero known => armed lower checkpoint (by omega) known
    exact ends.of_keeps ⟨rfl, rfl, rfl, rfl⟩

theorem setBranch_cases {branch other : Branch} {position : Nat}
    (found : (engine.setBranch branch).branches[position]? = some other) :
    (branch.position = position ∧ other = branch) ∨
      (branch.position ≠ position ∧ engine.branches[position]? = some other) := by
  simp only [setBranch, Std.ExtTreeMap.getElem?_insert, Nat.compare_eq_eq] at found
  split at found
  · rename_i same
    exact Or.inl ⟨same, (Option.some.inj found).symm⟩
  · rename_i different
    exact Or.inr ⟨different, found⟩

theorem getElem?_setBranch (engine : Engine) (branch : Branch) :
    (engine.setBranch branch).branches[branch.position]? = some branch := by
  simp [setBranch]

theorem keeps_setBranch (engine : Engine) (branch noted : Branch) (text : String) :
    Keeps engine ((engine.setBranch branch).noteBranch noted text) :=
  ⟨rfl, rfl, rfl, rfl⟩

theorem Steered.setBranch (steered : engine.Steered genuine executions) (branch : Branch)
    (steerable : engine.recording.Steerable executions branch.position branch)
    (supported : branch.finding.Supported genuine engine.input.length) (noted : Branch)
    (text : String) :
    ((engine.setBranch branch).noteBranch noted text).Steered genuine executions := by
  refine ⟨steered.phase, steered.describes, ?_, steered.supported.archived, ?_⟩
  · intro position other found
    rcases setBranch_cases found with ⟨rfl, rfl⟩ | ⟨_, old⟩
    · exact steerable
    · exact steered.branch old
  · intro position other found
    rcases setBranch_cases found with ⟨rfl, rfl⟩ | ⟨_, old⟩
    · exact supported
    · exact steered.supported.current old

theorem isOpen_undecided {branch : Branch} (isOpen : branch.isOpen) :
    branch.isUndecided :=
  (Bool.and_eq_true_iff.mp isOpen).2

theorem bypass_spec {branch : Branch} (undecided : branch.isUndecided) :
    branch.bypass = { branch with isBypassed := true } ∧
      branch.bypass.finding = branch.finding ∧ ¬ branch.bypass.isOpen := by
  rw [Branch.isUndecided_iff] at undecided
  rw [Branch.bypass, if_neg (by simp [undecided])]
  exact ⟨rfl, rfl, by simp [Branch.isOpen]⟩

theorem resolve_spec {branch : Branch} (undecided : branch.isUndecided)
    (unflipped : branch.flippingInput = none) (input : List UInt8) :
    (branch.resolve input).finding = { branch.finding with
      isResolved := true
      flippingInput := some input } ∧
      (branch.resolve input).candidates = branch.candidates ∧ ¬ (branch.resolve input).isOpen := by
  obtain ⟨phase, address, position, taken, isResolved, isBypassed, explored, inputs, others, traces,
    candidates, takenInput, notTakenInput⟩ := branch
  simp only [Branch.isUndecided_iff] at undecided
  simp only [Branch.flippingInput, Branch.inputLeadingTo] at unflipped
  cases taken <;>
    simp_all [Branch.resolve, Branch.remember, Branch.finding, Branch.flippingInput,
      Branch.inputLeadingTo, Branch.isOpen]

theorem steerable_of_kept {recording : Recording} {position : Nat} {old new : Branch}
    (steerable : recording.Steerable executions position old)
    (observed : new.phase = old.phase ∧ new.address = old.address ∧ new.position = old.position ∧
      new.taken = old.taken)
    (candidates : ∀ {id : Nat} {bytes : Std.ExtTreeSet Nat}, new.candidates[id]? = some bytes →
      old.candidates[id]? = some bytes)
    (pending : new.isOpen → old.isOpen ∧ new.candidates ≠ ∅) :
    recording.Steerable executions position new := by
  obtain ⟨phase, address, key, taken⟩ := observed
  refine ⟨⟨key.trans steerable.observed.key, phase.trans steerable.observed.phase, ?_⟩,
    fun found => steerable.candidate (candidates found),
    fun isOpen => ⟨(pending isOpen).2, (steerable.pending (pending isOpen).1).2⟩⟩
  rw [address, taken]
  exact steerable.observed.outcome

theorem Steered.unflipped (steered : engine.Steered genuine executions) {position : Nat}
    {branch : Branch} (found : engine.branches[position]? = some branch)
    (undecided : branch.isUndecided) : branch.flippingInput = none := by
  have supported := steered.supported.current found
  have unresolved : ¬ branch.finding.isResolved := by
    simp [Branch.finding, (branch.isUndecided_iff.mp undecided).1]
  rw [Finding.Supported, if_neg unresolved] at supported
  exact supported

theorem Steered.resolve (steered : engine.Steered genuine executions) {position : Nat}
    {branch : Branch} (found : engine.branches[position]? = some branch)
    (undecided : branch.isUndecided) {input : List UInt8}
    (length : input.length = engine.input.length)
    (flips : genuine (branch.resolve input).finding input) (text : String) :
    ((engine.setBranch (branch.resolve input)).noteBranch branch text).Steered genuine
      executions := by
  have steerable := steered.branch found
  obtain ⟨finding, candidates, closed⟩ :=
    resolve_spec undecided (steered.unflipped found undecided) input
  have key : (branch.resolve input).position = position :=
    (congrArg Finding.position finding).trans steerable.observed.key
  apply steered.setBranch
  · rw [key]
    refine steerable_of_kept steerable ⟨congrArg Finding.phase finding,
      congrArg Finding.address finding, congrArg Finding.position finding,
      congrArg Finding.taken finding⟩ ?_ fun isOpen => absurd isOpen closed
    rw [candidates]
    exact id
  · rw [finding] at flips ⊢
    exact ⟨input, rfl, length, flips⟩

theorem Attempts.target {resolution : Resolution}
    (attempts : engine.Attempts genuine executions resolution) :
    ∃ point, engine.recording.points[resolution.checkpoint]? = some point ∧
      point.position ≤ resolution.branch := by
  obtain ⟨branch, found, _, latest⟩ := attempts.branch
  exact candidate_position (attempts.steered.branch found) latest

theorem latestCandidate?_withoutCandidate {branch : Branch} {last next : Nat}
    (latest : branch.latestCandidate? = some last)
    (remaining : (branch.withoutCandidate last).latestCandidate? = some next) : next < last := by
  rw [Branch.latestCandidate?_eq_maxKey?] at latest remaining
  have member := Std.ExtTreeMap.maxKey?_mem remaining
  rw [Branch.withoutCandidate, Std.ExtTreeMap.mem_erase] at member
  have upTo := (Std.ExtTreeMap.maxKey?_eq_some_iff_mem_and_forall.mp latest).2 next member.2
  have different : last ≠ next := fun same => member.1 (Nat.compare_eq_eq.mpr same)
  have bound := Nat.isLE_compare.mp upTo
  omega

theorem finding_withoutCandidate (branch : Branch) (checkpoint : Nat) :
    (branch.withoutCandidate checkpoint).finding = branch.finding := rfl

theorem getElem?_withoutCandidate {branch : Branch} {checkpoint id : Nat}
    {bytes : Std.ExtTreeSet Nat}
    (selected : (branch.withoutCandidate checkpoint).candidates[id]? = some bytes) :
    branch.candidates[id]? = some bytes := by
  simp only [Branch.withoutCandidate, Std.ExtTreeMap.getElem?_erase] at selected
  split at selected
  · simp at selected
  · exact selected

/-- The next candidate of the active branch lies in front of the last one, so its bytes and the released
ones are untouched there, too. -/
theorem Attempts.moveOn {resolution : Resolution}
    (attempts : engine.Attempts genuine executions resolution) {branch : Branch}
    (found : engine.branches[resolution.branch]? = some branch) (isOpen : branch.isOpen)
    (latest : branch.latestCandidate? = some resolution.checkpoint) {next : Nat}
    (remaining : (branch.withoutCandidate resolution.checkpoint).latestCandidate? = some next)
    (text : String) :
    engine.TakesBack genuine executions
      (((engine.setBranch (branch.withoutCandidate resolution.checkpoint)).noteBranch branch
        text).beginAt { resolution with
          checkpoint := next
          released := resolution.released.insertMany
            (branch.candidateBytes resolution.checkpoint).toList }) := by
  have steered := attempts.steered
  have steerable := steered.branch found
  have key := steerable.observed.key
  obtain ⟨point, there, _⟩ := attempts.target
  have earlier := latestCandidate?_withoutCandidate latest remaining
  have nonempty : (branch.withoutCandidate resolution.checkpoint).candidates ≠ ∅ := by
    rw [Branch.latestCandidate?_eq_maxKey?] at remaining
    exact Std.ExtTreeMap.isSome_maxKey?_iff_ne_empty.mp (Option.isSome_of_eq_some remaining)
  have supported := steered.supported.current found
  rw [← finding_withoutCandidate branch resolution.checkpoint] at supported
  have steeredToo := steered.setBranch (branch.withoutCandidate resolution.checkpoint)
    (key ▸ steerable_of_kept steerable ⟨rfl, rfl, rfl, rfl⟩ getElem?_withoutCandidate
      fun stillOpen => ⟨stillOpen, nonempty⟩) supported branch text
  have here := getElem?_setBranch engine (branch.withoutCandidate resolution.checkpoint)
  rw [show (branch.withoutCandidate resolution.checkpoint).position = resolution.branch from key]
    at here
  refine TakesBack.of_keeps (beginAt_takesBack steeredToo here isOpen remaining ?_ ?_ ?_)
    (keeps_setBranch _ _ _ _)
  · intro position other foundOther openOther
    rcases setBranch_cases foundOther with ⟨same, _⟩ | ⟨_, old⟩
    · exact Nat.le_of_eq (key ▸ same)
    · exact attempts.first old openOther
  · intro lower checkpoint upTo known
    exact attempts.armed lower checkpoint (by simp only at upTo; omega) known
  · intro nextPoint nextThere address member
    simp only [Std.ExtTreeSet.mem_insertMany_list] at member
    have before := Nat.le_of_lt (steered.describes.increasing earlier nextThere there)
    apply Recording.Untouched.mono before
    rcases member with released | dropped
    · exact attempts.bytes there address (Or.inr released)
    · exact candidateBytes_untouched steerable there address (by simpa using dropped)

theorem Attempts.release {resolution : Resolution}
    (attempts : engine.Attempts genuine executions resolution)
    (active : engine.active = some resolution) {closed noted : Branch} {text : String}
    (key : closed.position = resolution.branch) (shut : ¬ closed.isOpen)
    (steered : ((engine.setBranch closed).noteBranch noted text).Steered genuine executions) :
    engine.TakesBack genuine executions
      ((engine.setBranch closed).noteBranch noted text).release := by
  refine TakesBack.of_keeps (release_takesBack steered active attempts.armed attempts.target ?_)
    (keeps_setBranch _ _ _ _)
  intro position other foundOther openOther
  rcases setBranch_cases foundOther with ⟨_, rfl⟩ | ⟨different, old⟩
  · exact absurd openOther shut
  · have upTo := attempts.first old openOther
    rw [key] at different
    omega

theorem retry_takesBack {resolution : Resolution}
    (attempts : engine.Attempts genuine executions resolution)
    (active : engine.active = some resolution) :
    engine.TakesBack genuine executions engine.retry := by
  obtain ⟨branch, found, isOpen, latest⟩ := attempts.branch
  have steered := attempts.steered
  have steerable := steered.branch found
  simp only [retry, active]
  split
  · exact .attempt engine resolution (Keeps.refl engine) attempts
  · simp only [found]
    split
    · rename_i next remaining
      exact attempts.moveOn found isOpen latest remaining _
    · have undecided : (branch.withoutCandidate resolution.checkpoint).isUndecided :=
        isOpen_undecided isOpen
      obtain ⟨shape, finding, closed⟩ := bypass_spec undecided
      have key : (branch.withoutCandidate resolution.checkpoint).bypass.position =
          resolution.branch := by
        rw [shape]
        exact steerable.observed.key
      have steerableToo : engine.recording.Steerable executions resolution.branch
          (branch.withoutCandidate resolution.checkpoint).bypass := by
        refine steerable_of_kept steerable ?_ ?_ fun stillOpen => absurd stillOpen closed
        · rw [shape]
          exact ⟨rfl, rfl, rfl, rfl⟩
        · rw [shape]
          exact getElem?_withoutCandidate
      have supported : (branch.withoutCandidate resolution.checkpoint).bypass.finding.Supported genuine
          engine.input.length := by
        rw [finding, finding_withoutCandidate]
        exact steered.supported.current found
      exact attempts.release active key closed
        (steered.setBranch _ (key.symm ▸ steerableToo) supported branch _)

theorem acceptFlip_takesBack {resolution : Resolution}
    (attempts : engine.Attempts genuine executions resolution)
    (active : engine.active = some resolution)
    (length : resolution.attemptedInput.length = engine.input.length)
    (flips : ∀ {branch : Branch}, engine.branches[resolution.branch]? = some branch →
      branch.isUndecided →
        genuine (branch.resolve resolution.attemptedInput).finding resolution.attemptedInput) :
    engine.TakesBack genuine executions engine.acceptFlip := by
  obtain ⟨branch, found, isOpen, _⟩ := attempts.branch
  have steered := attempts.steered
  have undecided := isOpen_undecided isOpen
  obtain ⟨finding, _, closed⟩ :=
    resolve_spec undecided (steered.unflipped found undecided) resolution.attemptedInput
  have key : (branch.resolve resolution.attemptedInput).position = resolution.branch :=
    (congrArg Finding.position finding).trans (steered.branch found).observed.key
  simp only [acceptFlip, active, found]
  exact attempts.release active key closed
    (steered.resolve found undecided length (flips found undecided) _)

theorem Attempts.creditDivergence {resolution : Resolution}
    (attempts : engine.Attempts genuine executions resolution)
    (length : resolution.attemptedInput.length = engine.input.length)
    (earlier : Position.previous engine.position ≠ resolution.branch)
    (flips : ∀ {branch : Branch}, engine.branches[Position.previous engine.position]? = some branch →
      branch.isUndecided →
        genuine (branch.resolve resolution.attemptedInput).finding resolution.attemptedInput) :
    Keeps engine (engine.creditDivergence resolution) ∧
      (engine.creditDivergence resolution).active = engine.active ∧
      (engine.creditDivergence resolution).Attempts genuine executions resolution := by
  have steered := attempts.steered
  unfold Engine.creditDivergence
  split
  · rename_i branch found
    split
    · rename_i undecided
      have steeredToo := steered.resolve found undecided length (flips found undecided)
        ("Branch at position " ++ toString (Position.previous engine.position) ++
          " flipped while resolving another branch")
      obtain ⟨finding, _, closed⟩ :=
        resolve_spec undecided (steered.unflipped found undecided) resolution.attemptedInput
      have key : (branch.resolve resolution.attemptedInput).position =
          Position.previous engine.position :=
        (congrArg Finding.position finding).trans (steered.branch found).observed.key
      obtain ⟨target, foundTarget, isOpen, latest⟩ := attempts.branch
      refine ⟨keeps_setBranch _ _ _ _, rfl, steeredToo, ⟨target, ?_, isOpen, latest⟩, ?_,
        attempts.armed, attempts.bytes⟩
      · simp only [noteBranch, note, Engine.setBranch, Std.ExtTreeMap.getElem?_insert,
          Nat.compare_eq_eq, key, earlier, if_false, foundTarget]
      · intro position other foundOther openOther
        rcases setBranch_cases foundOther with ⟨_, rfl⟩ | ⟨_, old⟩
        · exact absurd openOther closed
        · exact attempts.first old openOther
    · exact ⟨Keeps.refl engine, rfl, attempts⟩
  · exact ⟨Keeps.refl engine, rfl, attempts⟩

structure Forwards (engine : Engine) (genuine : Finding → List UInt8 → Prop)
    (executions : List Execution) : Prop where
  steered : engine.Steered genuine executions
  idle : engine.active = none
  base : engine.basePosition ≤ engine.position
  pending : ∃ (position : Nat) (branch : Branch), engine.branches[position]? = some branch ∧
    branch.isOpen
  ahead : ∀ {position : Nat} {branch : Branch}, engine.branches[position]? = some branch →
    branch.isOpen → engine.position < position
  armed : ∀ {id : Nat} {checkpoint : Checkpoint}, engine.checkpoints[id]? = some checkpoint →
    checkpoint.position ≤ engine.position → checkpoint.armed

structure Attempting (engine : Engine) (genuine : Finding → List UInt8 → Prop)
    (executions : List Execution) (resolution : Resolution) : Prop where
  attempts : engine.Attempts genuine executions resolution
  active : engine.active = some resolution
  reached : ∀ {point : Point}, engine.recording.points[resolution.checkpoint]? = some point →
    point.position ≤ engine.position + 1
  before : engine.position ≤ resolution.branch
  length : resolution.attemptedInput.length = engine.input.length

theorem Attempting.base {resolution : Resolution}
    (attempting : engine.Attempting genuine executions resolution) :
    engine.basePosition ≤ engine.position := by
  have steered := attempting.attempts.steered
  obtain ⟨branch, found, _, latest⟩ := attempting.attempts.branch
  obtain ⟨point, there, _⟩ := candidate_position (steered.branch found) latest
  obtain ⟨index, _, _, place, _⟩ := steered.describes.point there
  have reached := attempting.reached there
  have base : engine.recording.basePosition = engine.basePosition := rfl
  omega

theorem armHere_eq (engine : Engine) :
    engine.armHere = { engine with
      checkpoints := engine.checkpoints.map fun checkpoint =>
        if checkpoint.position = engine.position then checkpoint.arm else checkpoint } := by
  unfold armHere
  simp only
  split
  · rfl
  · rename_i absent
    have unchanged : (engine.checkpoints.map fun checkpoint =>
        if checkpoint.position = engine.position then checkpoint.arm else checkpoint) =
          engine.checkpoints := by
      apply Array.ext_getElem?
      intro id
      rw [Array.getElem?_map]
      cases found : engine.checkpoints[id]? with
      | none => rfl
      | some checkpoint =>
          obtain ⟨bound, same⟩ := Array.getElem?_eq_some_iff.mp found
          have elsewhere : checkpoint.position ≠ engine.position := fun here =>
            absent (Array.any_eq_true.mpr ⟨id, bound, by simp [same, here]⟩)
          simp [elsewhere]
    rw [unchanged]

def advanced (engine : Engine) : Engine :=
  armHere { engine with position := Position.next engine.position }

theorem advanced_eq (engine : Engine) :
    engine.advanced = { engine with
      position := engine.position + 1
      checkpoints := engine.checkpoints.map fun checkpoint =>
        if checkpoint.position = engine.position + 1 then checkpoint.arm else checkpoint } :=
  armHere_eq _

theorem recording_advanced (engine : Engine) : engine.advanced.recording = engine.recording := by
  have same : (engine.checkpoints.map fun checkpoint =>
      if checkpoint.position = engine.position + 1 then checkpoint.arm else checkpoint).map
        Checkpoint.point = engine.checkpoints.map Checkpoint.point := by
    rw [Array.map_map]
    apply Array.map_congr_left
    intro checkpoint _
    simp only [Function.comp]
    split <;> rfl
  simp only [advanced_eq, recording, same]

@[simp]
theorem position_advanced (engine : Engine) : engine.advanced.position = engine.position + 1 := by
  rw [advanced_eq]

@[simp]
theorem branches_advanced (engine : Engine) : engine.advanced.branches = engine.branches := by
  rw [advanced_eq]

theorem replay_active {resolution : Resolution} (active : engine.active = some resolution)
    (execution : Execution) : engine.replay execution =
      if engine.position = resolution.branch then
        if engine.trace[engine.position]? = some execution.address then
          retry { engine with position := engine.position + 1 }
        else acceptFlip { engine with position := engine.position + 1 }
      else if engine.trace[engine.position]? = some execution.address then
        ⟨{ engine with position := engine.position + 1 }, .proceed execution.writes⟩
      else (({ engine with position := engine.position + 1 } : Engine).creditDivergence
        resolution).retry := by
  cases engine
  simp only at active
  subst active
  simp only [Engine.replay, Position.next, Position.index?, Nat.succ_ne_zero, if_false,
    Option.bind_some, Nat.add_sub_cancel, Nat.succ.injEq, ne_eq, ite_not]

theorem replay_idle (idle : engine.active = none) {execution : Execution}
    (follows : engine.trace[engine.position]? = some execution.address) :
    engine.replay execution =
      ({ engine with position := Position.next engine.position } : Engine).follow execution
        (some execution.address) := by
  have expected : ((Position.index? (Position.next engine.position)).bind fun index =>
      engine.trace[index]?) = some execution.address := by
    rw [← follows]
    simp [Position.index?, Position.next]
  simp only [Engine.replay, idle, expected]

theorem replay_open (idle : engine.active = none) {execution : Execution} {branch : Branch}
    (follows : engine.trace[engine.position]? = some execution.address)
    (found : engine.branches[engine.position + 1]? = some branch) (isOpen : branch.isOpen) :
    engine.replay execution = engine.advanced.beginResolution (engine.position + 1) := by
  rw [← branches_advanced, ← position_advanced] at found
  rw [replay_idle idle follows, ← position_advanced]
  unfold advanced at found ⊢
  simp only [follow, ne_eq, not_true_eq_false, if_false, found, isOpen, if_true]

theorem replay_closed (idle : engine.active = none) {execution : Execution}
    (follows : engine.trace[engine.position]? = some execution.address)
    (closed : ∀ branch, engine.branches[engine.position + 1]? = some branch → ¬ branch.isOpen) :
    engine.replay execution = ⟨engine.advanced, .proceed execution.writes⟩ := by
  rw [← branches_advanced, ← position_advanced] at closed
  rw [replay_idle idle follows]
  unfold advanced at closed ⊢
  simp only [follow, ne_eq, not_true_eq_false, if_false]
  split
  · rename_i branch found
    rw [if_neg (closed branch found)]
  · rfl

theorem Steered.advanced (steered : engine.Steered genuine executions) :
    engine.advanced.Steered genuine executions := by
  have same := recording_advanced engine
  obtain ⟨phase, describes, branch, supported⟩ := steered
  refine ⟨by rw [advanced_eq]; exact phase, same ▸ describes, fun found => ?_, ?_⟩
  · rw [branches_advanced] at found
    exact same ▸ branch found
  · rw [advanced_eq]
    exact ⟨supported.archived, supported.current⟩

theorem Forwards.armed_advanced (forwards : engine.Forwards genuine executions) {id : Nat}
    {checkpoint : Checkpoint} (found : engine.advanced.checkpoints[id]? = some checkpoint)
    (bound : checkpoint.position ≤ engine.position + 1) : checkpoint.armed := by
  simp only [advanced_eq, Array.getElem?_map, Option.map_eq_some_iff] at found
  obtain ⟨old, known, rfl⟩ := found
  split
  · rfl
  · rename_i elsewhere
    simp only [elsewhere, if_false] at bound
    exact forwards.armed known (by omega)

theorem Forwards.replay (forwards : engine.Forwards genuine executions) {execution : Execution}
    (follows : engine.trace[engine.position]? = some execution.address) :
    (engine.replay execution = ⟨engine.advanced, .proceed execution.writes⟩ ∧
      engine.advanced.Forwards genuine executions) ∨
      engine.advanced.TakesBack genuine executions (engine.replay execution) := by
  have steered := forwards.steered.advanced
  by_cases waits : ∃ branch, engine.branches[engine.position + 1]? = some branch ∧ branch.isOpen
  · obtain ⟨branch, found, isOpen⟩ := waits
    rw [replay_open forwards.idle follows found isOpen]
    refine Or.inr (beginResolution_takesBack steered (branches_advanced engine ▸ found) isOpen ?_
      forwards.armed_advanced)
    rw [branches_advanced]
    exact forwards.ahead
  · have closed : ∀ branch, engine.branches[engine.position + 1]? = some branch → ¬ branch.isOpen :=
      fun branch found isOpen => waits ⟨branch, found, isOpen⟩
    refine Or.inl ⟨replay_closed forwards.idle follows closed, steered, ?_, ?_, ?_, ?_, ?_⟩
    · rw [advanced_eq]
      exact forwards.idle
    · rw [advanced_eq]
      exact Nat.le_succ_of_le forwards.base
    · rw [branches_advanced]
      exact forwards.pending
    · intro at_ branch found isOpen
      rw [branches_advanced] at found
      rw [position_advanced]
      rcases Nat.lt_or_eq_of_le (Nat.succ_le_of_lt (forwards.ahead found isOpen)) with later | here
      · exact later
      · rw [← here] at found
        exact absurd isOpen (closed branch found)
    · intro id checkpoint found bound
      rw [position_advanced] at bound
      exact forwards.armed_advanced found bound

theorem Attempting.replay {resolution : Resolution}
    (attempting : engine.Attempting genuine executions resolution) {execution : Execution}
    (flips : engine.trace[engine.position]? ≠ some execution.address →
      ∀ {branch : Branch}, engine.branches[engine.position]? = some branch →
        branch.isUndecided →
          genuine (branch.resolve resolution.attemptedInput).finding resolution.attemptedInput) :
    (engine.replay execution =
        ⟨{ engine with position := engine.position + 1 }, .proceed execution.writes⟩ ∧
      engine.trace[engine.position]? = some execution.address ∧
      ({ engine with position := engine.position + 1 } : Engine).Attempting genuine executions
        resolution) ∨
      engine.TakesBack genuine executions (engine.replay execution) := by
  have keeps : Keeps engine { engine with position := engine.position + 1 } := ⟨rfl, rfl, rfl, rfl⟩
  obtain ⟨⟨⟨phase, describes, branch, supported⟩, target, first, armed, bytes⟩, active, reached,
    before, length⟩ := attempting
  have attempts : ({ engine with position := engine.position + 1 } : Engine).Attempts genuine
      executions resolution :=
    ⟨⟨phase, describes, branch, supported.archived, supported.current⟩, target, first, armed, bytes⟩
  rw [replay_active active]
  split
  · rename_i here
    split
    · exact Or.inr ((retry_takesBack attempts active).of_keeps keeps)
    · rename_i diverges
      exact Or.inr ((acceptFlip_takesBack attempts active length fun found =>
        flips diverges (here ▸ found)).of_keeps keeps)
  · rename_i elsewhere
    split
    · rename_i agrees
      refine Or.inl ⟨rfl, agrees, attempts, active, fun there => ?_, ?_, length⟩
      · exact Nat.le_succ_of_le (reached there)
      · simp only
        omega
    · rename_i diverges
      obtain ⟨keepsCredit, activeCredit, credited⟩ := attempts.creditDivergence length elsewhere
        (flips diverges)
      exact Or.inr ((retry_takesBack credited (activeCredit.trans active)).of_keeps
        (keeps.trans keepsCredit))

theorem Attempting.replayExit {resolution : Resolution}
    (attempting : engine.Attempting genuine executions resolution) :
    engine.TakesBack genuine executions engine.replayExit := by
  simp only [Engine.replayExit, attempting.active, Option.isSome_some, if_true]
  exact retry_takesBack attempting.attempts attempting.active

theorem Tainting.endTainting (tainting : engine.Tainting executions)
    (supported : engine.Supported genuine) :
    engine.TakesBack genuine executions engine.endTainting := by
  have measured : ({ engine with
      tracedLength := Position.stepsSince engine.position engine.basePosition } : Engine).Tainting
        executions :=
    ⟨tainting.phase, tainting.describes, tainting.position, tainting.armed, tainting.branch,
      tainting.follows, tainting.sameInput⟩
  obtain ⟨branches, outcomes, surveyed, retold⟩ := measured.surveyAll
  simp only [Engine.endTainting, surveyed]
  have steered : ∀ (message : LogEntry), ({ engine with
      tracedLength := Position.stepsSince engine.position engine.basePosition
      branches := branches
      seenOutcomes := outcomes
      log := engine.log.push message
      phase := .rollbacking } : Engine).Steered genuine executions := by
    intro message
    refine ⟨rfl, tainting.describes, fun found => ?_, supported.archived, fun found => ?_⟩
    · obtain ⟨_, _, _, steerable⟩ := retold.origin found
      exact steerable
    · obtain ⟨old, foundOld, finding, _⟩ := retold.origin found
      exact finding ▸ supported.current foundOld
  split
  · rename_i position next
    simp only [nextOpen?, Option.map_eq_some_iff] at next
    obtain ⟨branch, first, rfl⟩ := next
    obtain ⟨found, isOpen, smallest⟩ := (steered _).keyed.find?_eq_some first
    exact (beginResolution_takesBack (steered _) found isOpen smallest
      fun known _ => tainting.armed known).of_keeps ⟨rfl, rfl, rfl, rfl⟩
  · exact (concludePhase_takesBack (steered _).describes (steered _).keyed (steered _).supported
      fun _ _ _ known => tainting.armed known).of_keeps ⟨rfl, rfl, rfl, rfl⟩

theorem Tainting.taint (tainting : engine.Tainting executions) (supported : engine.Supported genuine)
    (instruction : Instruction) (execution : Execution) (processor : Processor) :
    engine.taint instruction execution processor =
        ⟨engine.recordInstruction execution processor, .record instruction execution⟩ ∨
      engine.TakesBack genuine executions (engine.taint instruction execution processor) := by
  have noted : ∀ message, engine.TakesBack genuine executions (engine.note message).endTainting := by
    intro message
    have taintingToo : (engine.note message).Tainting executions :=
      ⟨tainting.phase, tainting.describes, tainting.position, tainting.armed, tainting.branch,
        tainting.follows, tainting.sameInput⟩
    exact (taintingToo.endTainting ⟨supported.archived, supported.current⟩).of_keeps
      ⟨rfl, rfl, rfl, rfl⟩
  unfold Engine.taint
  split
  · exact Or.inr (noted _)
  · split
    · exact Or.inr (noted _)
    · exact Or.inl rfl

end Engine

end BranchSteer
