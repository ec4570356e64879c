import BranchSteer.Proofs.Standing
import BranchSteer.Proofs.Visits
import Mathlib.Algebra.BigOperators.Group.List.Basic
import Mathlib.Algebra.GroupWithZero.Nat
import Mathlib.Data.List.Nodup

/-!
The attempts of a rollbacking phase. Each belongs to one of the branches that the survey found to depend
on the input, and a branch is released once at most. So the rollbacks of the phase are bounded by what its
candidates allow.
-/

namespace BranchSteer

def attemptsAt (phase position : Nat) (attempts : List Attempt) : List Attempt :=
  attempts.filter fun attempt => attempt.phase = phase ∧ attempt.branch = position

namespace Selection

/-- What the branches of a phase allow for: each a restored input, and all attempts at its candidates. -/
def effort (selection : Selection) (limit : Nat) : Nat :=
  ((selection.branches.inTraceOrder.filter Branch.dependsOnInput).map fun branch =>
    1 + (branch.candidates.keys.map (branch.allowance limit)).sum).sum

structure Explains (selection : Selection) (limit : Nat) (attempts : List Attempt) : Prop where
  keyed : selection.branches.Keyed
  numbered : ∀ {position : Nat} {selected : Branch},
    selection.branches[position]? = some selected → selected.phase = selection.phase
  visits : ∀ {position : Nat} {selected : Branch}, selection.branches[position]? = some selected →
    selected.dependsOnInput →
      selection.Visits limit selected (attemptsAt selection.phase position attempts)
  attempted : ∀ attempt ∈ attempts, attempt.phase = selection.phase → ∃ selected,
    selection.branches[attempt.branch]? = some selected ∧ selected.dependsOnInput

end Selection

structure Branch.Follows (selected branch : Branch) (limit : Nat) (made : List Attempt) : Prop where
  phase : branch.phase = selected.phase
  position : branch.position = selected.position
  inputDependencies : branch.inputDependencies = selected.inputDependencies
  givenUp : branch.isBypassed → selected.isBypassed ∨ selected.Spent limit made

/-- Each rollback of a phase was an attempt, or it restored the input behind a branch of its own that is
not open any more. -/
def Engine.Counts (engine : Engine) (phase : Nat) (attempts : List Attempt) : Prop :=
  ∃ restored : List Nat, restored.Nodup ∧
    (∀ position ∈ restored, ∃ branch, engine.branches[position]? = some branch ∧
      branch.dependsOnInput ∧ ¬ branch.isOpen) ∧
    engine.rollbacksInPhase =
      attempts.countP (fun attempt => attempt.phase = phase) + restored.length

/-- An engine in the rollbacking phase that goes with a selection, behind some attempts. -/
structure Engine.WorksThrough (engine : Engine) (selection : Selection) (limit : Nat)
    (attempts : List Attempt) : Prop where
  limited : engine.config.attemptLimit = limit
  phase : selection.phase = engine.phaseNumber
  input : selection.input = engine.input
  baseInput : selection.baseInput = engine.baseInput
  explains : selection.Explains limit attempts
  shared : ∀ {position : Nat} {selected : Branch},
    selection.branches[position]? = some selected → selected.Shared
  follows : ∀ {position : Nat} {branch : Branch}, engine.branches[position]? = some branch →
    ∃ selected, selection.branches[position]? = some selected ∧
      selected.Follows branch limit (attemptsAt selection.phase position attempts)
  waits : ∀ {position : Nat} {branch : Branch}, engine.branches[position]? = some branch →
    branch.isOpen → engine.active.map (·.branch) ≠ some position →
      ∃ selected, selection.branches[position]? = some selected ∧
        branch.candidates = selected.candidates ∧
        attemptsAt selection.phase position attempts = []
  tries : ∀ resolution, engine.active = some resolution → 1 ≤ resolution.attempts ∧
    ∃ selected branch, selection.branches[resolution.branch]? = some selected ∧
      engine.branches[resolution.branch]? = some branch ∧ branch.isOpen ∧
      selection.Tries limit selected branch
        (attemptsAt selection.phase resolution.branch attempts) resolution
  counts : engine.Counts selection.phase attempts

section

variable {α β : Type} (owns : β → α → Bool) {bound : β → Nat}

theorem length_le_sum {items : List α} {owners : List β}
    (owned : ∀ item ∈ items, ∃ owner ∈ owners, owns owner item)
    (each : ∀ owner ∈ owners, items.countP (owns owner) ≤ bound owner) :
    items.length ≤ (owners.map bound).sum := by
  induction owners generalizing items with
  | nil =>
      have nothing : items = [] :=
        List.eq_nil_iff_forall_not_mem.mpr fun item member => by simpa using owned item member
      simp [nothing]
  | cons owner rest ih =>
      have others : (items.filter fun item => !owns owner item).length ≤ (rest.map bound).sum := by
        refine ih (fun item member => ?_) fun other listed => ?_
        · obtain ⟨listed, foreign⟩ := List.mem_filter.mp member
          obtain ⟨other, known, belongs⟩ := owned item listed
          rcases List.mem_cons.mp known with rfl | later
          · simp [belongs] at foreign
          · exact ⟨other, later, belongs⟩
        · exact Nat.le_trans (List.filter_sublist.countP_le)
            (each other (List.mem_cons_of_mem _ listed))
      have own := each owner List.mem_cons_self
      have split := items.length_eq_countP_add_countP (owns owner)
      rw [← List.countP_eq_length_filter] at others
      simp only [Bool.not_eq_true, Bool.decide_eq_false] at split
      rw [List.map_cons, List.sum_cons]
      omega

end

section

variable {selection : Selection} {limit : Nat} {attempts : List Attempt} {attempt : Attempt}

theorem attemptsAt_concat (phase position : Nat) (attempts : List Attempt) (attempt : Attempt) :
    attemptsAt phase position (attempts ++ [attempt]) = attemptsAt phase position attempts ++
      if attempt.phase = phase ∧ attempt.branch = position then [attempt] else [] := by
  simp only [attemptsAt, List.filter_append]
  split <;> simp_all

theorem attemptsAt_concat_of_ne {phase position : Nat}
    (elsewhere : attempt.phase ≠ phase ∨ attempt.branch ≠ position) :
    attemptsAt phase position (attempts ++ [attempt]) = attemptsAt phase position attempts := by
  rw [attemptsAt_concat, if_neg (by rcases elsewhere with h | h <;> simp [h]), List.append_nil]

theorem attemptsAt_eq_nil {phase : Nat} (elsewhere : ∀ attempt ∈ attempts, attempt.phase ≠ phase)
    (position : Nat) : attemptsAt phase position attempts = [] := by
  simp only [attemptsAt, List.filter_eq_nil_iff, decide_eq_true_eq, not_and]
  exact fun attempt member same => absurd same (elsewhere attempt member)

namespace Selection

theorem Visits.length_le {selected : Branch} {made : List Attempt}
    (visits : selection.Visits limit selected made) :
    made.length ≤ (selected.candidates.keys.map (selected.allowance limit)).sum := by
  refine length_le_sum (fun id attempt => attempt.checkpoint = id) (fun attempt member => ?_)
    fun id _ => ?_
  · exact ⟨attempt.checkpoint, Std.ExtTreeMap.mem_keys.mpr (visits.perturbs attempt member).1, by simp⟩
  · have limited := visits.limited id
    rwa [attemptsFrom, ← List.countP_eq_length_filter] at limited

theorem Explains.rollbacks_le (explains : selection.Explains limit attempts) {restored : List Nat}
    (distinct : restored.Nodup)
    (each : ∀ position ∈ restored, ∃ selected, selection.branches[position]? = some selected ∧
      selected.dependsOnInput) :
    attempts.countP (fun attempt => attempt.phase = selection.phase) + restored.length ≤
      selection.effort limit := by
  have listed : ∀ {position : Nat} {selected : Branch},
      selection.branches[position]? = some selected → selected.dependsOnInput →
        selected ∈ selection.branches.inTraceOrder.filter Branch.dependsOnInput := by
    intro position selected found depends
    exact List.mem_filter.mpr ⟨Flow.Branches.mem_of_getElem? found, depends⟩
  have attempted : (attempts.filter fun attempt => attempt.phase = selection.phase).length ≤
      ((selection.branches.inTraceOrder.filter Branch.dependsOnInput).map fun branch =>
        (branch.candidates.keys.map (branch.allowance limit)).sum).sum := by
    refine length_le_sum (fun branch attempt => attempt.branch = branch.position)
      (fun attempt member => ?_) fun branch member => ?_
    · obtain ⟨known, phase⟩ := List.mem_filter.mp member
      obtain ⟨selected, found, depends⟩ := explains.attempted attempt known (by simpa using phase)
      exact ⟨selected, listed found depends, by simp [explains.keyed _ _ found]⟩
    · obtain ⟨known, depends⟩ := List.mem_filter.mp member
      have found := explains.keyed.getElem?_of_mem known
      have bound := (explains.visits found depends).length_le
      rw [List.countP_filter, List.countP_eq_length_filter]
      refine Nat.le_trans (Nat.le_of_eq (congrArg List.length ?_)) bound
      exact List.filter_congr fun attempt _ => by simp [Bool.and_comm]
  have released : restored.length ≤
      ((selection.branches.inTraceOrder.filter Branch.dependsOnInput).map fun _ => 1).sum := by
    refine length_le_sum (fun branch position => position = branch.position)
      (fun position member => ?_) fun branch _ => ?_
    · obtain ⟨selected, found, depends⟩ := each position member
      exact ⟨selected, listed found depends, by simp [explains.keyed _ _ found]⟩
    · exact List.nodup_iff_count_le_one.mp distinct branch.position
  rw [← List.countP_eq_length_filter] at attempted
  rw [effort, List.sum_map_add]
  omega

theorem Explains.concat (explains : selection.Explains limit attempts) {selected : Branch}
    (found : selection.branches[attempt.branch]? = some selected) (depends : selected.dependsOnInput)
    (visits : selection.Visits limit selected
      (attemptsAt selection.phase attempt.branch (attempts ++ [attempt]))) :
    selection.Explains limit (attempts ++ [attempt]) := by
  refine ⟨explains.keyed, explains.numbered, fun {position other} there dependsToo => ?_,
    fun other member same => ?_⟩
  · by_cases here : attempt.branch = position
    · subst here
      rw [found, Option.some.injEq] at there
      exact there ▸ visits
    · rw [attemptsAt_concat_of_ne (Or.inr here)]
      exact explains.visits there dependsToo
  · rcases List.mem_append.mp member with old | last
    · exact explains.attempted other old same
    · obtain rfl := List.mem_singleton.mp last
      exact ⟨selected, found, depends⟩

theorem Explains.concat_of_ne (explains : selection.Explains limit attempts)
    (elsewhere : attempt.phase ≠ selection.phase) :
    selection.Explains limit (attempts ++ [attempt]) := by
  refine ⟨explains.keyed, explains.numbered, fun found depends => ?_, fun other member same => ?_⟩
  · rw [attemptsAt_concat_of_ne (Or.inl elsewhere)]
    exact explains.visits found depends
  · rcases List.mem_append.mp member with old | last
    · exact explains.attempted other old same
    · exact absurd same (List.mem_singleton.mp last ▸ elsewhere)

end Selection

end

namespace Branch.Follows

variable {selected old new : Branch} {limit : Nat} {made : List Attempt}

theorem dependsOnInput (follows : selected.Follows old limit made) :
    old.dependsOnInput = selected.dependsOnInput := by
  rw [Branch.dependsOnInput, Branch.dependsOnInput, follows.inputDependencies]

theorem spared (follows : selected.Follows old limit made) (spared : old.Spared new) :
    selected.Follows new limit made :=
  ⟨spared.phase.trans follows.phase, spared.position.trans follows.position,
    spared.inputDependencies.trans follows.inputDependencies,
    fun bypassed => follows.givenUp (spared.isBypassed ▸ bypassed)⟩

end Branch.Follows

theorem Flow.Branches.Retold.closed {before after : Flow.Branches} {place position : Nat}
    {here : Branch → Branch → Prop} {old branch : Branch}
    (told : Retold (Branch.Only here place) before after) (found : before[place]? = some old)
    (isOpen : old.isOpen) (known : before[position]? = some branch) (depends : branch.dependsOnInput)
    (closed : ¬ branch.isOpen) :
    ∃ new, after[position]? = some new ∧ new.dependsOnInput ∧ ¬ new.isOpen := by
  obtain ⟨new, there, ⟨rfl, _⟩ | ⟨_, spared⟩⟩ := told.exists_only known
  · rw [found, Option.some.injEq] at known
    exact absurd isOpen (known ▸ closed)
  · exact ⟨new, there, spared.dependsOnInput ▸ depends, mt spared.isOpen closed⟩

namespace Engine

variable {engine base middle after : Engine} {selection : Selection} {limit : Nat}
  {attempts : List Attempt} {executions : List Execution} {resolution : Resolution}
  {old record : Branch}

theorem Tainting.observed_of_surveys (tainting : engine.Tainting executions)
    (surveys : engine.Surveys base) {position : Nat} {branch : Branch}
    (found : base.branches[position]? = some branch) :
    branch.position = position ∧ branch.phase = engine.phaseNumber := by
  obtain ⟨surveyed, selects, branches⟩ := surveys.selects
  obtain ⟨_, _, same, retold⟩ := tainting.surveyAll
  rw [selects, Except.ok.injEq] at same
  subst same
  obtain ⟨_, _, _, steerable⟩ := retold.origin (branches ▸ found)
  exact ⟨steerable.observed.key, steerable.observed.phase⟩

theorem Counts.attempted {attempt : Attempt} {here : Branch → Branch → Prop} {place : Nat}
    (counts : base.Counts attempt.phase attempts) (found : base.branches[place]? = some old)
    (isOpen : old.isOpen)
    (told : Flow.Branches.Retold (Branch.Only here place) base.branches after.branches)
    (rollbacks : after.rollbacksInPhase = base.rollbacksInPhase + 1) :
    after.Counts attempt.phase (attempts ++ [attempt]) := by
  obtain ⟨restored, distinct, each, total⟩ := counts
  refine ⟨restored, distinct, fun position member => ?_, ?_⟩
  · obtain ⟨branch, known, depends, closed⟩ := each position member
    exact told.closed found isOpen known depends closed
  · rw [rollbacks, total, List.countP_append, List.countP_singleton]
    simp only [decide_true, if_true]
    omega

theorem Counts.released {phase place : Nat} {here : Branch → Branch → Prop}
    (counts : base.Counts phase attempts) (found : base.branches[place]? = some old)
    (isOpen : old.isOpen)
    (told : Flow.Branches.Retold (Branch.Only here place) base.branches after.branches)
    (closes : ∀ {new : Branch}, here old new →
      new.dependsOnInput = old.dependsOnInput ∧ ¬ new.isOpen)
    (rollbacks : after.rollbacksInPhase = base.rollbacksInPhase + 1) :
    after.Counts phase attempts := by
  obtain ⟨restored, distinct, each, total⟩ := counts
  have unlisted : place ∉ restored := by
    intro member
    obtain ⟨other, there, _, closed⟩ := each place member
    rw [found, Option.some.injEq] at there
    exact closed (there ▸ isOpen)
  refine ⟨place :: restored, List.nodup_cons.mpr ⟨unlisted, distinct⟩, fun position member => ?_, ?_⟩
  · rcases List.mem_cons.mp member with rfl | listed
    · obtain ⟨new, there, ⟨_, related⟩ | ⟨elsewhere, _⟩⟩ := told.exists_only found
      · obtain ⟨depends, closed⟩ := closes related
        exact ⟨new, there, depends ▸ (Bool.and_eq_true_iff.mp isOpen).1, closed⟩
      · exact absurd rfl elsewhere
    · obtain ⟨branch, known, depends, closed⟩ := each position listed
      exact told.closed found isOpen known depends closed
  · rw [rollbacks, total, List.length_cons, Nat.add_assoc]

theorem Tainting.works (tainting : engine.Tainting executions) (idle : engine.active = none)
    (surveys : engine.Surveys base) (limited : engine.config.attemptLimit = limit)
    (fresh : ∀ attempt ∈ attempts, attempt.phase ≠ engine.phaseNumber)
    (unused : engine.rollbacksInPhase = 0) :
    base.WorksThrough ⟨engine.phaseNumber, engine.input, engine.baseInput, base.branches⟩ limit
      attempts := by
  have frame := surveys.frame
  have active : base.active = none := (congrArg Engine.active frame).trans idle
  refine ⟨(congrArg (fun engine => engine.config.attemptLimit) frame).trans limited,
    (congrArg Engine.phaseNumber frame).symm, (congrArg Engine.input frame).symm,
    (congrArg Engine.baseInput frame).symm, ⟨?_, ?_, ?_, ?_⟩, tainting.shared surveys, ?_, ?_, ?_, ?_⟩
  · exact fun position branch found => (tainting.observed_of_surveys surveys found).1
  · exact fun found => (tainting.observed_of_surveys surveys found).2
  · intro position selected found depends
    rw [attemptsAt_eq_nil fresh]
    exact visits_nil _ limit selected
  · exact fun attempt member same => absurd same (fresh attempt member)
  · exact fun {position branch} found => ⟨branch, found, rfl, rfl, rfl, Or.inl⟩
  · exact fun {position branch} found _ _ => ⟨branch, found, rfl, attemptsAt_eq_nil fresh position⟩
  · simp [active]
  · refine ⟨[], .nil, by simp, ?_⟩
    have nothing : attempts.countP (fun attempt => attempt.phase = engine.phaseNumber) = 0 :=
      List.countP_eq_zero.mpr fun attempt member => by simpa using fresh attempt member
    rw [nothing]
    exact (congrArg Engine.rollbacksInPhase frame).trans unused

theorem WorksThrough.moved (works : engine.WorksThrough selection limit attempts)
    (frame : after = { engine with
      position := after.position
      checkpoints := after.checkpoints }) : after.WorksThrough selection limit attempts := by
  rw [frame]
  exact ⟨works.limited, works.phase, works.input, works.baseInput, works.explains,
    works.shared, works.follows, works.waits, works.tries, works.counts⟩

theorem WorksThrough.picks (works : base.WorksThrough selection limit attempts)
    (found : base.branches[resolution.branch]? = some old)
    (picks : base.Picks old record resolution)
    (length : base.baseInput.length = base.input.length)
    (inside : ∀ address ∈ resolution.perturbed, base.input.contains address) :
    ∃ selected, selection.branches[resolution.branch]? = some selected ∧
      selection.Tries limit selected record
        (attemptsAt selection.phase resolution.branch attempts) resolution ∧
      resolution.attempts < selected.allowance limit resolution.checkpoint := by
  have positive : ∀ (selected : Branch) (id : Nat), 0 < selected.allowance limit id := by
    intro selected id
    unfold Branch.allowance
    split <;> omega
  cases picks with
  | first checkpoint idle isOpen latest =>
      obtain ⟨selected, known, unchanged, nothing⟩ := works.waits found isOpen (by simp [idle])
      refine ⟨selected, known, ?_, positive selected _⟩
      rw [nothing]
      exact .fresh works.input works.baseInput length inside unchanged latest
  | again _ active left =>
      obtain ⟨begun, selected, branch, known, there, _, tries⟩ := works.tries resolution active
      rw [found, Option.some.injEq] at there
      subst there
      exact ⟨selected, known, tries, Nat.lt_of_le_of_ne tries.attempts_le
        (mt (tries.isExhausted_iff begun works.limited).mpr left)⟩
  | next before checkpoint active exhausted latest =>
      obtain ⟨begun, selected, branch, known, there, _, tries⟩ := works.tries before active
      have same : branch = old := Option.some.inj (there.symm.trans found)
      subst same
      exact ⟨selected, known, tries.moved works.input works.baseInput length inside
        ((tries.isExhausted_iff begun works.limited).mp exhausted) latest, positive selected _⟩

theorem Picks.active (picks : base.Picks old record resolution)
    {position : Nat} (elsewhere : position ≠ resolution.branch) :
    base.active.map (·.branch) ≠ some position := by
  cases picks with
  | first checkpoint idle isOpen latest => simp [idle]
  | again _ active left => simpa [active] using elsewhere.symm
  | next before checkpoint active exhausted latest =>
      simpa [active] using Ne.symm (show position ≠ before.branch from elsewhere)

theorem Attempts.inside (attempting : engine.Attempts anyFlip executions resolution) :
    ∀ address ∈ resolution.perturbed, engine.input.contains address := by
  obtain ⟨point, there, _⟩ := attempting.target
  exact fun address member => (attempting.bytes there address (Or.inl member)).inside

theorem WorksThrough.attempted (works : base.WorksThrough selection limit attempts)
    (frames : base.Frames middle) (found : base.branches[resolution.branch]? = some old)
    (picks : base.Picks old record resolution)
    (told : Flow.Branches.Retold (Branch.Only (fun _ new => new = record) resolution.branch)
      base.branches middle.branches) (rollsBack : middle.RollsBack after) {input : List UInt8}
    (attempting : after.Attempting anyFlip executions
      { spent resolution with attemptedInput := input }) {attempt : Attempt}
    (number : attempt.phase = base.phaseNumber) (place : attempt.branch = resolution.branch)
    (target : attempt.checkpoint = resolution.checkpoint) {buffer : InputBuffer}
    (performs : attempt.Performs buffer (nextPerturbation resolution)) :
    after.WorksThrough selection limit (attempts ++ [attempt]) := by
  have frame := frames.rollsBack rollsBack
  have config : after.config = base.config := (congrArg Engine.config frame :)
  have sameInput : after.input = base.input := (congrArg Engine.input frame :)
  have sameBase : after.baseInput = base.baseInput := (congrArg Engine.baseInput frame :)
  have phaseNumber : after.phaseNumber = base.phaseNumber := (congrArg Engine.phaseNumber frame :)
  have phase : attempt.phase = selection.phase := number.trans works.phase.symm
  have length : base.baseInput.length = base.input.length := by
    rw [← sameInput, ← sameBase]
    exact attempting.attempts.steered.describes.inputLength
  obtain ⟨selected, known, tries, left⟩ := works.picks found picks length
    fun address member => sameInput ▸ attempting.attempts.inside address member
  have grown : attemptsAt selection.phase resolution.branch (attempts ++ [attempt]) =
      attemptsAt selection.phase resolution.branch attempts ++ [attempt] := by
    rw [attemptsAt_concat, if_pos ⟨phase, place⟩]
  have kept : ∀ {position : Nat}, position ≠ resolution.branch →
      attemptsAt selection.phase position (attempts ++ [attempt]) =
        attemptsAt selection.phase position attempts :=
    fun elsewhere => attemptsAt_concat_of_ne (Or.inr (place ▸ elsewhere.symm))
  have triesToo : selection.Tries limit selected record
      (attemptsAt selection.phase resolution.branch attempts ++ [attempt])
      { spent resolution with attemptedInput := input } :=
    tries.concat left target performs input
  obtain ⟨current, there, isOpen, _⟩ := attempting.attempts.branch
  have same : current = record := by
    obtain ⟨_, _, ⟨_, same⟩ | ⟨elsewhere, _⟩⟩ := told.cases_only (rollsBack.branches ▸ there)
    · exact same
    · exact absurd rfl elsewhere
  subst same
  have wasOpen : old.isOpen := picks.isOpen ▸ isOpen
  obtain ⟨other, knownToo, follows⟩ := works.follows found
  obtain rfl : selected = other := Option.some.inj (known.symm.trans knownToo)
  have depends : selected.dependsOnInput :=
    follows.dependsOnInput ▸ (Bool.and_eq_true_iff.mp wasOpen).1
  have active : after.active.map (·.branch) = some resolution.branch := by
    rw [attempting.active]
    rfl
  refine ⟨config ▸ works.limited, phaseNumber ▸ works.phase, sameInput ▸ works.input,
    sameBase ▸ works.baseInput, ?_, works.shared, ?_, ?_, ?_, ?_⟩
  · refine works.explains.concat (place ▸ known) depends ?_
    rw [place, grown]
    exact triesToo.visits
  · intro position branch here
    obtain ⟨before, knownBefore, ⟨rfl, rfl⟩ | ⟨elsewhere, spared⟩⟩ :=
      told.cases_only (rollsBack.branches ▸ here)
    · obtain ⟨samePhase, samePosition, _⟩ := picks.filed
      refine ⟨selected, known, samePhase.trans follows.phase, samePosition.trans follows.position,
        picks.inputDependencies.trans follows.inputDependencies, fun bypassed => ?_⟩
      simp [(Branch.isUndecided_iff _).mp (isOpen_undecided isOpen)] at bypassed
    · obtain ⟨another, knownThere, followsThere⟩ := works.follows knownBefore
      exact ⟨another, knownThere, (kept elsewhere).symm ▸ followsThere.spared spared⟩
  · intro position branch here waiting inactive
    obtain ⟨before, knownBefore, ⟨rfl, _⟩ | ⟨elsewhere, spared⟩⟩ :=
      told.cases_only (rollsBack.branches ▸ here)
    · exact absurd active inactive
    · obtain ⟨other, knownToo, unchanged, nothing⟩ :=
        works.waits knownBefore (spared.isOpen waiting) (picks.active elsewhere)
      exact ⟨other, knownToo, spared.candidates.trans unchanged, (kept elsewhere).trans nothing⟩
  · intro other activeToo
    rw [attempting.active, Option.some.injEq] at activeToo
    subst activeToo
    refine ⟨Nat.le_add_left 1 _, selected, current, known, there, isOpen, ?_⟩
    exact grown ▸ triesToo
  · rw [← phase]
    exact Counts.attempted (phase.symm ▸ works.counts) found wasOpen (rollsBack.branches ▸ told)
      (congrArg Engine.rollbacksInPhase frame :)

theorem WorksThrough.released (works : base.WorksThrough selection limit attempts)
    (frames : base.Frames middle) (active : base.active = some resolution)
    (told : Flow.Branches.Retold (Branch.Only (base.Shuts resolution) resolution.branch)
      base.branches middle.branches) (rollsBack : middle.RollsBack after)
    (idle : after.active = none) : after.WorksThrough selection limit attempts := by
  have frame := frames.rollsBack rollsBack
  have config : after.config = base.config := (congrArg Engine.config frame :)
  have sameInput : after.input = base.input := (congrArg Engine.input frame :)
  have sameBase : after.baseInput = base.baseInput := (congrArg Engine.baseInput frame :)
  have phaseNumber : after.phaseNumber = base.phaseNumber := (congrArg Engine.phaseNumber frame :)
  obtain ⟨begun, selected, branch, known, found, isOpen, tries⟩ := works.tries resolution active
  refine ⟨config ▸ works.limited, phaseNumber ▸ works.phase, sameInput ▸ works.input,
    sameBase ▸ works.baseInput, works.explains, works.shared, ?_, ?_, by simp [idle], ?_⟩
  · intro position new here
    obtain ⟨before, knownBefore, ⟨rfl, shuts⟩ | ⟨_, spared⟩⟩ :=
      told.cases_only (rollsBack.branches ▸ here)
    · obtain rfl : branch = before := Option.some.inj (found.symm.trans knownBefore)
      obtain ⟨other, knownToo, follows⟩ := works.follows found
      obtain rfl : selected = other := Option.some.inj (known.symm.trans knownToo)
      refine ⟨selected, known, shuts.phase.trans follows.phase,
        shuts.position.trans follows.position,
        shuts.inputDependencies.trans follows.inputDependencies, fun bypassed => Or.inr ?_⟩
      obtain ⟨exhausted, last⟩ := shuts.givenUp bypassed
      exact tries.spent ((tries.isExhausted_iff begun works.limited).mp exhausted) last
    · obtain ⟨other, knownToo, follows⟩ := works.follows knownBefore
      exact ⟨other, knownToo, follows.spared spared⟩
  · intro position new here waiting _
    obtain ⟨before, knownBefore, ⟨_, shuts⟩ | ⟨elsewhere, spared⟩⟩ :=
      told.cases_only (rollsBack.branches ▸ here)
    · exact absurd waiting shuts.closed
    · obtain ⟨other, knownToo, unchanged, nothing⟩ := works.waits knownBefore
        (spared.isOpen waiting) (by simpa [active] using elsewhere.symm)
      exact ⟨other, knownToo, spared.candidates.trans unchanged, nothing⟩
  · refine works.counts.released found isOpen (rollsBack.branches ▸ told) (fun shuts => ⟨?_, shuts.closed⟩)
      (congrArg Engine.rollbacksInPhase frame :)
    rw [Branch.dependsOnInput, Branch.dependsOnInput, shuts.inputDependencies]

theorem WorksThrough.rollbacks_le (works : engine.WorksThrough selection limit attempts) :
    engine.rollbacksInPhase ≤ selection.effort limit := by
  obtain ⟨restored, distinct, each, total⟩ := works.counts
  rw [total]
  refine works.explains.rollbacks_le distinct fun position member => ?_
  obtain ⟨branch, found, depends, _⟩ := each position member
  obtain ⟨selected, known, follows⟩ := works.follows found
  exact ⟨selected, known, follows.dependsOnInput ▸ depends⟩

end Engine

end BranchSteer
