import BranchSteer.Proofs.Advances
import BranchSteer.Proofs.History

/-!
Whether anything is left undecided. A phase is concluded only when none of its branches is left to flip,
from wherever that is done, and apart from that the engine stops only when its budget of rollbacks is spent
to the last.
-/

namespace BranchSteer

def Branch.Decided (branch : Branch) : Prop :=
  (branch.isResolved ∨ branch.isBypassed) ∧ ¬ (branch.isResolved ∧ branch.isBypassed)

theorem Branch.decided_of_not_isOpen {branch : Branch} (closed : ¬ branch.isOpen)
    (depends : branch.dependsOnInput) (exclusive : ¬ (branch.isResolved ∧ branch.isBypassed)) :
    branch.Decided := by
  refine ⟨?_, exclusive⟩
  by_cases resolved : branch.isResolved
  · exact Or.inl resolved
  · exact Or.inr (by simpa [isOpen, isUndecided, depends, resolved] using closed)

namespace Engine

/-- An engine that has left no branch of an earlier phase to flip, and none at all when it is finished,
unless its budget is exhausted. -/
structure Thorough (engine : Engine) : Prop where
  budget : engine.rollbacks ≤ engine.config.rollbackLimit
  archived : ∀ branch ∈ engine.archive, ¬ branch.isOpen
  underway : engine.phase ≠ .finished → engine.budgetExhausted = false
  closed : engine.phase = .finished → engine.budgetExhausted = false → engine.Closed
  spent : engine.budgetExhausted → engine.rollbacks = engine.config.rollbackLimit

variable {engine middle after seeking taken : Engine} {call : Call}

theorem Thorough.revises (thorough : engine.Thorough)
    (active : engine.phase = .tainting ∨ engine.phase = .rollbacking)
    (revises : engine.Revises middle) : middle.Thorough := by
  obtain ⟨phase, frame, _, _⟩ := revises
  have unspent : engine.budgetExhausted = false :=
    thorough.underway (by rcases active with same | same <;> simp [same])
  rw [frame]
  refine ⟨thorough.budget, thorough.archived, fun _ => unspent, fun finished => ?_, thorough.spent⟩
  simp [phase] at finished

theorem Thorough.rollsBack (thorough : engine.Thorough) (active : engine.phase ≠ .finished)
    (rollsBack : engine.RollsBack after) : after.Thorough := by
  obtain ⟨budget, frame⟩ := rollsBack
  have unspent := thorough.underway active
  rw [frame]
  refine ⟨budget, thorough.archived, fun _ => unspent, fun finished => absurd finished active,
    fun spent => ?_⟩
  simp [unspent] at spent

theorem Thorough.seeks (thorough : middle.Thorough) (closed : middle.Closed)
    (seeks : engine.Seeks call middle seeking) : seeking.Thorough ∧ seeking.Closed := by
  obtain ⟨summaries, log, shape⟩ := addSummary_eq middle
  have summed : middle.addSummary.Thorough ∧ middle.addSummary.Closed := by
    rw [shape]
    exact ⟨⟨thorough.budget, thorough.archived, thorough.underway, fun _ _ => closed,
      thorough.spent⟩, closed⟩
  rcases seeks.cases_takeSeed with rfl | rfl
  · exact summed
  · obtain ⟨archived, current⟩ := takeSeed_marks middle.addSummary
    have closedToo := summed.2.marked current
    refine ⟨?_, closedToo⟩
    rw [takeSeed_frame] at closedToo ⊢
    refine ⟨summed.1.budget, fun branch member => ?_, summed.1.underway, fun _ _ => closedToo,
      summed.1.spent⟩
    obtain ⟨old, listed, rfl | rfl⟩ := archived branch member
    · exact summed.1.archived _ listed
    · rw [isOpen_explore]
      exact summed.1.archived _ listed

theorem Thorough.ends (thorough : engine.Thorough) {exhausted : Bool}
    (closed : exhausted = false → engine.Closed) (ends : engine.Ends exhausted after) :
    after.Thorough := by
  have spent := ends.spent
  obtain ⟨log, rfl⟩ := ends.shape
  refine ⟨thorough.budget, thorough.archived, fun active => absurd rfl active,
    fun _ within => closed ?_, fun exhausts => ?_⟩
  · simp only [Bool.or_eq_false_iff] at within
    exact within.2
  · simp only [Bool.or_eq_true] at exhausts
    rcases exhausts with already | now
    · exact thorough.spent already
    · exact Nat.le_antisymm thorough.budget (spent now)

theorem Thorough.restarted (thorough : taken.Thorough) (closed : taken.Closed)
    (active : taken.phase ≠ .finished) (seed : List UInt8) (text : String) :
    ((taken.restarted seed).inform text).Thorough := by
  refine ⟨thorough.budget, fun branch member => ?_, fun _ => thorough.underway active,
    fun finished => ?_, thorough.spent⟩
  · simp only [inform, note, Engine.restarted, clearPhase, List.mem_append, List.mem_map] at member
    rcases member with old | ⟨current, listed, rfl⟩
    · exact thorough.archived branch old
    · obtain ⟨position, found⟩ := Flow.Branches.exists_of_mem listed
      exact closed position current found
  · simp [inform, note, Engine.restarted] at finished

theorem Thorough.advances (thorough : engine.Thorough) (advances : engine.Advances call after) :
    after.Thorough := by
  cases advances with
  | rest idle goesOn => exact thorough
  | receive capturing goesOn baseInput input log =>
      exact ⟨thorough.budget, thorough.archived, fun _ => thorough.underway (by simp [capturing]),
        nofun, thorough.spent⟩
  | record tainting goesOn _ frame branches =>
      rw [frame]
      exact ⟨thorough.budget, thorough.archived, thorough.underway, by simp [tainting],
        thorough.spent⟩
  | follow rollbacking goesOn position checkpoints =>
      exact ⟨thorough.budget, thorough.archived, thorough.underway, by simp [rollbacking],
        thorough.spent⟩
  | resolve active goesOn middle revises _ rollsBack =>
      exact (thorough.revises active revises).rollsBack (by simp [revises.phase]) rollsBack
  | exhaust active goesOn middle revises _ ends =>
      exact (thorough.revises active revises).ends (by simp) ends
  | finish active middle revises closed seeking seeks exhausted _ ends =>
      obtain ⟨thoroughToo, closedToo⟩ := (thorough.revises active revises).seeks closed seeks
      exact thoroughToo.ends (fun _ => closedToo) ends
  | restart active middle revises closed seeking seed decides found taken rollsBack text =>
      have seeks : engine.Seeks call middle seeking := .seed seeking seed decides found
      obtain ⟨thoroughToo, closedToo⟩ := (thorough.revises active revises).seeks closed seeks
      have rollbacking : seeking.phase = .rollbacking := seeks.phase.trans revises.phase
      refine (thoroughToo.rollsBack (by simp [rollbacking]) rollsBack).restarted ?_
        (by simp [rollsBack.phase, rollbacking]) seed text
      intro position branch found
      exact closedToo position branch (rollsBack.branches ▸ found)

theorem Advances.config (advances : engine.Advances call after) : after.config = engine.config := by
  cases advances with
  | rest idle goesOn => rfl
  | receive capturing goesOn baseInput input log => rfl
  | record tainting goesOn _ frame branches => exact (congrArg Engine.config frame :)
  | follow rollbacking goesOn position checkpoints => rfl
  | resolve active goesOn middle revises _ rollsBack =>
      exact rollsBack.config.trans revises.config
  | exhaust active goesOn middle revises _ ends =>
      exact ends.config.trans revises.config
  | finish active middle revises closed seeking seeks exhausted _ ends =>
      exact ends.config.trans (seeks.config.trans revises.config)
  | restart active middle revises closed seeking seed decides found taken rollsBack text =>
      have seeks : engine.Seeks call middle seeking := .seed seeking seed decides found
      exact rollsBack.config.trans (seeks.config.trans revises.config)

theorem thorough_initial (config : Config) (random : Random) : (initial config random).Thorough :=
  ⟨Nat.zero_le _, by simp [initial], fun _ => rfl, nofun, nofun⟩

theorem Situated.branches_of_starts (situated : engine.Situated)
    (starts : engine.phase = .tainting) (here : engine.position = engine.basePosition) :
    engine.branches.inTraceOrder = [] := by
  cases situated with
  | tainting executions tainting supported =>
      rw [List.eq_nil_iff_forall_not_mem]
      intro branch member
      obtain ⟨position, found⟩ := Flow.Branches.exists_of_mem member
      obtain ⟨index, execution, executed, place, _⟩ := (tainting.branch found).1.outcome
      obtain ⟨bound, _⟩ := List.getElem?_eq_some_iff.mp executed
      have size : engine.trace.size = engine.basePosition + executions.length :=
        tainting.describes.traceSize
      have last := tainting.position
      omega
  | waiting phase position trace checkpoints branches archive => simp [phase] at starts
  | forwarding executions forwards => simp [forwards.steered.phase] at starts
  | attempting executions resolution attempting =>
      simp [attempting.attempts.steered.phase] at starts
  | cleared executions steered idle checkpoints branches => simp [steered.phase] at starts
  | finished phase => simp [phase] at starts

/-- As long as no phase is cleared from outside, every record that depends on the input is decided when a
tainting phase starts, and when the engine is finished with rollbacks to spare. It is finished without any
left only if it has used them all. -/
theorem decided_of_afterCalls {config : Config} {random : Random} {calls : List Call}
    (keeps : ∀ call ∈ calls, call.request ≠ .clear)
    (reached : (initial config random).afterCalls calls = some engine) :
    (engine.phase = .tainting ∧ engine.position = engine.basePosition ∨
        engine.phase = .finished ∧ engine.budgetExhausted = false →
      ∀ branch ∈ engine.archive ++ engine.branches.inTraceOrder,
        branch.dependsOnInput → branch.Decided) ∧
    (engine.budgetExhausted →
      engine.phase = .finished ∧ engine.rollbacks = config.rollbackLimit) := by
  have situated := situated_of_afterCalls reached
  have thorough : engine.Thorough :=
    afterCalls_advances Thorough.advances (thorough_initial config random) keeps reached
  have sameConfig : engine.config = config :=
    @afterCalls_advances engine config random calls (fun engine => engine.config = config)
      (fun same advances => advances.config.trans same) rfl keeps reached
  constructor
  · intro rests branch member depends
    refine Branch.decided_of_not_isOpen ?_ depends (exclusive_of_afterCalls reached member)
    rcases List.mem_append.mp member with archived | current
    · exact thorough.archived branch archived
    · rcases rests with ⟨starts, here⟩ | ⟨finished, within⟩
      · rw [situated.branches_of_starts starts here] at current
        simp at current
      · obtain ⟨position, found⟩ := Flow.Branches.exists_of_mem current
        exact thorough.closed finished within position branch found
  · intro exhausted
    refine ⟨Classical.byContradiction fun active => ?_, sameConfig ▸ thorough.spent exhausted⟩
    simp [thorough.underway active] at exhausted

theorem decided_of_afterCalls_flipped :
    ∃ engine, (initial .default (.ofSeed 7)).afterCalls ([.blank (.input ⟨16, 2⟩)] ++ comparison false 108 ++
        [.blank .exit] ++ comparison false 200) = some engine ∧
      engine.phaseNumber = 1 ∧ ∃ branch ∈ engine.archive, branch.dependsOnInput ∧ branch.Decided := by
  obtain ⟨engine, reached, facts⟩ := (Option.any_eq_true _ _).mp
    (show ((initial .default (.ofSeed 7)).afterCalls ([.blank (.input ⟨16, 2⟩)] ++ comparison false 108 ++
      [.blank .exit] ++ comparison false 200)).any (fun engine =>
        Decidable.decide (engine.phaseNumber = 1 ∧ engine.phase = .tainting ∧
          engine.position = engine.basePosition) &&
            engine.archive.any Branch.dependsOnInput) = true by decide +kernel)
  simp only [Bool.and_eq_true, decide_eq_true_eq, List.any_eq_true] at facts
  obtain ⟨⟨number, starts⟩, branch, archived, depends⟩ := facts
  have keeps : ∀ call ∈ [.blank (.input ⟨16, 2⟩)] ++ comparison false 108 ++ [.blank .exit] ++
      comparison false 200, call.request ≠ .clear := by
    simp [comparison, Call.blank]
  exact ⟨engine, reached, number, branch, archived, depends,
    (decided_of_afterCalls keeps reached).1 (Or.inl starts) branch
      (List.mem_append_left _ archived) depends⟩

end Engine

end BranchSteer
