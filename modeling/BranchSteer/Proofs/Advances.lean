import BranchSteer.Proofs.Decisions

/-!
What a call makes of the engine that does not fail and clears no phase. It is told in full, and with it
everything that is counted: rollbacks, phases, their summaries and their records.
-/

namespace BranchSteer

structure Branch.Created (branch : Branch) (phase position : Nat) : Prop where
  phase : branch.phase = phase
  position : branch.position = position
  undecided : branch.isUndecided
  explored : branch.explored = false

theorem Branch.created (phase address position : Nat) (taken : Bool) (input : List UInt8) :
    ((create phase address position taken).remember taken input).Created phase position := by
  cases taken <;> exact ⟨rfl, rfl, rfl, rfl⟩

namespace Engine

structure RollsBack (engine after : Engine) : Prop where
  budget : engine.rollbacks < engine.config.rollbackLimit
  frame : after = { engine with
    position := after.position
    checkpoints := after.checkpoints
    active := after.active
    rollbacks := engine.rollbacks + 1
    rollbacksInPhase := engine.rollbacksInPhase + 1
    random := after.random }

structure Ends (engine : Engine) (exhausted : Bool) (after : Engine) : Prop where
  spent : exhausted → engine.config.rollbackLimit ≤ engine.rollbacks
  finished : ∃ active log,
    after = ({ engine with active := active, log := log } : Engine).finish exhausted

inductive Concludes (engine : Engine) : Decision → Prop
  | limited (limited : engine.config.phaseLimit ≠ 0 ∧
      engine.config.phaseLimit ≤ engine.phaseNumber + 1) (text : String) :
    Concludes _ ⟨(engine.addSummary.inform text).finish false, .stop⟩
  | nothing (seeking : Engine) (found : engine.addSummary.takeSeed = (seeking, none))
    (text : String) : Concludes _ ⟨(seeking.inform text).finish false, .stop⟩
  | seed (seeking : Engine) (seed : List UInt8)
    (found : engine.addSummary.takeSeed = (seeking, some seed)) :
    Concludes _ ⟨seeking, .restart seed⟩

/-- The engine behind the search for a seed that concludes a phase, unless no phase may follow. -/
inductive Seeks (engine : Engine) (call : Call) (middle : Engine) : Engine → Prop
  | limited (goesOn : engine.seed? call = none) : Seeks _ _ _ middle.addSummary
  | nothing (goesOn : engine.seed? call = none) (seeking : Engine)
    (found : middle.addSummary.takeSeed = (seeking, none)) : Seeks _ _ _ seeking
  | seed (seeking : Engine) (seed : List UInt8)
    (decides : engine.decision? call = some ⟨seeking, .restart seed⟩)
    (found : middle.addSummary.takeSeed = (seeking, some seed)) : Seeks _ _ _ seeking

inductive Advances (engine : Engine) (call : Call) : Engine → Prop
  | rest (idle : engine.phase = .capturing ∨ engine.phase = .finished)
    (goesOn : engine.seed? call = none) : Advances _ _ engine
  | receive (capturing : engine.phase = .capturing) (goesOn : engine.seed? call = none)
    (baseInput : List UInt8) (input : InputBuffer) (log : Array LogEntry) :
    Advances _ _ { engine with
      baseInput := baseInput
      input := input
      graph := .empty input
      phase := .tainting
      log := log }
  | record (tainting : engine.phase = .tainting) (goesOn : engine.seed? call = none)
    (after : Engine) (frame : after = { engine with
      position := after.position
      trace := after.trace
      graph := after.graph
      checkpoints := after.checkpoints
      branches := after.branches })
    (branches : after.branches = engine.branches ∨ ∃ position branch,
      branch.Created engine.phaseNumber position ∧
        after.branches = engine.branches.insert position branch) : Advances _ _ after
  | follow (rollbacking : engine.phase = .rollbacking) (goesOn : engine.seed? call = none)
    (position : Nat) (checkpoints : Array Checkpoint) :
    Advances _ _ { engine with position := position, checkpoints := checkpoints }
  | resolve (underway : engine.phase = .tainting ∨ engine.phase = .rollbacking)
    (goesOn : engine.seed? call = none) (middle : Engine) (revises : engine.Revises middle)
    (after : Engine) (rollsBack : middle.RollsBack after) : Advances _ _ after
  | exhaust (underway : engine.phase = .tainting ∨ engine.phase = .rollbacking)
    (goesOn : engine.seed? call = none) (middle : Engine) (revises : engine.Revises middle)
    (after : Engine) (ends : middle.Ends true after) : Advances _ _ after
  | finish (underway : engine.phase = .tainting ∨ engine.phase = .rollbacking)
    (middle : Engine) (revises : engine.Revises middle) (closed : middle.Closed)
    (seeking : Engine) (seeks : engine.Seeks call middle seeking) (exhausted : Bool)
    (after : Engine) (ends : seeking.Ends exhausted after) : Advances _ _ after
  | restart (underway : engine.phase = .tainting ∨ engine.phase = .rollbacking)
    (middle : Engine) (revises : engine.Revises middle) (closed : middle.Closed)
    (seeking : Engine) (seed : List UInt8)
    (decides : engine.decision? call = some ⟨seeking, .restart seed⟩)
    (found : middle.addSummary.takeSeed = (seeking, some seed)) (taken : Engine)
    (rollsBack : seeking.RollsBack taken) (text : String) :
    Advances _ _ ((taken.restarted seed).inform text)

variable {engine middle after : Engine} {decision : Decision} {call : Call}
  {memory changed : Memory} {action : Action}

theorem RollsBack.config (rollsBack : engine.RollsBack after) : after.config = engine.config :=
  (congrArg Engine.config rollsBack.frame :)

theorem RollsBack.phase (rollsBack : engine.RollsBack after) : after.phase = engine.phase :=
  (congrArg Engine.phase rollsBack.frame :)

theorem RollsBack.branches (rollsBack : engine.RollsBack after) :
    after.branches = engine.branches :=
  (congrArg Engine.branches rollsBack.frame :)

theorem finish_shape (engine : Engine) (exhausted : Bool) : ∃ log, engine.finish exhausted =
    { engine with
      budgetExhausted := engine.budgetExhausted || exhausted
      summaries := engine.addSummary.summaries
      log := log
      active := none
      phase := .finished } := by
  unfold finish addSummary
  simp only
  split <;> exact ⟨_, rfl⟩

theorem Ends.shape {exhausted : Bool} (ends : engine.Ends exhausted after) : ∃ log, after =
    { engine with
      budgetExhausted := engine.budgetExhausted || exhausted
      summaries := engine.addSummary.summaries
      log := log
      active := none
      phase := .finished } := by
  obtain ⟨active, text, rfl⟩ := ends.finished
  obtain ⟨log, shape⟩ := finish_shape { engine with active := active, log := text } exhausted
  refine ⟨log, ?_⟩
  rw [shape]
  unfold addSummary
  simp only
  split <;> rfl

theorem Seeks.cases_takeSeed {seeking : Engine} (seeks : engine.Seeks call middle seeking) :
    seeking = middle.addSummary ∨ seeking = middle.addSummary.takeSeed.1 := by
  cases seeks with
  | limited goesOn => exact Or.inl rfl
  | nothing goesOn _ found => exact Or.inr (congrArg Prod.fst found).symm
  | seed _ seed decides found => exact Or.inr (congrArg Prod.fst found).symm

theorem takeSeed_frame (engine : Engine) : engine.takeSeed.1 = { engine with
    branches := engine.takeSeed.1.branches
    archive := engine.takeSeed.1.archive
    seenOutcomes := engine.takeSeed.1.seenOutcomes } := by
  unfold takeSeed
  split
  · rfl
  · split <;> rfl

theorem Seeks.frame {seeking : Engine} (seeks : engine.Seeks call middle seeking) :
    seeking = { middle with
      branches := seeking.branches
      archive := seeking.archive
      seenOutcomes := seeking.seenOutcomes
      summaries := middle.addSummary.summaries
      log := middle.addSummary.log } := by
  obtain ⟨summaries, log, shape⟩ := addSummary_eq middle
  rcases seeks.cases_takeSeed with rfl | rfl
  · rw [shape]
  · have frame := takeSeed_frame middle.addSummary
    rw [shape] at frame ⊢
    exact frame

theorem Seeks.phase {seeking : Engine} (seeks : engine.Seeks call middle seeking) :
    seeking.phase = middle.phase :=
  (congrArg Engine.phase seeks.frame :)

theorem Seeks.config {seeking : Engine} (seeks : engine.Seeks call middle seeking) :
    seeking.config = middle.config :=
  (congrArg Engine.config seeks.frame :)

theorem Seeks.phaseNumber {seeking : Engine} (seeks : engine.Seeks call middle seeking) :
    seeking.phaseNumber = middle.phaseNumber :=
  (congrArg Engine.phaseNumber seeks.frame :)

theorem Ends.config {exhausted : Bool} (ends : engine.Ends exhausted after) :
    after.config = engine.config := by
  obtain ⟨log, rfl⟩ := ends.shape
  rfl

theorem rewind_answers {id : Nat} {perturbation : Perturbation}
    (done : engine.rewind memory id perturbation = ⟨after, changed, .ok action⟩) :
    engine.Ends true after ∧ action = .stop ∨
      engine.RollsBack after ∧ after.active = engine.active ∧
        ∃ processor, action = .rollback processor := by
  unfold rewind at done
  split at done
  · rename_i spent
    simp only [Reaction.mk.injEq, Except.ok.injEq] at done
    obtain ⟨rfl, _, rfl⟩ := done
    exact Or.inl ⟨⟨fun _ => spent, engine.active, _, rfl⟩, rfl⟩
  · rename_i left
    split at done
    · simp at done
    · split at done
      · simp at done
      · simp only at done
        split at done
        · simp at done
        · split at done
          · simp at done
          · simp only [Reaction.mk.injEq, Except.ok.injEq] at done
            obtain ⟨rfl, _, rfl⟩ := done
            exact Or.inr ⟨⟨Nat.lt_of_not_le left, rfl⟩, rfl, _, rfl⟩

theorem perturb_answers {resolution : Resolution}
    (done : engine.perturb memory resolution = ⟨after, changed, .ok action⟩) :
    engine.Ends true after ∨ engine.RollsBack after := by
  simp only [perturb] at done
  generalize shape : rewind _ _ _ _ = reaction at done
  obtain ⟨behind, memory, fault | answer⟩ := reaction
  · simp at done
  · rcases rewind_answers shape with
      ⟨⟨spent, active, log, rfl⟩, rfl⟩ | ⟨⟨budget, frame⟩, _, _, rfl⟩
    · simp only [Reaction.mk.injEq] at done
      exact Or.inl ⟨spent, active, log, done.1.symm⟩
    · simp only [Reaction.mk.injEq] at done
      obtain ⟨rfl, _⟩ := done
      refine Or.inr ⟨budget, ?_⟩
      rw [frame]

theorem explore_answers {seed : List UInt8}
    (done : engine.explore memory seed = ⟨after, changed, .ok action⟩) :
    (∃ exhausted, engine.Ends exhausted after) ∨
      ∃ taken text, engine.RollsBack taken ∧ after = (taken.restarted seed).inform text := by
  unfold explore at done
  split at done
  · simp only [Reaction.mk.injEq] at done
    exact Or.inl ⟨false, by simp, engine.active, _, done.1.symm⟩
  · generalize shape : rewind _ _ _ _ = reaction at done
    obtain ⟨behind, memory, fault | answer⟩ := reaction
    · simp at done
    · rcases rewind_answers shape with ⟨ends, rfl⟩ | ⟨rollsBack, _, _, rfl⟩
      · simp only [Reaction.mk.injEq] at done
        exact Or.inl ⟨true, done.1 ▸ ends⟩
      · simp only [Reaction.mk.injEq] at done
        exact Or.inr ⟨behind, _, rollsBack, done.1.symm⟩

theorem concludePhase_concludes (engine : Engine) : engine.Concludes engine.concludePhase := by
  have frame : engine.addSummary.config = engine.config ∧
      engine.addSummary.phaseNumber = engine.phaseNumber := by
    obtain ⟨summaries, log, shape⟩ := addSummary_eq engine
    rw [shape]
    exact ⟨rfl, rfl⟩
  simp only [concludePhase, frame.1, frame.2]
  split
  · rename_i limited
    exact .limited limited _
  · split
    · rename_i seeking seed found
      exact .seed seeking seed found
    · rename_i seeking found
      exact .nothing seeking found _

theorem Rules.advances (rules : engine.Rules decision)
    (underway : engine.phase = .tainting ∨ engine.phase = .rollbacking)
    (decides : engine.decision? call = some decision)
    (done : decision.carryOut memory = ⟨after, changed, .ok action⟩) :
    engine.Advances call after := by
  cases rules with
  | attempt middle revises resolution =>
      have goesOn : engine.seed? call = none := by simp [seed?, decides]
      rcases perturb_answers done with ends | rollsBack
      · exact .exhaust underway goesOn middle revises after ends
      · exact .resolve underway goesOn middle revises after rollsBack
  | restore middle revises id =>
      have goesOn : engine.seed? call = none := by simp [seed?, decides]
      have rewound : middle.rewind memory id .none = ⟨after, changed, .ok action⟩ := done
      rcases rewind_answers rewound with ⟨ends, _⟩ | ⟨rollsBack, _⟩
      · exact .exhaust underway goesOn middle revises after ends
      · exact .resolve underway goesOn middle revises after rollsBack
  | conclude middle revises closed =>
      generalize shape : middle.concludePhase = decision at decides done
      have concludes := concludePhase_concludes middle
      rw [shape] at concludes
      cases concludes with
      | limited limited text =>
          have goesOn : engine.seed? call = none := by simp [seed?, decides]
          simp only [Decision.carryOut, Reaction.mk.injEq] at done
          exact .finish underway middle revises closed _ (.limited goesOn) false after
            ⟨by simp, _, _, done.1.symm⟩
      | nothing seeking found text =>
          have goesOn : engine.seed? call = none := by simp [seed?, decides]
          simp only [Decision.carryOut, Reaction.mk.injEq] at done
          exact .finish underway middle revises closed _ (.nothing goesOn seeking found) false after
            ⟨by simp, _, _, done.1.symm⟩
      | seed seeking seed found =>
          rcases explore_answers done with ⟨exhausted, ends⟩ | ⟨taken, text, rollsBack, rfl⟩
          · exact .finish underway middle revises closed seeking (.seed seeking seed decides found)
              exhausted after ends
          · exact .restart underway middle revises closed seeking seed decides found taken rollsBack
              text
  | fail middle fault => simp [Decision.carryOut] at done

theorem Decides.advances (decided : engine.Decides decision)
    (decides : engine.decision? call = some decision)
    (done : decision.carryOut memory = ⟨after, changed, .ok action⟩) :
    engine.Advances call after := by
  cases decided with
  | rest idle order harmless =>
      have goesOn : engine.seed? call = none := by
        rcases harmless with rfl | rfl <;> simp [seed?, decides]
      have same : engine = after := by
        rcases harmless with rfl | rfl
        · exact congrArg Reaction.engine done
        · exact congrArg Reaction.engine done
      exact same ▸ .rest idle goesOn
  | record tainting instruction execution processor =>
      have goesOn : engine.seed? call = none := by simp [seed?, decides]
      have entered := (engine.recordInstruction execution processor).enter_entered memory
        instruction execution
      rw [show Engine.enter _ _ _ _ = _ from done] at entered
      cases entered with
      | plain checkpoints logged notBranch => exact .record tainting goesOn _ rfl (Or.inl rfl)
      | branch checkpoints logged taken outcome =>
          refine .record tainting goesOn _ rfl (Or.inr ⟨_, _, Branch.created _ execution.address
            (engine.recordInstruction execution processor).position taken engine.baseInput, ?_⟩)
          cases taken <;> rfl
  | follow rollbacking position checkpoints writes =>
      have goesOn : engine.seed? call = none := by simp [seed?, decides]
      obtain ⟨tracked, ⟨_, shape⟩ | ⟨access, shape⟩⟩ := ({ engine with
        position := position, checkpoints := checkpoints } : Engine).proceed_proceeded memory writes
      · rw [show Engine.proceed _ _ _ = _ from done] at shape
        simp only [Reaction.mk.injEq] at shape
        exact shape.1 ▸ .follow rollbacking goesOn position tracked
      · rw [show Engine.proceed _ _ _ = _ from done] at shape
        simp at shape
  | rule underway _ rules => exact rules.advances underway decides done

/-- Every call that does not fail and clears no phase advances the engine. -/
theorem Situated.advances (situated : engine.Situated) (keeps : call.request ≠ .clear)
    (done : engine.afterCall call = some after) : engine.Advances call after := by
  obtain ⟨memory, action, answered⟩ := afterCall_eq_some done
  cases decides : engine.decision? call with
  | some decision =>
      rw [answer_of_decision decides] at answered
      exact (situated.decides_of_decision decides).advances decides answered
  | none =>
      obtain ⟨machine, request⟩ := call
      have goesOn : engine.seed? ⟨machine, request⟩ = none := by simp [seed?, decides]
      cases request with
      | input buffer =>
          simp only [answer] at answered
          split at answered
          · rename_i behind received
            simp only [Reaction.mk.injEq] at answered
            obtain ⟨capturing, bytes, log, _, shape⟩ := receiveInput_eq_ok received
            rw [← answered.1, shape]
            exact .receive capturing goesOn bytes buffer log
          · simp at answered
      | instruction instruction execution => simp [decision?] at decides
      | exit => simp [decision?] at decides
      | clear => exact absurd rfl keeps

theorem afterCalls_advances {config : Config} {random : Random} {calls : List Call} {holds : Engine → Prop}
    (step : ∀ {engine after : Engine} {call : Call}, holds engine → engine.Advances call after →
      holds after)
    (start : holds (initial config random)) (keeps : ∀ call ∈ calls, call.request ≠ .clear)
    (reached : (initial config random).afterCalls calls = some engine) : holds engine := by
  have both : engine.Situated ∧ holds engine :=
    @afterCalls_preserve _ _ _ (fun engine => engine.Situated ∧ holds engine) _
      (fun ⟨situated, known⟩ keeps done =>
        ⟨situated.afterCall done, step known (situated.advances keeps done)⟩)
      ⟨situated_initial config random, start⟩ keeps reached
  exact both.2

end Engine

end BranchSteer
