import BranchSteer.Proofs.Runs

/-!
What a turn does, told in full. A turn that goes on records an instruction, lets one execute that the phase
has recorded before, or carries out a decision that takes the process back. The last turn of a run leaves
the engine behind its last callback.
-/

namespace BranchSteer

open Machine (Alike)

namespace Engine

inductive Rewinds (engine : Engine) (memory : Memory) : Reaction → Prop
  | exhausted (text : String) : Rewinds _ _ ⟨(engine.inform text).finish true, memory, .ok .stop⟩
  | failed (checkpoints : Array Checkpoint) (random : Random) (changed : Memory) (fault : Fault) :
    Rewinds _ _ ⟨{ engine with checkpoints := checkpoints, random := random }, changed, .error fault⟩
  | returned (checkpoints : Array Checkpoint) (random : Random) (position : Nat) (changed : Memory)
    (processor : Processor) :
    Rewinds _ _ ⟨{ engine with
        checkpoints := checkpoints
        random := random
        position := position
        rollbacks := engine.rollbacks + 1
        rollbacksInPhase := engine.rollbacksInPhase + 1 }, changed, .ok (.rollback processor)⟩

theorem rewind_rewinds (engine : Engine) (memory : Memory) (id : Nat)
    (perturbation : Perturbation) : engine.Rewinds memory (engine.rewind memory id perturbation) := by
  have unchanged : ∀ fault, engine.Rewinds memory ⟨engine, memory, .error fault⟩ :=
    .failed engine.checkpoints engine.random memory
  unfold rewind
  split
  · exact .exhausted _
  · split
    · exact unchanged _
    · split
      · exact unchanged _
      · simp only
        split
        · exact .failed _ _ _ _
        · split
          · exact .failed _ _ _ _
          · exact .returned _ _ _ _ _

end Engine

/-- A decision ended the run, and what was recorded is as it was. Unless the budget is exhausted, the run
was to be stopped or restarted. -/
structure Stops (decision : Decision) (after : Engine) : Prop where
  config : after.config = decision.engine.config
  rollbacks : after.rollbacks = decision.engine.rollbacks
  recording : after.recording = decision.engine.recording
  branches : after.branches = decision.engine.branches
  archive : after.archive = decision.engine.archive
  cause : after.budgetExhausted ∨ decision.order = .stop ∨ ∃ seed, decision.order = .restart seed

inductive Resumes (decision : Decision) (after : Engine) (changed : Memory) : Prop
  | attempt (resolution : Resolution) (order : decision.order = .attempt resolution)
    (branches : after.branches = decision.engine.branches)
    (archive : after.archive = decision.engine.archive)
    (active : after.active = some { Engine.spent resolution with
      attemptedInput := decision.engine.patchInput changed resolution.perturbed })
  | restore (id : Nat) (order : decision.order = .restore id)
    (branches : after.branches = decision.engine.branches)
    (archive : after.archive = decision.engine.archive)
  | restart (seed : List UInt8) (order : decision.order = .restart seed)
    (branches : after.branches = ∅)
    (archive : after.archive = decision.engine.archive ++
      decision.engine.branches.inTraceOrder.map fun branch => { branch with candidates := ∅ })

namespace Decision

variable {decision : Decision} {memory changed : Memory} {after : Engine}

theorem stops_finish (exhausted : Bool) {engine : Engine} (config : engine.config = decision.engine.config)
    (rollbacks : engine.rollbacks = decision.engine.rollbacks)
    (recording : engine.recording = decision.engine.recording)
    (branches : engine.branches = decision.engine.branches)
    (archive : engine.archive = decision.engine.archive)
    (cause : exhausted ∨ decision.order = .stop ∨ ∃ seed, decision.order = .restart seed) :
    Stops decision (engine.finish exhausted) := by
  obtain ⟨summaries, log, shape⟩ := engine.finish_eq exhausted
  rw [shape]
  refine ⟨config, rollbacks, recording, branches, archive, cause.imp (fun spent => ?_) id⟩
  simp [spent]

theorem carryOut_stops (done : decision.carryOut memory = ⟨after, changed, .ok .stop⟩) :
    Stops decision after := by
  obtain ⟨engine, order⟩ := decision
  cases order with
  | proceed writes =>
      obtain ⟨checkpoints, ⟨_, shape⟩ | ⟨access, shape⟩⟩ := engine.proceed_proceeded memory writes
      · simp [carryOut, shape] at done
      · simp [carryOut, shape] at done
  | record instruction execution =>
      have entered := engine.enter_entered memory instruction execution
      rw [show engine.enter memory instruction execution = _ from done] at entered
      cases entered
  | attempt resolution =>
      have rewinds := ({ engine with active := some (Engine.spent resolution) } : Engine).rewind_rewinds
        memory resolution.checkpoint (Engine.nextPerturbation resolution)
      simp only [carryOut, Engine.perturb] at done
      simp only [Engine.spent] at rewinds
      generalize Engine.rewind _ _ _ _ = reaction at done rewinds
      cases rewinds with
      | exhausted text =>
          simp only [Reaction.mk.injEq] at done
          obtain ⟨rfl, _⟩ := done
          exact stops_finish true rfl rfl rfl rfl rfl (Or.inl rfl)
      | failed checkpoints random changed fault => simp at done
      | returned checkpoints random position changed processor => simp at done
  | restore id =>
      have rewinds := engine.rewind_rewinds memory id .none
      rw [show engine.rewind memory id .none = _ from done] at rewinds
      cases rewinds with
      | exhausted text => exact stops_finish true rfl rfl rfl rfl rfl (Or.inl rfl)
  | restart seed =>
      have cause : ∃ other, (⟨engine, .restart seed⟩ : Decision).order = .restart other := ⟨seed, rfl⟩
      simp only [carryOut, Engine.explore] at done
      split at done
      · simp only [Reaction.mk.injEq] at done
        obtain ⟨rfl, _⟩ := done
        exact stops_finish false rfl rfl rfl rfl rfl (Or.inr (Or.inr cause))
      · have rewinds := engine.rewind_rewinds memory 0 (.input seed)
        generalize engine.rewind memory 0 (.input seed) = reaction at done rewinds
        cases rewinds with
        | exhausted text =>
            simp only [Reaction.mk.injEq] at done
            obtain ⟨rfl, _⟩ := done
            exact stops_finish true rfl rfl rfl rfl rfl (Or.inl rfl)
        | failed checkpoints random changed fault => simp at done
        | returned checkpoints random position changed processor => simp at done
  | stop =>
      simp only [carryOut, Reaction.mk.injEq] at done
      obtain ⟨rfl, _⟩ := done
      exact ⟨rfl, rfl, rfl, rfl, rfl, Or.inr (Or.inl rfl)⟩
  | fail fault => simp [carryOut] at done

theorem carryOut_resumes {processor : Processor}
    (done : decision.carryOut memory = ⟨after, changed, .ok (.rollback processor)⟩) :
    Resumes decision after changed := by
  obtain ⟨engine, order⟩ := decision
  cases order with
  | proceed writes =>
      exact absurd (congrArg Reaction.result done) (engine.proceed_ne_rollback memory writes processor)
  | record instruction execution =>
      exact absurd (congrArg Reaction.result done)
        (engine.enter_ne_rollback memory instruction execution processor)
  | attempt resolution =>
      have rewinds := ({ engine with active := some (Engine.spent resolution) } : Engine).rewind_rewinds
        memory resolution.checkpoint (Engine.nextPerturbation resolution)
      simp only [carryOut, Engine.perturb] at done
      simp only [Engine.spent] at rewinds
      generalize Engine.rewind _ _ _ _ = reaction at done rewinds
      cases rewinds with
      | exhausted text => simp at done
      | failed checkpoints random changed fault => simp at done
      | returned checkpoints random position changed processor =>
          simp only [Reaction.mk.injEq] at done
          obtain ⟨rfl, rfl, _⟩ := done
          exact .attempt resolution rfl rfl rfl rfl
  | restore id =>
      have rewinds := engine.rewind_rewinds memory id .none
      rw [show engine.rewind memory id .none = _ from done] at rewinds
      cases rewinds with
      | returned checkpoints random position changed processor => exact .restore id rfl rfl rfl
  | restart seed =>
      simp only [carryOut, Engine.explore] at done
      split at done
      · simp at done
      · have rewinds := engine.rewind_rewinds memory 0 (.input seed)
        generalize engine.rewind memory 0 (.input seed) = reaction at done rewinds
        cases rewinds with
        | exhausted text => simp at done
        | failed checkpoints random changed fault => simp at done
        | returned checkpoints random position changed processor =>
            simp only [Reaction.mk.injEq] at done
            obtain ⟨rfl, _⟩ := done
            exact .restart seed rfl rfl rfl
  | stop => simp [carryOut] at done
  | fail fault => simp [carryOut] at done

end Decision

namespace Engine

variable {engine : Engine} {genuine : Finding → List UInt8 → Prop} {executions : List Execution}

theorem memory_enter (engine : Engine) (memory : Memory) (instruction : Instruction)
    (execution : Execution) : (engine.enter memory instruction execution).memory = memory := by
  unfold Engine.enter
  split
  · rfl
  · simp only
    split
    · rfl
    · split <;> rfl

theorem entered_keeps {after : Engine} {memory changed : Memory} {instruction : Instruction}
    {execution : Execution}
    (entered : engine.enter memory instruction execution = ⟨after, changed, .ok .proceed⟩) :
    after.config = engine.config ∧ after.rollbacks = engine.rollbacks ∧
      after.archive = engine.archive := by
  have shape := engine.enter_entered memory instruction execution
  rw [entered] at shape
  cases shape with
  | plain checkpoints logged notBranch => exact ⟨rfl, rfl, rfl⟩
  | branch checkpoints logged taken outcome => exact ⟨rfl, rfl, rfl⟩

theorem entered_graph {after : Engine} {memory changed : Memory} {instruction : Instruction}
    {execution : Execution}
    (entered : engine.enter memory instruction execution = ⟨after, changed, .ok .proceed⟩) :
    after.graph = engine.graph.propagate instruction execution engine.position := by
  have shape := engine.enter_entered memory instruction execution
  rw [entered] at shape
  cases shape with
  | plain checkpoints logged notBranch => rfl
  | branch checkpoints logged taken outcome => rfl

structure Allows (engine : Engine) (instruction : Instruction) : Prop where
  room : engine.position < engine.basePosition + engine.config.traceLimit
  replayable : instruction.isSyscall → engine.config.endAtSyscall → engine.checkpoints = #[]

theorem Tainting.allows (tainting : engine.Tainting executions)
    (supported : engine.Supported genuine) {instruction recorded : Instruction}
    {execution other : Execution} {processor : Processor} {after : Engine}
    (records : engine.taint instruction execution processor = ⟨after, .record recorded other⟩) :
    engine.Allows instruction := by
  have noted : ∀ message, (engine.note message).endTainting ≠ ⟨after, .record recorded other⟩ := by
    intro message same
    have taintingToo : (engine.note message).Tainting executions :=
      ⟨tainting.phase, tainting.describes, tainting.position, tainting.armed, tainting.branch,
        tainting.follows, tainting.sameInput⟩
    have takesBack := taintingToo.endTainting
      (show (engine.note message).Supported genuine from ⟨supported.archived, supported.current⟩)
    rw [same] at takesBack
    cases takesBack
  unfold Engine.taint at records
  split at records
  · exact absurd records (noted _)
  · rename_i room
    split at records
    · exact absurd records (noted _)
    · rename_i passes
      refine ⟨by simp only [Position.stepsSince] at room; omega, fun isSyscall ends => ?_⟩
      simpa [isSyscall, ends] using passes

end Engine

namespace Session

/-- An instruction is about to execute. A tainting phase has recorded it, or the phase has recorded one
at its address before. -/
inductive Proceeds (session : Session) (origin : Machine) (executions : List Execution)
    (after : Engine) : Prop
  | records (instruction : Instruction) (execution : Execution)
    (decoded : session.machine.decode = .ok instruction)
    (foreseen : session.machine.execution = .ok execution)
    (tainting : session.engine.Tainting executions) (now : Machine)
    (reached : origin.steps executions.length = .ok now) (alike : Alike session.machine now)
    (allows : session.engine.Allows instruction)
    (entered : (session.engine.recordInstruction execution session.machine.processor).enter
      session.machine.memory instruction execution =
        ⟨after, session.machine.memory, .ok .proceed⟩)
  | replays (execution : Execution) (foreseen : session.machine.execution = .ok execution)
    (rollbacking : session.engine.phase = .rollbacking)
    (ahead : session.engine.basePosition ≤ session.engine.position)
    (traced : session.engine.trace[session.engine.position]? = some execution.address)
    (checkpoints : Array Checkpoint)
    (engine : after = { session.engine with
      position := session.engine.position + 1, checkpoints := checkpoints })
    (recording : after.recording = session.engine.recording)

inductive Moves (session : Session) (origin : Machine) (executions : List Execution)
    (genuine : Finding → List UInt8 → Prop) (next : Session) : Prop
  | steps (proceeds : session.Proceeds origin executions next.engine)
    (stepped : session.machine.step = .ok next.machine)
  | returns (engine : Engine) (decision : Decision) (decides : session.decision = .ok decision)
    (approaches : session.Approaches origin engine)
    (takesBack : engine.TakesBack genuine executions decision) (memory : Memory)
    (processor : Processor)
    (done : decision.carryOut session.machine.memory =
      ⟨next.engine, memory, .ok (.rollback processor)⟩)
    (machine : next.machine =
      Machine.resume { session.machine with memory := memory } processor)

variable {session next : Session} {origin : Machine} {executions : List Execution}
  {genuine : Finding → List UInt8 → Prop} {stepLimit : Nat}

theorem turn_running (done : session.turn stepLimit = .running next) :
    session.machine.executed ≤ stepLimit ∧
      ((∃ after processor, session.react = (after, .ok (.rollback processor)) ∧
        next = after.resume processor) ∨
      ∃ after machine, session.react = (after, .ok .proceed) ∧ after.machine.step = .ok machine ∧
        next = { after with machine := machine }) := by
  unfold turn at done
  split at done
  · simp at done
  · rename_i within
    refine ⟨Nat.le_of_not_lt within, ?_⟩
    generalize session.react = reaction at done ⊢
    split at done
    · simp at done
    · simp at done
    · rename_i after processor
      simp only [Turn.running.injEq] at done
      exact Or.inl ⟨after, processor, rfl, done.symm⟩
    · rename_i after
      split at done
      · simp at done
      · simp only [step] at done
        cases stepped : after.machine.step with
        | error fault => simp [stepped, Except.map] at done
        | ok machine =>
            simp only [stepped, Except.map, Turn.running.injEq] at done
            exact Or.inr ⟨after, machine, rfl, stepped, done.symm⟩

theorem turn_ended {last : Session} {result : Except Fault Unit}
    (done : session.turn stepLimit = .ended last result) :
    (stepLimit < session.machine.executed ∧ last = session ∧
      result = .error (.stepLimitReached stepLimit)) ∨
      session.machine.executed ≤ stepLimit ∧ last = session.react.1 ∧
        (∀ processor, session.react.2 ≠ .ok (.rollback processor)) ∧
        (result = .ok () → session.react.2 = .ok .stop ∨ session.react.2 = .ok .proceed ∧
          last.machine.halted) := by
  unfold turn at done
  split at done
  · rename_i exceeds
    simp only [Turn.ended.injEq] at done
    exact Or.inl ⟨exceeds, done.1.symm, done.2.symm⟩
  · rename_i within
    refine Or.inr ⟨Nat.le_of_not_lt within, ?_⟩
    generalize session.react = reaction at done ⊢
    split at done
    · simp only [Turn.ended.injEq] at done
      obtain ⟨rfl, rfl⟩ := done
      exact ⟨rfl, by simp, by simp⟩
    · simp only [Turn.ended.injEq] at done
      exact ⟨done.1.symm, by simp, fun _ => Or.inl rfl⟩
    · simp at done
    · rename_i after
      split at done
      · rename_i halted
        simp only [Turn.ended.injEq] at done
        obtain ⟨rfl, _⟩ := done
        exact ⟨rfl, by simp, fun _ => Or.inr ⟨rfl, halted⟩⟩
      · simp only [step] at done
        cases stepped : after.machine.step with
        | error fault =>
            simp only [stepped, Except.map, Turn.ended.injEq] at done
            obtain ⟨rfl, rfl⟩ := done
            exact ⟨rfl, by simp, by simp⟩
        | ok machine => simp [stepped, Except.map] at done

theorem decision_of_foreseen {instruction : Instruction} {execution : Execution}
    (running : session.machine.halted = false)
    (decoded : session.machine.decode = .ok instruction)
    (foreseen : session.machine.execution = .ok execution) :
    session.decision =
      .ok (session.engine.decide session.machine.processor instruction execution) := by
  simp [decision, running, decoded, foreseen]

theorem InPhase.allows (inPhase : session.InPhase origin executions genuine)
    (tainting : session.engine.Tainting executions) {instruction recorded : Instruction}
    {execution other : Execution} {after : Engine} (running : session.machine.halted = false)
    (decoded : session.machine.decode = .ok instruction)
    (foreseen : session.machine.execution = .ok execution)
    (decides : session.decision = .ok ⟨after, .record recorded other⟩) :
    session.engine.Allows instruction := by
  rw [decision_of_foreseen running decoded foreseen, Except.ok.injEq] at decides
  simp only [Engine.decide, tainting.phase] at decides
  split at decides
  · simp at decides
  · exact tainting.allows inPhase.supported decides

theorem behind_proceeds {reaction : Reaction} {after : Session}
    (same : session.behind reaction = (after, .ok .proceed))
    (memory : reaction.memory = session.machine.memory) :
    reaction = ⟨after.engine, session.machine.memory, .ok .proceed⟩ ∧
      after.machine = session.machine := by
  obtain ⟨engine, changed, result⟩ := reaction
  simp only at memory
  subst memory
  simp only [behind, Prod.mk.injEq] at same
  obtain ⟨rfl, rfl⟩ := same
  exact ⟨rfl, rfl⟩

theorem proceeds_of_proceed {engine : Engine} {execution : Execution} {after : Session}
    (foreseen : session.machine.execution = .ok execution)
    (rollbacking : session.engine.phase = .rollbacking)
    (ahead : session.engine.basePosition ≤ session.engine.position)
    (traced : session.engine.trace[session.engine.position]? = some execution.address)
    {armed : Array Checkpoint} (shape : engine = { session.engine with
      position := session.engine.position + 1, checkpoints := armed })
    (recording : engine.recording = session.engine.recording)
    (reaction : session.behind (engine.proceed session.machine.memory execution.writes) =
      (after, .ok .proceed)) :
    after.machine = session.machine ∧ session.Proceeds origin executions after.engine := by
  obtain ⟨checkpoints, ⟨logged, done⟩ | ⟨access, failed⟩⟩ :=
    engine.proceed_proceeded session.machine.memory execution.writes
  · obtain ⟨same, machine⟩ := behind_proceeds reaction (by rw [done])
    rw [done, Reaction.mk.injEq] at same
    refine ⟨machine, .replays execution foreseen rollbacking ahead traced checkpoints ?_ ?_⟩
    · rw [← same.1, shape]
    · rw [← same.1]
      exact (Engine.recording_of_logged logged).trans recording
  · rw [failed] at reaction
    simp [behind] at reaction

theorem InPhase.forwards_of_idle (inPhase : session.InPhase origin executions genuine)
    (rollbacking : session.engine.phase = .rollbacking) (idle : session.engine.active = none) :
    session.engine.Forwards genuine executions := by
  cases inPhase.situation with
  | tainting tainting =>
      have phase := tainting.phase
      simp [rollbacking] at phase
  | forwarding forwards => exact forwards
  | attempting resolution attempting =>
      have active := attempting.active
      simp [idle] at active

theorem InPhase.proceeds (inPhase : session.InPhase origin executions genuine)
    (learns : session.Learns origin genuine) {after : Session}
    (reaction : session.react = (after, .ok .proceed)) :
    after.machine = session.machine ∧ session.machine.halted = false ∧
      session.Proceeds origin executions after.engine := by
  have decided := inPhase.decided learns
  rw [react_eq] at reaction
  generalize decides : session.decision = decision at decided reaction
  cases decided with
  | invalid fault failed => simp at reaction
  | escapes access => simp [behind, Decision.carryOut] at reaction
  | record instruction execution decoded foreseen running tainting supported now reached alike =>
      have allows := inPhase.allows tainting running decoded foreseen decides
      obtain ⟨same, machine⟩ := behind_proceeds reaction (Engine.memory_enter _ _ _ _)
      exact ⟨machine, running, .records instruction execution decoded foreseen tainting now reached
        alike allows same⟩
  | follow execution foreseen running approaches forwards now reached alike ahead =>
      have rollbacking : session.engine.phase = .rollbacking := by
        have phase := forwards.steered.phase
        rwa [Engine.advanced_eq] at phase
      have idle : session.engine.active = none := by
        have idle := forwards.idle
        rwa [Engine.advanced_eq] at idle
      obtain ⟨expected, _, same, traced⟩ := inPhase.execution_of_forwards
        (inPhase.forwards_of_idle rollbacking idle) reached alike
      rw [foreseen, Except.ok.injEq] at same
      subst same
      obtain ⟨machine, proceeds⟩ := proceeds_of_proceed foreseen rollbacking ahead traced
        (Engine.advanced_eq _) (Engine.recording_advanced _) reaction
      exact ⟨machine, running, proceeds⟩
  | attempt execution foreseen running resolution attempting now reached alike follows ahead =>
      obtain ⟨twin, there, _, traced⟩ := follows (session.engine.position - session.engine.basePosition)
        (by omega)
      rw [reached, Except.ok.injEq] at there
      subst there
      have address := Machine.execution_address (alike.execution ▸ foreseen)
      rw [Nat.add_sub_cancel' ahead, ← address] at traced
      obtain ⟨machine, proceeds⟩ := proceeds_of_proceed foreseen
        attempting.attempts.steered.phase ahead traced rfl rfl reaction
      exact ⟨machine, running, proceeds⟩
  | takesBack engine decision approaches takesBack =>
      have returns := inPhase.returns approaches takesBack
      simp only [behind, Prod.mk.injEq] at reaction
      generalize decision.carryOut session.machine.memory = outcome at returns reaction
      cases returns <;> simp at reaction

theorem InPhase.returns_of_rollback (inPhase : session.InPhase origin executions genuine)
    (learns : session.Learns origin genuine) {after : Session} {processor : Processor}
    (reaction : session.react = (after, .ok (.rollback processor))) :
    session.Moves origin executions genuine (after.resume processor) := by
  have decided := inPhase.decided learns
  rw [react_eq] at reaction
  generalize decides : session.decision = decision at decided reaction
  cases decided with
  | invalid fault failed => simp at reaction
  | escapes access => simp [behind, Decision.carryOut] at reaction
  | record instruction execution =>
      exact absurd (congrArg Prod.snd reaction) (Engine.enter_ne_rollback _ _ _ _ processor)
  | follow execution =>
      exact absurd (congrArg Prod.snd reaction) (Engine.proceed_ne_rollback _ _ _ processor)
  | attempt execution =>
      exact absurd (congrArg Prod.snd reaction) (Engine.proceed_ne_rollback _ _ _ processor)
  | takesBack engine decision approaches takesBack =>
      simp only [behind, Prod.mk.injEq] at reaction
      obtain ⟨rfl, result⟩ := reaction
      exact .returns engine decision decides approaches takesBack _ processor
        (by rw [← result]; rfl) rfl

theorem InPhase.moves (inPhase : session.InPhase origin executions genuine)
    (learns : session.Learns origin genuine) (done : session.turn stepLimit = .running next) :
    session.Moves origin executions genuine next := by
  obtain ⟨_, ⟨after, processor, reaction, rfl⟩ | ⟨after, machine, reaction, stepped, rfl⟩⟩ :=
    turn_running done
  · exact inPhase.returns_of_rollback learns reaction
  · obtain ⟨same, _, proceeds⟩ := inPhase.proceeds learns reaction
    exact .steps proceeds (same ▸ stepped)

variable {config : Config} {drawn : Random} {program : Program} {first : Session} {turns : Nat}

theorem launch_eq_ok (launched : launch config program drawn = .ok first) :
    ∃ machine baseInput text, Machine.load program = .ok machine ∧
      first = ⟨({ Engine.initial config (config.generator drawn) with
        baseInput := baseInput
        input := program.inputBuffer
        graph := .empty program.inputBuffer
        phase := .tainting } : Engine).inform text, machine⟩ := by
  cases loaded : Machine.load program with
  | error fault => simp [launch, loaded, Except.bind] at launched
  | ok machine =>
      obtain ⟨text, captured⟩ := capture_start config drawn loaded
      rw [launch, loaded] at launched
      have same := captured.symm.trans launched
      rw [Except.ok.injEq] at same
      exact ⟨machine, _, text, rfl, same.symm⟩

theorem runTurns_ended (launched : launch config program drawn = .ok first) {fuel : Nat}
    (here : first.afterTurns stepLimit turns = some session)
    (enough : turns + fuel = first.turnLimit stepLimit) :
    ∃ others last, first.afterTurns stepLimit others = some last ∧
      last.turn stepLimit = .ended (session.runTurns stepLimit fuel).1
        (session.runTurns stepLimit fuel).2 := by
  induction fuel generalizing turns session with
  | zero =>
      -- The operations and rollbacks of so many turns exceed their limits.
      obtain ⟨_, _, _, since⟩ := since_of_afterTurns launched here
      have clock := since.clock
      have within := since.within
      have budget := since.budget
      rw [since.config] at budget
      simp only [turnLimit] at enough
      omega
  | succ fuel ih =>
      cases done : session.turn stepLimit with
      | running next =>
          have there : first.afterTurns stepLimit (turns + 1) = some next := by
            simp only [afterTurns, here, done]
          obtain ⟨others, last, reached, ended⟩ := ih there (by omega)
          exact ⟨others, last, reached, by simpa only [runTurns, done] using ended⟩
      | ended last result => exact ⟨turns, session, here, by simp only [runTurns, done]⟩

theorem run_ended (config : Config) (drawn : Random) (stepLimit : Nat) {machine : Machine}
    (loaded : Machine.load program = .ok machine) :
    ∃ first turns session, launch config program drawn = .ok first ∧
      first.afterTurns stepLimit turns = some session ∧
      session.turn stepLimit = .ended ((start config machine drawn).run stepLimit).1
        ((start config machine drawn).run stepLimit).2 := by
  obtain ⟨first, launched, shape⟩ := run_of_load config drawn loaded stepLimit
  obtain ⟨turns, session, here, ended⟩ := runTurns_ended launched
    (show first.afterTurns stepLimit 0 = some first from rfl) (Nat.zero_add _)
  exact ⟨first, turns, session, launched, here, shape ▸ ended⟩

end Session

end BranchSteer
