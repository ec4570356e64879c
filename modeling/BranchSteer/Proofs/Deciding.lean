import BranchSteer.Proofs.Judgements
import BranchSteer.Proofs.Moves

/-!
The decisions of a session uphold a judgement. What a judgement may rely on of an attempt is whether it
departs: whether a run of the phase with its input follows the trace to the branch and leaves it there.
The engine takes an attempt for a success exactly if it departs.
-/

namespace BranchSteer

open Machine (Alike)

namespace Machine

/-- A run executes the recorded addresses up to a position, and is then in front of an operation at
another address than the recorded one. -/
def Departs (origin : Machine) (base : Nat) (addresses : Array Nat) (position : Nat) : Prop :=
  origin.FollowsTrace base addresses position ∧ ∃ machine operation,
    origin.steps (position - base) = .ok machine ∧ machine.halted = false ∧
    machine.operation = .ok operation ∧ addresses[position]? ≠ some machine.instructionPointer

variable {origin now : Machine} {base position branch : Nat} {addresses : Array Nat}

theorem not_departs_of_arrives (reached : origin.steps (position - base) = .ok now)
    (arrives : addresses[position]? = some now.instructionPointer) :
    ¬ origin.Departs base addresses position := by
  rintro ⟨_, machine, _, there, _, _, elsewhere⟩
  rw [reached, Except.ok.injEq] at there
  exact elsewhere (there ▸ arrives)

theorem not_departs_of_strays (reached : origin.steps (position - base) = .ok now)
    (ahead : base ≤ position) (before : position < branch)
    (strays : addresses[position]? ≠ some now.instructionPointer) :
    ¬ origin.Departs base addresses branch := by
  rintro ⟨follows, _⟩
  obtain ⟨machine, there, _, traced⟩ := follows (position - base) (by omega)
  rw [reached, Except.ok.injEq] at there
  rw [Nat.add_sub_cancel' ahead, ← there] at traced
  exact strays traced

theorem not_departs_of_halted (reached : origin.steps (position - base) = .ok now)
    (ahead : base ≤ position) (upTo : position ≤ branch) (halted : now.halted) :
    ¬ origin.Departs base addresses branch := by
  rintro ⟨follows, last, _, thereLast, running, _⟩
  rcases Nat.lt_or_eq_of_le upTo with before | here
  · obtain ⟨machine, there, runningToo, _⟩ := follows (position - base) (by omega)
    rw [reached, Except.ok.injEq] at there
    rw [← there, halted] at runningToo
    exact Bool.noConfusion runningToo
  · rw [← here, reached, Except.ok.injEq] at thereLast
    rw [← thereLast, halted] at running
    exact Bool.noConfusion running

end Machine

def Judgement.Retires (judgement : Judgement) (branch : Branch) : Prop :=
  ∃ old, judgement.current old ∧ ¬ old.isOpen ∧ branch = { old with candidates := ∅ }

theorem Decision.Upholds.archived_of_restart {decision : Decision} {judgement : Judgement}
    (upholds : decision.Upholds judgement) {seed : List UInt8}
    (order : decision.order = .restart seed) {archive : List Branch}
    (shape : archive = decision.engine.archive ++
      decision.engine.branches.inTraceOrder.map fun branch => { branch with candidates := ∅ }) :
    ∀ branch ∈ archive, judgement.archived branch ∨ judgement.Retires branch := by
  intro branch member
  rw [shape] at member
  rcases List.mem_append.mp member with old | retired
  · exact Or.inl (upholds.records.archived branch old)
  · obtain ⟨current, listed, rfl⟩ := List.mem_map.mp retired
    obtain ⟨position, found⟩ := Flow.Branches.exists_of_mem listed
    exact Or.inr ⟨current, upholds.records.current found,
      upholds.closed (Or.inr ⟨seed, order⟩) _ _ found, rfl⟩

namespace Session

/-- The attempt of a resolution leaves the trace right behind its branch. -/
def Departs (session : Session) (origin : Machine) (resolution : Resolution) : Prop :=
  (origin.withInput session.engine.input session.engine.baseInput resolution.attemptedInput).Departs
    session.engine.basePosition session.engine.trace resolution.branch

/-- A judgement holds of the records of a session, and of its attempt. The records of a tainting phase are
judged at its end. -/
structure Judged (session : Session) (judgement : Judgement) : Prop where
  archived : ∀ branch ∈ session.engine.archive, judgement.archived branch
  current : session.engine.phase = .rollbacking → ∀ {position : Nat} {branch : Branch},
    session.engine.branches[position]? = some branch → judgement.current branch
  trying : session.engine.phase = .rollbacking → ∀ {resolution : Resolution} {branch : Branch},
    session.engine.active = some resolution →
    session.engine.branches[resolution.branch]? = some branch → judgement.trying branch resolution

variable {session next : Session} {origin : Machine} {executions : List Execution}
  {genuine : Finding → List UInt8 → Prop} {judgement : Judgement} {engine : Engine}
  {decision : Decision}

theorem Judged.records (judged : session.Judged judgement)
    (rollbacking : session.engine.phase = .rollbacking) : session.engine.Records judgement :=
  ⟨judged.archived, judged.current rollbacking⟩

theorem InPhase.upholds_exit (inPhase : session.InPhase origin executions genuine)
    (judged : session.Judged judgement)
    (upheld : judgement.Upheld session.engine.recording session.engine.config
      (session.Departs origin))
    (surveyed : session.engine.phase = .tainting → ∀ {position : Nat} {branch : Branch},
      Engine.FromSurvey session.engine.graph session.engine.branches session.engine.position position
        branch → judgement.current branch)
    (halted : session.machine.halted) : session.engine.decideExit.Upholds judgement := by
  cases inPhase.situation with
  | tainting tainting supported now reached alike =>
      simp only [Engine.decideExit, tainting.phase]
      exact tainting.endTainting_upholds upheld judged.archived (surveyed tainting.phase)
  | forwarding forwards now reached alike =>
      -- The trace that is followed does not end before an open branch.
      obtain ⟨_, running, _⟩ := inPhase.execution_of_forwards forwards reached alike
      simp [running] at halted
  | attempting resolution attempting now reached alike follows =>
      have rollbacking := attempting.attempts.steered.phase
      simp only [Engine.decideExit, rollbacking]
      exact attempting.replayExit_upholds upheld (judged.records rollbacking)
        (judged.trying rollbacking attempting.active)
        (Machine.not_departs_of_halted reached attempting.base attempting.before
          (alike.halted ▸ halted))

theorem InPhase.upholds_instruction (inPhase : session.InPhase origin executions genuine)
    (judged : session.Judged judgement)
    (upheld : judgement.Upheld session.engine.recording session.engine.config
      (session.Departs origin))
    (surveyed : session.engine.phase = .tainting → ∀ {position : Nat} {branch : Branch},
      Engine.FromSurvey session.engine.graph session.engine.branches session.engine.position position
        branch → judgement.current branch)
    {instruction : Instruction} {execution : Execution}
    (running : session.machine.halted = false)
    (foreseen : session.machine.execution = .ok execution)
    (takesBack : engine.TakesBack genuine executions
      (session.engine.decide session.machine.processor instruction execution)) :
    (session.engine.decide session.machine.processor instruction execution).Upholds judgement := by
  cases inPhase.situation with
  | tainting tainting supported now reached alike =>
      simp only [Engine.decide, tainting.phase] at takesBack ⊢
      split at takesBack
      · cases takesBack
      · rcases tainting.taint_upholds upheld judged.archived (surveyed tainting.phase) instruction
          execution session.machine.processor with records | upholds
        · rw [records] at takesBack
          cases takesBack
        · exact upholds
  | forwarding forwards now reached alike =>
      have rollbacking := forwards.steered.phase
      simp only [Engine.decide, rollbacking] at takesBack ⊢
      split at takesBack
      · cases takesBack
      · obtain ⟨other, _, same, traced⟩ := inPhase.execution_of_forwards forwards reached alike
        rw [foreseen, Except.ok.injEq] at same
        subst same
        rcases forwards.replay_upholds upheld (judged.records rollbacking) traced with
          goesOn | upholds
        · rw [goesOn] at takesBack
          cases takesBack
        · exact upholds
  | attempting resolution attempting now reached alike follows =>
      have rollbacking := attempting.attempts.steered.phase
      simp only [Engine.decide, rollbacking] at takesBack ⊢
      split at takesBack
      · cases takesBack
      · have address := Machine.execution_address (alike.execution ▸ foreseen)
        obtain ⟨operation, found, _⟩ := Machine.execution_eq_ok (alike.execution ▸ foreseen)
        have base := attempting.base
        have before := attempting.before
        have leaves : session.engine.position = resolution.branch →
            session.engine.trace[session.engine.position]? ≠ some execution.address →
            session.Departs origin resolution := by
          intro here leaves
          rw [here] at reached leaves follows
          exact ⟨follows, now, operation, reached, alike.halted ▸ running, found, address ▸ leaves⟩
        have arrives : session.engine.position = resolution.branch →
            session.engine.trace[session.engine.position]? = some execution.address →
            ¬ session.Departs origin resolution := by
          intro here arrives
          rw [here] at reached arrives
          exact Machine.not_departs_of_arrives reached (address ▸ arrives)
        rcases attempting.replay_upholds upheld (judged.records rollbacking)
          (judged.trying rollbacking attempting.active) leaves arrives fun elsewhere strays =>
            Machine.not_departs_of_strays reached base (by omega) (address ▸ strays) with
          goesOn | upholds
        · rw [goesOn] at takesBack
          cases takesBack
        · exact upholds

theorem InPhase.upholds (inPhase : session.InPhase origin executions genuine)
    (judged : session.Judged judgement)
    (upheld : judgement.Upheld session.engine.recording session.engine.config
      (session.Departs origin))
    (surveyed : session.engine.phase = .tainting → ∀ {position : Nat} {branch : Branch},
      Engine.FromSurvey session.engine.graph session.engine.branches session.engine.position position
        branch → judgement.current branch)
    (decides : session.decision = .ok decision)
    (takesBack : engine.TakesBack genuine executions decision) : decision.Upholds judgement := by
  unfold Session.decision at decides
  split at decides
  · rename_i halted
    rw [Except.ok.injEq] at decides
    exact decides ▸ inPhase.upholds_exit judged upheld surveyed halted
  · rename_i running
    cases decoded : session.machine.decode with
    | error fault => simp [decoded] at decides
    | ok instruction =>
        cases foreseen : session.machine.execution with
        | error fault => simp [decoded, foreseen] at decides
        | ok execution =>
            simp only [decoded, foreseen, Except.ok.injEq] at decides
            subst decides
            exact inPhase.upholds_instruction judged upheld surveyed (by simpa using running)
              foreseen takesBack

theorem Judged.of_tainting (tainting : next.engine.phase = .tainting)
    (archived : ∀ branch ∈ next.engine.archive, judgement.archived branch) :
    next.Judged judgement := by
  refine ⟨archived, fun rollbacking => ?_, fun rollbacking => ?_⟩
  · simp [tainting] at rollbacking
  · simp [tainting] at rollbacking

inductive Succeeds (session : Session) (judgement : Judgement) (next : Session) : Prop
  | records (tainting : next.engine.phase = .tainting)
    (phaseNumber : next.engine.phaseNumber = session.engine.phaseNumber)
    (archived : ∀ branch ∈ next.engine.archive, judgement.archived branch)
  | resolves (recording : next.engine.recording = session.engine.recording)
    (judged : next.Judged judgement)
  | restarts (tainting : next.engine.phase = .tainting)
    (phaseNumber : next.engine.phaseNumber = session.engine.phaseNumber + 1)
    (archived : ∀ branch ∈ next.engine.archive,
      judgement.archived branch ∨ judgement.Retires branch)

theorem Succeeds.judged (succeeds : session.Succeeds judgement next)
    (retired : ∀ branch, judgement.Retires branch → judgement.archived branch) :
    next.Judged judgement := by
  cases succeeds with
  | records tainting phaseNumber archived => exact .of_tainting tainting archived
  | resolves recording judged => exact judged
  | restarts tainting phaseNumber archived =>
      exact .of_tainting tainting fun branch member =>
        (archived branch member).elim id (retired branch)

theorem InPhase.judged_returned (inPhase : session.InPhase origin executions genuine)
    (upheld : judgement.Upheld session.engine.recording session.engine.config
      (session.Departs origin))
    (approaches : session.Approaches origin engine)
    (takesBack : engine.TakesBack genuine executions decision) (upholds : decision.Upholds judgement)
    {memory : Memory} {processor : Processor}
    (done : decision.carryOut session.machine.memory =
      ⟨next.engine, memory, .ok (.rollback processor)⟩) : session.Succeeds judgement next := by
  have recording := takesBack.keeps.recording.trans approaches.recording
  have returns := inPhase.returns approaches takesBack
  have records := upholds.records
  rw [done] at returns
  cases Decision.carryOut_resumes done with
  | attempt resolution order branches archive active =>
      cases returns with
      | forwarding index machine _ _ wentBack _ _ id restore => simp [order] at restore
      | tainting index machine _ _ wentBack seed restart => simp [order] at restart
      | attempting index machine _ _ wentBack same =>
          refine .resolves (same.trans recording) ⟨archive ▸ records.archived,
            fun _ {position branch} found => ?_, fun _ {attempted branch} attempt found => ?_⟩
          · rw [branches] at found
            exact records.current found
          · obtain ⟨other, known, ready⟩ := upholds.ready order
            rw [active, Option.some.injEq] at attempt
            subst attempt
            rw [branches] at found
            have here : other = branch := Option.some.inj (known.symm.trans found)
            subst here
            refine upheld.perturbed recording ready fun {address value} writes => ?_
            obtain ⟨_, _, _, byte⟩ := wentBack.of_target
              (show decision.order.target? =
                some (resolution.checkpoint, Engine.nextPerturbation resolution) by
                  rw [order, Order.target?])
            rw [byte, writes, Option.getD_some]
  | restore id order branches archive =>
      cases returns with
      | attempting index machine _ _ wentBack _ _ tried _ attempt => simp [order] at attempt
      | tainting index machine _ _ wentBack seed restart => simp [order] at restart
      | forwarding index machine _ _ wentBack same _ id restore forwards =>
          refine .resolves (same.trans recording) ⟨archive ▸ records.archived,
            fun _ {position branch} found => ?_, fun _ {attempted branch} attempt _ => ?_⟩
          · rw [branches] at found
            exact records.current found
          · simp [forwards.idle] at attempt
  | restart seed order branches archive =>
      cases returns with
      | attempting index machine _ _ wentBack _ _ tried _ attempt => simp [order] at attempt
      | forwarding index machine _ _ wentBack _ _ id restore => simp [order] at restore
      | tainting index machine _ _ wentBack _ _ restarted tainting =>
          refine .restarts tainting.phase ?_ (upholds.archived_of_restart order archive)
          rw [restarted.phaseNumber, Engine.phaseNumber_of_recording recording]

theorem InPhase.judged_next (inPhase : session.InPhase origin executions genuine)
    (judged : session.Judged judgement)
    (upheld : judgement.Upheld session.engine.recording session.engine.config
      (session.Departs origin))
    (surveyed : session.engine.phase = .tainting → ∀ {position : Nat} {branch : Branch},
      Engine.FromSurvey session.engine.graph session.engine.branches session.engine.position position
        branch → judgement.current branch)
    (moves : session.Moves origin executions genuine next) : session.Succeeds judgement next := by
  cases moves with
  | steps proceeds stepped =>
      cases proceeds with
      | records instruction execution decoded foreseen tainting now reached alike allows entered =>
          obtain ⟨continues, recording, _⟩ := tainting.enter entered
          refine .records continues.phase (congrArg Recording.phaseNumber recording) ?_
          rw [(Engine.entered_keeps entered).2.2]
          exact judged.archived
      | replays execution foreseen rollbacking ahead traced checkpoints engine recording =>
          refine .resolves recording ⟨?_, ?_, ?_⟩
          · rw [engine]
            exact judged.archived
          · rw [engine]
            exact fun _ => judged.current rollbacking
          · rw [engine]
            exact fun _ => judged.trying rollbacking
  | returns engine decision decides approaches takesBack memory processor done machine =>
      exact inPhase.judged_returned upheld approaches takesBack
        (inPhase.upholds judged upheld surveyed decides takesBack) done

theorem InPhase.judged_stopped (inPhase : session.InPhase origin executions genuine)
    (learns : session.Learns origin genuine) (judged : session.Judged judgement)
    (upheld : judgement.Upheld session.engine.recording session.engine.config
      (session.Departs origin))
    (surveyed : session.engine.phase = .tainting → ∀ {position : Nat} {branch : Branch},
      Engine.FromSurvey session.engine.graph session.engine.branches session.engine.position position
        branch → judgement.current branch)
    (stopped : session.react.2 = .ok .stop)
    (within : session.react.1.engine.budgetExhausted = false) :
    session.react.1.engine.Records judgement ∧ session.react.1.engine.Closed := by
  have decided := inPhase.decided learns
  rw [react_eq] at stopped within ⊢
  generalize decides : session.decision = result at decided stopped within ⊢
  cases result with
  | error fault => simp at stopped
  | ok decision =>
      simp only [behind] at stopped within ⊢
      generalize done : decision.carryOut session.machine.memory = reaction at stopped within ⊢
      obtain ⟨after, memory, result⟩ := reaction
      simp only at stopped within ⊢
      subst stopped
      have stops := Decision.carryOut_stops done
      have ends := stops.cause.resolve_left (by simp [within])
      cases decided with
      | escapes access => simp at ends
      | record instruction execution => simp at ends
      | follow execution => simp at ends
      | attempt execution => simp at ends
      | takesBack engine decision approaches takesBack =>
          have upholds := inPhase.upholds judged upheld surveyed decides takesBack
          have records := upholds.records
          have closed := upholds.closed ends
          refine ⟨⟨?_, ?_⟩, ?_⟩
          · rw [stops.archive]
            exact records.archived
          · rw [stops.branches]
            exact records.current
          · rw [Engine.Closed, stops.branches]
            exact closed

end Session

end BranchSteer
