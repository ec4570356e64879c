import BranchSteer.Session
import BranchSteer.Proofs.Proceeding

/-!
A phase of a run. It starts from a state of the machine and records the executions behind it. Whatever
the engine has tried since, the machine is in a state that its phase reaches from there: with the input
of the phase while the trace is recorded or followed, and with the input of the attempt otherwise.
-/

namespace BranchSteer

open Machine (Alike)

namespace Session

def decision (session : Session) : Except Fault Decision :=
  if session.machine.halted then .ok session.engine.decideExit
  else
    match session.machine.decode with
    | .error fault => .error fault
    | .ok instruction =>
      match session.machine.execution with
      | .error fault => .error fault
      | .ok execution =>
        .ok (session.engine.decide session.machine.processor instruction execution)

def behind (session : Session) (reaction : Reaction) : Session × Except Fault Action :=
  (⟨reaction.engine, { session.machine with memory := reaction.memory }⟩, reaction.result)

theorem react_eq (session : Session) : session.react =
    match session.decision with
    | .error fault => (session, .error fault)
    | .ok decision => session.behind (decision.carryOut session.machine.memory) := by
  unfold react decision
  split
  · rfl
  · cases session.machine.decode with
    | error fault => rfl
    | ok instruction =>
        cases session.machine.execution with
        | error fault => rfl
        | ok execution => rfl

/-- What is going on in a phase, and the state of the machine that goes with it. -/
inductive Situation (origin : Machine) (executions : List Execution)
    (genuine : Finding → List UInt8 → Prop) (session : Session) : Prop
  | tainting (tainting : session.engine.Tainting executions)
    (supported : session.engine.Supported genuine) (now : Machine)
    (reached : origin.steps executions.length = .ok now) (alike : Alike session.machine now)
  | forwarding (forwards : session.engine.Forwards genuine executions) (now : Machine)
    (reached : origin.steps (session.engine.position - session.engine.basePosition) = .ok now)
    (alike : Alike session.machine now)
  | attempting (resolution : Resolution)
    (attempting : session.engine.Attempting genuine executions resolution) (now : Machine)
    (reached : (origin.withInput session.engine.input session.engine.baseInput
      resolution.attemptedInput).steps (session.engine.position - session.engine.basePosition) =
        .ok now)
    (alike : Alike session.machine now)
    (follows : (origin.withInput session.engine.input session.engine.baseInput
      resolution.attemptedInput).FollowsTrace session.engine.basePosition session.engine.trace
        session.engine.position)

structure InPhase (session : Session) (origin : Machine) (executions : List Execution)
    (genuine : Finding → List UInt8 → Prop) : Prop where
  performs : origin.Performs executions
  small : origin.memory.size < addressSpace
  inside : session.engine.input.address + session.engine.input.length ≤ origin.memory.size
  holds : origin.memory.Holds session.engine.input.address session.engine.baseInput
  recalls : Recalls origin session.engine.basePosition session.engine.checkpoints
    session.machine.memory
  situation : Situation origin executions genuine session

/-- The engine in front of a decision. It may have armed the checkpoint of the state that the machine
is in. -/
structure Approaches (session : Session) (origin : Machine) (engine : Engine) : Prop where
  recording : engine.recording = session.engine.recording
  config : engine.config = session.engine.config
  rollbacks : engine.rollbacks = session.engine.rollbacks
  recalls : Recalls origin engine.basePosition engine.checkpoints session.machine.memory
  arms : ∀ {id : Nat} {before after : Checkpoint},
    session.engine.checkpoints[id]? = some before → engine.checkpoints[id]? = some after →
      ¬ before.armed → after.armed → ∃ index machine,
        before.position = session.engine.basePosition + index + 1 ∧
        origin.steps index = .ok machine ∧ session.machine.processor = machine.processor ∧
        session.machine.memory = machine.memory

inductive Decided (session : Session) (origin : Machine) (executions : List Execution)
    (genuine : Finding → List UInt8 → Prop) : Except Fault Decision → Prop
  | invalid (fault : Fault) (failed : session.machine.operation = .error fault) :
    Decided _ _ _ _ (.error fault)
  | escapes (access : MemoryRange) :
    Decided _ _ _ _ (.ok ⟨session.engine, .fail (.accessWrapsAround access)⟩)
  | record (instruction : Instruction) (execution : Execution)
    (decoded : session.machine.decode = .ok instruction)
    (foreseen : session.machine.execution = .ok execution)
    (running : session.machine.halted = false)
    (tainting : session.engine.Tainting executions)
    (supported : session.engine.Supported genuine) (now : Machine)
    (reached : origin.steps executions.length = .ok now) (alike : Alike session.machine now) :
    Decided _ _ _ _ (.ok ⟨session.engine.recordInstruction execution session.machine.processor,
      .record instruction execution⟩)
  | follow (execution : Execution) (foreseen : session.machine.execution = .ok execution)
    (running : session.machine.halted = false)
    (approaches : session.Approaches origin session.engine.advanced)
    (forwards : session.engine.advanced.Forwards genuine executions) (now : Machine)
    (reached : origin.steps (session.engine.position - session.engine.basePosition) = .ok now)
    (alike : Alike session.machine now)
    (ahead : session.engine.basePosition ≤ session.engine.position) :
    Decided _ _ _ _ (.ok ⟨session.engine.advanced, .proceed execution.writes⟩)
  | attempt (execution : Execution) (foreseen : session.machine.execution = .ok execution)
    (running : session.machine.halted = false) (resolution : Resolution)
    (attempting : ({ session.engine with position := session.engine.position + 1 } :
      Engine).Attempting genuine executions resolution) (now : Machine)
    (reached : (origin.withInput session.engine.input session.engine.baseInput
      resolution.attemptedInput).steps (session.engine.position - session.engine.basePosition) =
        .ok now)
    (alike : Alike session.machine now)
    (follows : (origin.withInput session.engine.input session.engine.baseInput
      resolution.attemptedInput).FollowsTrace session.engine.basePosition session.engine.trace
        (session.engine.position + 1))
    (ahead : session.engine.basePosition ≤ session.engine.position) :
    Decided _ _ _ _ (.ok ⟨{ session.engine with position := session.engine.position + 1 },
      .proceed execution.writes⟩)
  | takesBack (engine : Engine) (decision : Decision)
    (approaches : session.Approaches origin engine)
    (takesBack : engine.TakesBack genuine executions decision) : Decided _ _ _ _ (.ok decision)

variable {session : Session} {origin : Machine} {executions : List Execution}
  {genuine : Finding → List UInt8 → Prop}

theorem InPhase.approaches (inPhase : session.InPhase origin executions genuine) :
    session.Approaches origin session.engine := by
  refine ⟨rfl, rfl, rfl, inPhase.recalls, fun found same disarmed armed => ?_⟩
  rw [found, Option.some.injEq] at same
  exact absurd (same ▸ armed) disarmed

theorem InPhase.approaches_advanced (inPhase : session.InPhase origin executions genuine)
    (forwards : session.engine.Forwards genuine executions) {now : Machine}
    (reached : origin.steps (session.engine.position - session.engine.basePosition) = .ok now)
    (alike : Alike session.machine now) : session.Approaches origin session.engine.advanced := by
  have base := forwards.base
  have shape : session.engine.advanced = { session.engine with
      position := session.engine.position + 1
      checkpoints := session.engine.checkpoints.map fun checkpoint =>
        if checkpoint.position = session.engine.basePosition +
          (session.engine.position - session.engine.basePosition) + 1 then checkpoint.arm
        else checkpoint } := by
    rw [Nat.add_sub_cancel' base]
    exact Engine.advanced_eq _
  refine ⟨Engine.recording_advanced _, by rw [shape], by rw [shape], ?_, ?_⟩
  · rw [shape]
    refine inPhase.recalls.arming (fun ordered low high => ?_) (fun found before => ?_) reached
      alike.memory
    · exact forwards.steered.describes.increasing ordered
        (by rw [Engine.points_getElem?, low, Option.map_some])
        (by rw [Engine.points_getElem?, high, Option.map_some])
    · exact forwards.armed found (by omega)
  · intro id before after found there disarmed armed
    rw [shape, Array.getElem?_map, found, Option.map_some, Option.some.injEq] at there
    subst there
    split at armed
    · rename_i here
      exact ⟨_, now, here, reached, alike.processor, alike.memory⟩
    · exact absurd armed disarmed

theorem InPhase.execution_of_forwards (inPhase : session.InPhase origin executions genuine)
    (forwards : session.engine.Forwards genuine executions) {now : Machine}
    (reached : origin.steps (session.engine.position - session.engine.basePosition) = .ok now)
    (alike : Alike session.machine now) :
    ∃ execution, session.machine.halted = false ∧ session.machine.execution = .ok execution ∧
      session.engine.trace[session.engine.position]? = some execution.address := by
  have base := forwards.base
  obtain ⟨position, branch, found, isOpen⟩ := forwards.pending
  have ahead := forwards.ahead found isOpen
  have last := ((forwards.steered.branch found).pending isOpen).2
  have describes := forwards.steered.describes
  have size : session.engine.trace.size = session.engine.basePosition + executions.length :=
    describes.traceSize
  have inside : position < session.engine.trace.size := last
  have known : executions[session.engine.position - session.engine.basePosition]? =
      some executions[session.engine.position - session.engine.basePosition] :=
    List.getElem?_eq_getElem (by omega)
  obtain ⟨running, foreseen⟩ := inPhase.performs.each_of_steps known reached
  have traced := describes.trace known
  refine ⟨_, alike.halted ▸ running, alike.execution ▸ foreseen, ?_⟩
  rw [← traced]
  exact congrArg (fun place => session.engine.trace[place]?) (Nat.add_sub_cancel' base).symm

def Learns (session : Session) (origin : Machine) (genuine : Finding → List UInt8 → Prop) : Prop :=
  ∀ (finding : Finding) (input : List UInt8), session.engine.phase = .rollbacking →
    finding.phase = session.engine.phaseNumber →
    input.length = session.engine.baseInput.length →
    (origin.withInput session.engine.input session.engine.baseInput input).Flips
      session.engine.basePosition session.engine.trace finding.position finding.taken →
    genuine finding input

theorem InPhase.flips (inPhase : session.InPhase origin executions genuine)
    (learns : session.Learns origin genuine) {resolution : Resolution}
    (attempting : session.engine.Attempting genuine executions resolution) {now : Machine}
    (reached : (origin.withInput session.engine.input session.engine.baseInput
      resolution.attemptedInput).steps (session.engine.position - session.engine.basePosition) =
        .ok now)
    (alike : Alike session.machine now)
    (follows : (origin.withInput session.engine.input session.engine.baseInput
      resolution.attemptedInput).FollowsTrace session.engine.basePosition session.engine.trace
        session.engine.position)
    {execution : Execution} (foreseen : session.machine.execution = .ok execution)
    (diverges : session.engine.trace[session.engine.position]? ≠ some execution.address)
    {branch : Branch} (found : session.engine.branches[session.engine.position]? = some branch)
    (undecided : branch.isUndecided) :
    genuine (branch.resolve resolution.attemptedInput).finding resolution.attemptedInput := by
  have steered := attempting.attempts.steered
  have observed := (steered.branch found).observed
  obtain ⟨target, foundTarget, isOpen, _⟩ := attempting.attempts.branch
  have last := ((steered.branch foundTarget).pending isOpen).2
  have inside := Nat.lt_of_le_of_lt attempting.before last
  obtain ⟨finding, _, _⟩ :=
    Engine.resolve_spec undecided (steered.unflipped found undecided) resolution.attemptedInput
  have length : resolution.attemptedInput.length = session.engine.baseInput.length :=
    attempting.length.trans steered.describes.inputLength.symm
  obtain ⟨size, _⟩ := Memory.overwrite_spec length inPhase.holds
  have small : (origin.withInput session.engine.input session.engine.baseInput
      resolution.attemptedInput).memory.size < addressSpace := by
    rw [Machine.withInput, size]
    exact inPhase.small
  have flips := Machine.flips_of_divergence steered.describes inPhase.performs inPhase.small small
    rfl observed inside follows reached
    (by rw [← Machine.execution_address (alike.execution ▸ foreseen)]; exact diverges)
  have place : branch.finding.position = session.engine.position := observed.key
  exact finding ▸ learns _ _ steered.phase observed.phase length (place ▸ flips)

theorem InPhase.decided_exit (inPhase : session.InPhase origin executions genuine)
    (halted : session.machine.halted) :
    Decided session origin executions genuine (.ok session.engine.decideExit) := by
  cases inPhase.situation with
  | tainting tainting supported now reached alike =>
      simp only [Engine.decideExit, tainting.phase]
      exact .takesBack _ _ inPhase.approaches (tainting.endTainting supported)
  | forwarding forwards now reached alike =>
      -- The trace that is followed does not end before an open branch.
      obtain ⟨_, running, _⟩ := inPhase.execution_of_forwards forwards reached alike
      simp [running] at halted
  | attempting resolution attempting now reached alike follows =>
      simp only [Engine.decideExit, attempting.attempts.steered.phase]
      exact .takesBack _ _ inPhase.approaches attempting.replayExit

theorem InPhase.decided_instruction (inPhase : session.InPhase origin executions genuine)
    (learns : session.Learns origin genuine) {instruction : Instruction} {execution : Execution}
    (running : session.machine.halted = false)
    (decoded : session.machine.decode = .ok instruction)
    (foreseen : session.machine.execution = .ok execution) :
    Decided session origin executions genuine
      (.ok (session.engine.decide session.machine.processor instruction execution)) := by
  cases inPhase.situation with
  | tainting tainting supported now reached alike =>
      simp only [Engine.decide, tainting.phase]
      split
      · exact .escapes _
      · rcases tainting.taint supported instruction execution session.machine.processor with
          recorded | takesBack
        · rw [recorded]
          exact .record instruction execution decoded foreseen running tainting supported now reached
            alike
        · exact .takesBack _ _ inPhase.approaches takesBack
  | forwarding forwards now reached alike =>
      simp only [Engine.decide, forwards.steered.phase]
      split
      · exact .escapes _
      · obtain ⟨other, _, same, traced⟩ := inPhase.execution_of_forwards forwards reached alike
        rw [foreseen, Except.ok.injEq] at same
        subst same
        have advanced := inPhase.approaches_advanced forwards reached alike
        rcases forwards.replay traced with ⟨goesOn, forwardsToo⟩ | takesBack
        · rw [goesOn]
          exact .follow execution foreseen running advanced forwardsToo now reached alike
            forwards.base
        · exact .takesBack _ _ advanced takesBack
  | attempting resolution attempting now reached alike follows =>
      simp only [Engine.decide, attempting.attempts.steered.phase]
      split
      · exact .escapes _
      · have flips := inPhase.flips learns attempting reached alike follows foreseen
        rcases attempting.replay flips with ⟨goesOn, traced, attemptingToo⟩ | takesBack
        · rw [goesOn]
          rw [Machine.execution_address (alike.execution ▸ foreseen)] at traced
          exact .attempt execution foreseen running resolution attemptingToo now reached alike
            (follows.succ attempting.base reached (alike.halted ▸ running) traced) attempting.base
        · exact .takesBack _ _ inPhase.approaches takesBack

theorem InPhase.decided (inPhase : session.InPhase origin executions genuine)
    (learns : session.Learns origin genuine) :
    Decided session origin executions genuine session.decision := by
  unfold decision
  split
  · rename_i halted
    exact inPhase.decided_exit halted
  · rename_i running
    cases decoded : session.machine.decode with
    | error fault => exact .invalid fault (Machine.decode_error decoded)
    | ok instruction =>
        cases foreseen : session.machine.execution with
        | error fault => exact .invalid fault (Machine.execution_error foreseen)
        | ok execution =>
            exact inPhase.decided_instruction learns (by simpa using running) decoded foreseen

end Session

end BranchSteer
