import BranchSteer.Proofs.Phases

/-!
The turns of a run. A turn records an instruction, goes on in its phase or starts the next one, and the
session is in a phase again. Otherwise it ends the run, with the engine finished or with a fault that the
program causes.
-/

namespace BranchSteer

open Machine (Alike AgreeOff)

namespace Session

structure Ticks (session next : Session) : Prop where
  config : next.engine.config = session.engine.config
  input : next.engine.input = session.engine.input
  clock : next.machine.executed + next.engine.rollbacks =
    session.machine.executed + session.engine.rollbacks + 1
  executed : next.machine.executed ≤ session.machine.executed + 1
  budget : session.engine.rollbacks ≤ session.engine.config.rollbackLimit →
    next.engine.rollbacks ≤ next.engine.config.rollbackLimit

/-- A phase that starts behind the first instructions of another one. They did not read the input. -/
structure Starts (session next : Session) (origin : Machine) (executions : List Execution) : Prop where
  behind : ∃ index machine, index < executions.length ∧ origin.steps index = .ok machine ∧
    AgreeOff (fun address => session.engine.input.contains address) machine next.machine ∧
    next.engine.basePosition = session.engine.basePosition + index ∧
    ∀ {earlier : Nat} {execution : Execution} {address : Nat}, earlier < index →
      executions[earlier]? = some execution → execution.Reads address →
        ¬ session.engine.input.contains address
  position : next.engine.position = next.engine.basePosition
  trace : next.engine.trace = session.engine.trace.take next.engine.basePosition
  phaseNumber : next.engine.phaseNumber = session.engine.phaseNumber + 1
  checkpoints : next.engine.checkpoints = #[]

inductive Continues (session : Session) (origin : Machine) (executions : List Execution)
    (genuine : Finding → List UInt8 → Prop) (next : Session) : Prop
  | recorded (execution : Execution) (tainting : session.engine.Tainting executions)
    (now : Machine) (reached : origin.steps executions.length = .ok now)
    (alike : Alike session.machine now)
    (inPhase : next.InPhase origin (executions ++ [execution]) genuine)
    (phase : next.engine.phase = .tainting)
    (recording : next.engine.recording =
      (session.engine.recordInstruction execution session.machine.processor).recording)
  | went (inPhase : next.InPhase origin executions genuine)
    (phase : next.engine.phase = .rollbacking)
    (recording : next.engine.recording = session.engine.recording)
  | restarted (inPhase : next.InPhase next.machine [] genuine)
    (phase : next.engine.phase = .tainting) (starts : session.Starts next origin executions)

inductive Reacts (session : Session) (origin : Machine) (executions : List Execution)
    (genuine : Finding → List UInt8 → Prop) : Session × Except Fault Action → Prop
  | failed (last : Session) (fault : Fault) (ofProgram : fault.OfProgram)
    (supported : last.engine.Supported genuine) : Reacts _ _ _ _ (last, .error fault)
  | stopped (last : Session) (finished : last.engine.phase = .finished)
    (supported : last.engine.Supported genuine) : Reacts _ _ _ _ (last, .ok .stop)
  | proceeds (engine : Engine) (supported : engine.Supported genuine)
    (running : session.machine.halted = false)
    (continues : ∀ {machine : Machine}, session.machine.step = .ok machine →
      session.Ticks ⟨engine, machine⟩ ∧
        session.Continues origin executions genuine ⟨engine, machine⟩) :
    Reacts _ _ _ _ (⟨engine, session.machine⟩, .ok .proceed)
  | returns (engine : Engine) (memory : Memory) (processor : Processor)
    (supported : engine.Supported genuine)
    (ticks : session.Ticks
      ⟨engine, Machine.resume { session.machine with memory := memory } processor⟩)
    (continues : session.Continues origin executions genuine
      ⟨engine, Machine.resume { session.machine with memory := memory } processor⟩) :
    Reacts _ _ _ _
      (⟨engine, { session.machine with memory := memory }⟩, .ok (.rollback processor))

variable {session : Session} {origin : Machine} {executions : List Execution}
  {genuine : Finding → List UInt8 → Prop}

theorem InPhase.describes (inPhase : session.InPhase origin executions genuine) :
    session.engine.recording.Describes executions := by
  cases inPhase.situation with
  | tainting tainting supported now reached alike => exact tainting.describes
  | forwarding forwards now reached alike => exact forwards.steered.describes
  | attempting resolution attempting now reached alike follows =>
      exact attempting.attempts.steered.describes

theorem InPhase.supported (inPhase : session.InPhase origin executions genuine) :
    session.engine.Supported genuine := by
  cases inPhase.situation with
  | tainting tainting supported now reached alike => exact supported
  | forwarding forwards now reached alike => exact forwards.steered.supported
  | attempting resolution attempting now reached alike follows =>
      exact attempting.attempts.steered.supported

theorem InPhase.operations (inPhase : session.InPhase origin executions genuine) :
    session.machine.program.operations = origin.program.operations := by
  cases inPhase.situation with
  | tainting tainting supported now reached alike =>
      rw [alike.operations, (Machine.steps_framed inPhase.small reached).1]
  | forwarding forwards now reached alike =>
      rw [alike.operations, (Machine.steps_framed inPhase.small reached).1]
  | attempting resolution attempting now reached alike follows =>
      have length : resolution.attemptedInput.length = session.engine.baseInput.length :=
        attempting.length.trans inPhase.describes.inputLength.symm
      obtain ⟨size, _⟩ := Memory.overwrite_spec length inPhase.holds
      have small : (origin.withInput session.engine.input session.engine.baseInput
          resolution.attemptedInput).memory.size < addressSpace := by
        rw [Machine.withInput, size]
        exact inPhase.small
      rw [alike.operations, (Machine.steps_framed small reached).1]
      rfl

theorem InPhase.smallMemory (inPhase : session.InPhase origin executions genuine) :
    session.machine.memory.size < addressSpace :=
  inPhase.recalls.size ▸ inPhase.small

theorem InPhase.of_recording (inPhase : session.InPhase origin executions genuine) {next : Session}
    (same : next.engine.recording = session.engine.recording)
    (recalls : Recalls origin next.engine.basePosition next.engine.checkpoints next.machine.memory)
    (situation : Situation origin executions genuine next) :
    next.InPhase origin executions genuine := by
  have input := Engine.input_of_recording same
  have baseInput := Engine.baseInput_of_recording same
  refine ⟨inPhase.performs, inPhase.small, input ▸ inPhase.inside, ?_, recalls, situation⟩
  rw [input, baseInput]
  exact inPhase.holds

theorem Ticks.of_step {engine : Engine} {machine : Machine} {execution : Execution}
    (small : session.machine.memory.size < addressSpace)
    (foreseen : session.machine.execution = .ok execution)
    (done : session.machine.step = .ok machine) (config : engine.config = session.engine.config)
    (input : engine.input = session.engine.input)
    (rollbacks : engine.rollbacks = session.engine.rollbacks) : session.Ticks ⟨engine, machine⟩ := by
  have executed := (Machine.step_framed small foreseen done).executed
  refine ⟨config, input, ?_, Nat.le_of_eq executed, fun bound => ?_⟩
  · simp only [executed, rollbacks]
    omega
  · simp only [config, rollbacks]
    exact bound

theorem InPhase.recalls_recordInstruction (inPhase : session.InPhase origin executions genuine)
    (tainting : session.engine.Tainting executions) {now : Machine}
    (reached : origin.steps executions.length = .ok now) (alike : Alike session.machine now)
    (execution : Execution) :
    Recalls origin session.engine.basePosition
      (session.engine.recordInstruction execution session.machine.processor).checkpoints
        session.machine.memory := by
  have size : session.engine.trace.size = session.engine.basePosition + executions.length :=
    tainting.describes.traceSize
  simp only [Engine.recordInstruction]
  split
  · exact inPhase.recalls
  · have created := inPhase.recalls.push tainting.armed reached alike.memory
      (session.engine.inputReads execution)
    rw [Position.next, tainting.position, size, alike.processor]
    exact created

theorem InPhase.recorded (inPhase : session.InPhase origin executions genuine)
    {instruction : Instruction} {execution : Execution} {after : Engine}
    (foreseen : session.machine.execution = .ok execution)
    (running : session.machine.halted = false) (tainting : session.engine.Tainting executions)
    {now : Machine} (reached : origin.steps executions.length = .ok now)
    (alike : Alike session.machine now)
    (done : (session.engine.recordInstruction execution session.machine.processor).enter
      session.machine.memory instruction execution =
        ⟨after, session.machine.memory, .ok .proceed⟩)
    (supported : after.Supported genuine) (config : after.config = session.engine.config)
    (rollbacks : after.rollbacks = session.engine.rollbacks) :
    Reacts session origin executions genuine (⟨after, session.machine⟩, .ok .proceed) := by
  have small := inPhase.smallMemory
  obtain ⟨taintingToo, recording, logged⟩ := tainting.enter done
  have input : after.input = session.engine.input := congrArg Recording.input recording
  have baseInput : after.baseInput = session.engine.baseInput :=
    congrArg Recording.baseInput recording
  have base : after.basePosition = session.engine.basePosition :=
    congrArg Recording.basePosition recording
  refine .proceeds after supported running fun {machine} stepped =>
    ⟨.of_step small foreseen stepped config input rollbacks, .recorded execution tainting now
      reached alike ?_ taintingToo.phase recording⟩
  obtain ⟨next, steppedToo, alikeToo⟩ := alike.step small foreseen stepped
  have performs := inPhase.performs.append reached (alike.halted ▸ running)
    (alike.execution ▸ foreseen) steppedToo
  have frame := Machine.step_framed small foreseen stepped
  refine ⟨performs, inPhase.small, ?_, ?_, ?_, .tainting taintingToo supported next ?_ alikeToo⟩
  · simp only [input]
    exact inPhase.inside
  · simp only [input, baseInput]
    exact inPhase.holds
  · simp only [base]
    exact (inPhase.recalls_recordInstruction tainting reached alike execution).written logged
      frame.size frame.byte
  · rw [List.length_append, List.length_singleton, Machine.steps_succ]
    exact ⟨now, reached, steppedToo⟩

theorem InPhase.record (inPhase : session.InPhase origin executions genuine)
    {instruction : Instruction} {execution : Execution}
    (decoded : session.machine.decode = .ok instruction)
    (foreseen : session.machine.execution = .ok execution)
    (running : session.machine.halted = false) (tainting : session.engine.Tainting executions)
    {now : Machine} (reached : origin.steps executions.length = .ok now)
    (alike : Alike session.machine now) :
    Reacts session origin executions genuine (session.behind
      ((session.engine.recordInstruction execution session.machine.processor).enter
        session.machine.memory instruction execution)) := by
  have supported := inPhase.supported
  have entered := Engine.enter_entered
    (session.engine.recordInstruction execution session.machine.processor) session.machine.memory
    instruction execution
  generalize shape : (session.engine.recordInstruction execution session.machine.processor).enter
    session.machine.memory instruction execution = reaction at entered
  cases entered with
  | unreadable checkpoints access =>
      exact .failed _ _ (.readOutOfBounds access) ⟨supported.archived, supported.current⟩
  | undecided engine memory isBranch missing =>
      exact absurd missing (Machine.taken_of_isBranch decoded foreseen isBranch)
  | plain checkpoints logged notBranch =>
      exact inPhase.recorded foreseen running tainting reached alike shape
        ⟨supported.archived, supported.current⟩ rfl rfl
  | branch checkpoints logged taken outcome =>
      refine inPhase.recorded foreseen running tainting reached alike shape
        (Engine.Supported.recordBranch ?_ _ _) rfl rfl
      exact ⟨supported.archived, supported.current⟩

theorem InPhase.proceed (inPhase : session.InPhase origin executions genuine) {engine : Engine}
    {execution : Execution} (foreseen : session.machine.execution = .ok execution)
    (running : session.machine.halted = false) (phase : engine.phase = .rollbacking)
    (approaches : session.Approaches origin engine) (supported : engine.Supported genuine)
    (situation : ∀ {checkpoints : Array Checkpoint} {machine : Machine},
      LoggedAll session.machine.memory (execution.writes.flatMap MemoryRange.addresses)
        engine.checkpoints checkpoints → session.machine.step = .ok machine →
        Situation origin executions genuine ⟨{ engine with checkpoints := checkpoints }, machine⟩) :
    Reacts session origin executions genuine
      (session.behind (engine.proceed session.machine.memory execution.writes)) := by
  obtain ⟨checkpoints, ⟨logged, done⟩ | ⟨access, failed⟩⟩ :=
    engine.proceed_proceeded session.machine.memory execution.writes
  · have same := (Engine.recording_of_logged logged).trans approaches.recording
    have input := Engine.input_of_recording approaches.recording
    rw [done]
    refine .proceeds _ ⟨supported.archived, supported.current⟩ running fun stepped =>
      ⟨.of_step inPhase.smallMemory foreseen stepped approaches.config input approaches.rollbacks,
        .went ?_ phase same⟩
    have frame := Machine.step_framed inPhase.smallMemory foreseen stepped
    exact inPhase.of_recording same (approaches.recalls.written logged frame.size frame.byte)
      (situation logged stepped)
  · rw [failed]
    exact .failed _ _ (.readOutOfBounds access) ⟨supported.archived, supported.current⟩

theorem InPhase.follow (inPhase : session.InPhase origin executions genuine)
    {execution : Execution} (foreseen : session.machine.execution = .ok execution)
    (running : session.machine.halted = false)
    (approaches : session.Approaches origin session.engine.advanced)
    (forwards : session.engine.advanced.Forwards genuine executions) {now : Machine}
    (reached : origin.steps (session.engine.position - session.engine.basePosition) = .ok now)
    (alike : Alike session.machine now)
    (ahead : session.engine.basePosition ≤ session.engine.position) :
    Reacts session origin executions genuine
      (session.behind (session.engine.advanced.proceed session.machine.memory execution.writes)) := by
  refine inPhase.proceed foreseen running forwards.steered.phase approaches
    forwards.steered.supported (fun logged stepped => ?_)
  obtain ⟨next, steppedToo, alikeToo⟩ := alike.step inPhase.smallMemory foreseen stepped
  have base := Engine.basePosition_of_recording approaches.recording
  refine .forwarding (forwards.logged logged) next ?_ alikeToo
  simp only [Engine.position_advanced, base]
  rw [show session.engine.position + 1 - session.engine.basePosition =
    session.engine.position - session.engine.basePosition + 1 by omega, Machine.steps_succ]
  exact ⟨now, reached, steppedToo⟩

theorem InPhase.attempt (inPhase : session.InPhase origin executions genuine)
    {execution : Execution} (foreseen : session.machine.execution = .ok execution)
    (running : session.machine.halted = false) {resolution : Resolution}
    (attempting : ({ session.engine with position := session.engine.position + 1 } :
      Engine).Attempting genuine executions resolution) {now : Machine}
    (reached : (origin.withInput session.engine.input session.engine.baseInput
      resolution.attemptedInput).steps (session.engine.position - session.engine.basePosition) =
        .ok now)
    (alike : Alike session.machine now)
    (follows : (origin.withInput session.engine.input session.engine.baseInput
      resolution.attemptedInput).FollowsTrace session.engine.basePosition session.engine.trace
        (session.engine.position + 1))
    (ahead : session.engine.basePosition ≤ session.engine.position) :
    Reacts session origin executions genuine (session.behind
      (({ session.engine with position := session.engine.position + 1 } : Engine).proceed
        session.machine.memory execution.writes)) := by
  have approaches : session.Approaches origin
      { session.engine with position := session.engine.position + 1 } := by
    obtain ⟨recording, config, rollbacks, recalls, arms⟩ := inPhase.approaches
    exact ⟨recording, config, rollbacks, recalls, arms⟩
  refine inPhase.proceed foreseen running attempting.attempts.steered.phase approaches
    attempting.attempts.steered.supported (fun logged stepped => ?_)
  obtain ⟨next, steppedToo, alikeToo⟩ := alike.step inPhase.smallMemory foreseen stepped
  refine .attempting resolution (attempting.logged logged) next ?_ alikeToo follows
  simp only
  rw [show session.engine.position + 1 - session.engine.basePosition =
    session.engine.position - session.engine.basePosition + 1 by omega, Machine.steps_succ]
  exact ⟨now, reached, steppedToo⟩

end Session

end BranchSteer
