import BranchSteer.Proofs.Guarantees
import BranchSteer.Proofs.Moves

/-!
System calls are not replayed. A tainting phase that has a checkpoint ends in front of a system call, so a
trace holds none behind its first checkpoint, and only this part of it is replayed. A phase that starts from
a checkpoint creates one of its own for its first instruction.
-/

namespace BranchSteer

namespace Machine

def operationAt (machine : Machine) (address : Nat) : Except Fault Operation :=
  { machine with processor := { machine.processor with instructionPointer := address } }.operation

def ReadsAt (machine : Machine) (input : InputBuffer) (address : Nat) : Prop :=
  ∃ operation byte, machine.operationAt address = .ok operation ∧
    (∀ processor, (foresee processor operation).Reads byte) ∧ input.contains byte

variable {machine other : Machine} {input : InputBuffer} {address : Nat} {execution : Execution}

theorem operationAt_congr (same : other.program.operations = machine.program.operations)
    (address : Nat) : other.operationAt address = machine.operationAt address :=
  operation_congr same rfl

theorem operationAt_self (machine : Machine) :
    machine.operationAt machine.instructionPointer = machine.operation := rfl

theorem ReadsAt.congr (same : other.program.operations = machine.program.operations)
    (reads : machine.ReadsAt input address) : other.ReadsAt input address := by
  obtain ⟨operation, byte, found, facts⟩ := reads
  exact ⟨operation, byte, (operationAt_congr same address).trans found, facts⟩

theorem readsAt_of_execution (foreseen : machine.execution = .ok execution) {byte : Nat}
    (reads : execution.Reads byte) (inside : input.contains byte) :
    machine.ReadsAt input execution.address := by
  obtain ⟨operation, found, rfl⟩ := execution_eq_ok foreseen
  rw [execution_address foreseen]
  refine ⟨operation, byte, found, fun processor => ?_, inside⟩
  rw [Execution.Reads, (foresee_accesses processor machine.processor operation).1]
  exact reads

theorem ReadsAt.reads (reads : machine.ReadsAt input machine.instructionPointer)
    (foreseen : machine.execution = .ok execution) :
    ∃ byte, execution.Reads byte ∧ input.contains byte := by
  obtain ⟨operation, byte, found, each, inside⟩ := reads
  obtain ⟨same, there, rfl⟩ := execution_eq_ok foreseen
  rw [operationAt_self, there, Except.ok.injEq] at found
  exact ⟨byte, found ▸ each machine.processor, inside⟩

theorem not_reads_of_syscall (processor : Processor) (byte : Nat) :
    ¬ (foresee processor .syscall).Reads byte := by
  simp [foresee, Execution.plain, Execution.Reads]

theorem ReadsAt.not_syscall (reads : machine.ReadsAt input address) :
    machine.operationAt address ≠ .ok .syscall := by
  intro calls
  obtain ⟨operation, byte, found, each, _⟩ := reads
  rw [calls, Except.ok.injEq] at found
  exact not_reads_of_syscall machine.processor byte (found ▸ each machine.processor)

theorem isSyscall_of_decode {instruction : Instruction} (decoded : machine.decode = .ok instruction)
    (calls : machine.operation = .ok .syscall) : instruction.isSyscall := by
  obtain ⟨operation, found, rfl⟩ := decode_eq_ok decoded
  rw [calls, Except.ok.injEq] at found
  exact found ▸ rfl

end Machine

theorem Engine.of_point_recordInstruction {engine : Engine} {execution : Execution}
    {processor : Processor} {id : Nat} {point : Point}
    (found : (engine.recordInstruction execution processor).recording.points[id]? = some point) :
    engine.recording.points[id]? = some point ∨
      point.position = engine.position + 1 ∧
        ∃ byte, execution.Reads byte ∧ engine.input.contains byte := by
  have points := engine.recordInstruction_points execution processor
  split at points
  · rw [points] at found
    exact Or.inl found
  · rename_i nonempty
    rw [Std.ExtTreeSet.isEmpty_iff, Std.ExtTreeSet.eq_empty_iff_forall_not_mem,
      Classical.not_forall] at nonempty
    obtain ⟨byte, member⟩ := nonempty
    rw [points] at found
    rcases of_getElem?_push found with old | ⟨_, rfl⟩
    · exact Or.inl old
    · exact Or.inr ⟨rfl, byte, (engine.mem_inputReads execution byte).mp (Classical.not_not.mp member)⟩

theorem Recording.Describes.first_le {recording : Recording}
    {executions : List Execution} (describes : recording.Describes executions) {id : Nat} {point : Point}
    (found : recording.points[id]? = some point) :
    ∃ first, recording.points[0]? = some first ∧ first.position ≤ point.position := by
  rcases Nat.eq_zero_or_pos id with first | later
  · exact ⟨point, first ▸ found, Nat.le_refl _⟩
  · obtain ⟨below, _⟩ := Array.getElem?_eq_some_iff.mp found
    have there : recording.points[0]? = some recording.points[0] :=
      Array.getElem?_eq_getElem (by omega)
    exact ⟨_, there, Nat.le_of_lt (describes.increasing later there found)⟩

namespace Session

/-- What the engine has recorded lets it replay no system call. -/
structure Guarded (session : Session) : Prop where
  first : ∀ {point : Point}, session.engine.recording.points[0]? = some point →
    ∃ address, session.engine.trace[point.position - 1]? = some address ∧
      session.machine.ReadsAt session.engine.input address
  behind : ∀ {point : Point} {place address : Nat},
    session.engine.recording.points[0]? = some point → point.position ≤ place →
    session.engine.trace[place]? = some address →
      session.machine.operationAt address ≠ .ok .syscall
  ahead : session.engine.phase = .rollbacking → ∃ point,
    session.engine.recording.points[0]? = some point ∧
      point.position ≤ session.engine.position + 1
  seeded : session.engine.phase = .tainting → session.engine.phaseNumber ≠ 0 →
    session.engine.checkpoints = #[] →
      session.machine.ReadsAt session.engine.input session.machine.instructionPointer

variable {session next : Session} {origin : Machine} {executions : List Execution}
  {genuine : Finding → List UInt8 → Prop}

theorem Guarded.not_syscall_of_traced (guarded : session.Guarded)
    (rollbacking : session.engine.phase = .rollbacking)
    (traced : session.engine.trace[session.engine.position]? =
      some session.machine.instructionPointer) :
    session.machine.operation ≠ .ok .syscall := by
  obtain ⟨point, found, ahead⟩ := guarded.ahead rollbacking
  rcases Nat.lt_or_ge session.engine.position point.position with here | later
  · obtain ⟨address, known, reads⟩ := guarded.first found
    rw [show point.position - 1 = session.engine.position by omega, traced,
      Option.some.injEq] at known
    subst known
    exact reads.not_syscall
  · exact guarded.behind found later traced

theorem Guarded.of_recording (guarded : session.Guarded)
    (recording : next.engine.recording = session.engine.recording)
    (operations : next.machine.program.operations = session.machine.program.operations)
    (phase : next.engine.phase = .rollbacking)
    (ahead : ∃ point, session.engine.recording.points[0]? = some point ∧
      point.position ≤ next.engine.position + 1) : next.Guarded := by
  have input := Engine.input_of_recording recording
  have trace := Engine.trace_of_recording recording
  constructor
  · intro point found
    obtain ⟨address, known, reads⟩ := guarded.first (recording ▸ found)
    exact ⟨address, trace ▸ known, input ▸ reads.congr operations⟩
  · intro point place address found later known
    rw [Machine.operationAt_congr operations]
    exact guarded.behind (recording ▸ found) later (trace ▸ known)
  · exact fun _ => recording ▸ ahead
  · intro tainting
    simp [phase] at tainting

theorem Guarded.recorded (guarded : session.Guarded)
    (ends : session.engine.config.endAtSyscall) {instruction : Instruction} {execution : Execution}
    (decoded : session.machine.decode = .ok instruction)
    (foreseen : session.machine.execution = .ok execution)
    (tainting : session.engine.Tainting executions) (allows : session.engine.Allows instruction)
    (phase : next.engine.phase = .tainting)
    (recording : next.engine.recording =
      (session.engine.recordInstruction execution session.machine.processor).recording)
    (operations : next.machine.program.operations = session.machine.program.operations) :
    next.Guarded := by
  have input : next.engine.input = session.engine.input := congrArg Recording.input recording
  have trace : next.engine.trace = session.engine.trace.push execution.address :=
    congrArg Recording.trace recording
  have position := tainting.position
  have size : session.engine.trace.size = session.engine.basePosition + executions.length :=
    tainting.describes.traceSize
  constructor
  · intro point found
    rcases Engine.of_point_recordInstruction (recording ▸ found) with old | ⟨here, byte, reads, inside⟩
    · obtain ⟨address, known, reads⟩ := guarded.first old
      obtain ⟨below, _⟩ := Array.getElem?_eq_some_iff.mp known
      refine ⟨address, ?_, input ▸ reads.congr operations⟩
      rw [trace, Array.getElem?_push_lt below, ← Array.getElem?_eq_getElem below, known]
    · refine ⟨execution.address, ?_,
        input ▸ (Machine.readsAt_of_execution foreseen reads inside).congr operations⟩
      rw [trace, here, position, Nat.add_sub_cancel, Array.getElem?_push_size]
  · intro point place address found later known
    rw [Machine.operationAt_congr operations]
    rw [trace] at known
    rcases of_getElem?_push known with old | ⟨last, rfl⟩
    · rcases Engine.of_point_recordInstruction (recording ▸ found) with before | ⟨here, _⟩
      · exact guarded.behind before later old
      · obtain ⟨below, _⟩ := Array.getElem?_eq_some_iff.mp old
        omega
    · rcases Engine.of_point_recordInstruction (recording ▸ found) with before | ⟨here, _⟩
      · -- There is a checkpoint already, so that a system call would have ended the phase.
        intro calls
        rw [Machine.execution_address foreseen, Machine.operationAt_self] at calls
        have empty := allows.replayable (Machine.isSyscall_of_decode decoded calls) ends
        simp [Engine.recording, empty] at before
      · omega
  · intro rollbacking
    simp [phase] at rollbacking
  · intro _ number empty
    rw [show next.engine.phaseNumber = session.engine.phaseNumber from
      congrArg Recording.phaseNumber recording] at number
    have none : next.engine.recording.points.size = 0 := by simp [Engine.recording, empty]
    have points := Engine.recordInstruction_points session.engine execution session.machine.processor
    rw [← recording] at points
    split at points
    · rename_i unread
      have before : session.engine.checkpoints = #[] := by
        rw [points, Array.size_eq_zero_iff, Engine.recording, Array.map_eq_empty_iff] at none
        exact none
      obtain ⟨byte, reads, inside⟩ := (guarded.seeded tainting.phase number before).reads foreseen
      have member := (session.engine.mem_inputReads execution byte).mpr ⟨reads, inside⟩
      rw [Std.ExtTreeSet.isEmpty_iff.mp unread] at member
      simp at member
    · rw [points, Array.size_push] at none
      omega

theorem InPhase.guarded_returned (inPhase : session.InPhase origin executions genuine)
    (guarded : session.Guarded) {engine : Engine} {decision : Decision}
    (approaches : session.Approaches origin engine)
    (takesBack : engine.TakesBack genuine executions decision) {memory : Memory}
    {processor : Processor} (done : decision.carryOut session.machine.memory =
      ⟨next.engine, memory, .ok (.rollback processor)⟩)
    (machine : next.machine =
      Machine.resume { session.machine with memory := memory } processor) : next.Guarded := by
  obtain ⟨recording, describes⟩ := inPhase.describes_of_keeps approaches takesBack.keeps
  have operations : next.machine.program.operations = session.machine.program.operations :=
    congrArg (fun machine => machine.program.operations) machine
  have base := Engine.basePosition_of_recording recording
  have went : ∀ {index : Nat} {reached : Machine},
      WentBack decision origin index reached next.engine memory →
      ∃ point, session.engine.recording.points[0]? = some point ∧
        point.position ≤ next.engine.position + 1 := by
    intro index reached wentBack
    obtain ⟨id, _, _, order, _⟩ := wentBack.target
    obtain ⟨point, found, place, _⟩ := wentBack.of_target order
    obtain ⟨first, there, before⟩ := describes.first_le found
    exact ⟨first, recording ▸ there, by rw [wentBack.position]; omega⟩
  have returns := inPhase.returns approaches takesBack
  rw [done] at returns
  cases returns with
  | attempting index reached _ _ wentBack same _ _ _ _ _ _ _ attempting =>
      exact guarded.of_recording (same.trans recording) operations attempting.attempts.steered.phase
        (went wentBack)
  | forwarding index reached _ _ wentBack same _ _ _ forwards =>
      exact guarded.of_recording (same.trans recording) operations forwards.steered.phase
        (went wentBack)
  | tainting index reached _ _ wentBack seed restart restarted tainting =>
      have none : next.engine.recording.points[0]? = Option.none := by
        simp [Engine.recording, restarted.checkpoints]
      refine ⟨fun found => ?_, fun found => ?_, fun rollbacking => ?_, fun _ _ _ => ?_⟩
      · simp [none] at found
      · simp [none] at found
      · simp [tainting.phase] at rollbacking
      · -- The phase starts in front of the instruction that the first checkpoint belongs to.
        obtain ⟨id, _, _, order, _⟩ := wentBack.target
        obtain ⟨point, found, place, _⟩ := wentBack.of_target order
        rw [restart, Order.target?, Option.some.injEq, Prod.mk.injEq] at order
        obtain ⟨rfl, _⟩ := order
        obtain ⟨address, known, reads⟩ := guarded.first (recording ▸ found)
        have bound := wentBack.bound describes
        have recorded : executions[index]? = some executions[index] :=
          List.getElem?_eq_getElem bound
        obtain ⟨_, foreseen⟩ := inPhase.performs.each_of_steps recorded wentBack.reached
        have traced := inPhase.describes.trace recorded
        rw [show point.position - 1 = session.engine.basePosition + index by omega] at known
        rw [show session.engine.recording.trace = session.engine.trace from rfl,
          show session.engine.recording.basePosition = session.engine.basePosition from rfl, known,
          Option.some.injEq, Machine.execution_address foreseen] at traced
        have input := wentBack.input.trans (Engine.input_of_recording recording)
        have pointer : next.machine.instructionPointer = reached.instructionPointer := by
          rw [machine]
          rfl
        rw [input, pointer, ← traced]
        exact reads.congr operations

theorem InPhase.guarded_next (inPhase : session.InPhase origin executions genuine)
    (ends : session.engine.config.endAtSyscall)
    (moves : session.Moves origin executions genuine next) (guarded : session.Guarded) :
    next.Guarded := by
  cases moves with
  | steps proceeds stepped =>
      cases proceeds with
      | records instruction execution decoded foreseen tainting now reached alike allows entered =>
          obtain ⟨taintingToo, recording, _⟩ := tainting.enter entered
          have program := (Machine.step_framed inPhase.smallMemory foreseen stepped).program
          exact guarded.recorded ends decoded foreseen tainting allows taintingToo.phase recording
            (by rw [program])
      | replays execution foreseen rollbacking ahead traced checkpoints engine recording =>
          have program := (Machine.step_framed inPhase.smallMemory foreseen stepped).program
          obtain ⟨point, found, before⟩ := guarded.ahead rollbacking
          refine guarded.of_recording recording (by rw [program]) (by rw [engine]; exact rollbacking)
            ⟨point, found, ?_⟩
          rw [engine]
          exact Nat.le_succ_of_le before
  | returns engine decision decides approaches takesBack memory processor done machine =>
      exact inPhase.guarded_returned guarded approaches takesBack done machine

variable {config : Config} {drawn : Random} {program : Program} {first creator after : Session}
  {stepLimit turns turn phase id : Nat}

theorem guarded_of_afterTurns (launched : launch config program drawn = .ok first)
    (ends : config.endAtSyscall) (here : first.afterTurns stepLimit turns = some session) :
    session.Guarded := by
  induction turns generalizing session with
  | zero =>
      rw [afterTurns, Option.some.injEq] at here
      subst here
      obtain ⟨machine, baseInput, text, _, rfl⟩ := launch_eq_ok launched
      refine ⟨fun found => ?_, fun found => ?_, fun rollbacking => ?_, fun _ number => ?_⟩
      · simp [Engine.recording, Engine.inform, Engine.note, Engine.initial] at found
      · simp [Engine.recording, Engine.inform, Engine.note, Engine.initial] at found
      · simp [Engine.inform, Engine.note] at rollbacking
      · exact absurd rfl number
  | succ turns ih =>
      obtain ⟨before, known, done⟩ := afterTurns_succ here
      obtain ⟨_, origin, _, since⟩ := since_of_afterTurns launched known
      have config := since.config.trans (launch_since launched stepLimit).1
      exact since.inPhase.guarded_next (config ▸ ends)
        (since.inPhase.moves (since.learns known) done) (ih known)

theorem no_checkpoint_of_syscall (empty : session.engine.checkpoints = #[]) {execution : Execution}
    (foreseen : session.machine.execution = .ok execution)
    (calls : session.machine.operation = .ok .syscall) (recording : after.engine.recording =
      (session.engine.recordInstruction execution session.machine.processor).recording) :
    after.engine.checkpoints.size = 0 := by
  rw [← size_points]
  refine Nat.eq_zero_of_not_pos fun nonempty => ?_
  obtain ⟨point, found⟩ : ∃ point, after.engine.recording.points[0]? = some point :=
    ⟨_, Array.getElem?_eq_getElem nonempty⟩
  rw [recording] at found
  rcases Engine.of_point_recordInstruction found with old | ⟨_, byte, reads, _⟩
  · simp [Engine.recording, empty] at old
  · obtain ⟨operation, known, rfl⟩ := Machine.execution_eq_ok foreseen
    rw [calls, Except.ok.injEq] at known
    subst known
    exact Machine.not_reads_of_syscall _ byte reads

/-- Once a run has created a checkpoint, it executes no system call any more. -/
theorem not_syscall_of_created (launched : launch config program drawn = .ok first)
    (ends : config.endAtSyscall) (created : first.afterTurns stepLimit turn = some creator)
    (creates : creator.Creates phase id) (later : turn ≤ turns)
    (here : first.afterTurns stepLimit turns = some session)
    (reaction : session.react = (after, .ok .proceed)) :
    after.machine.operation ≠ .ok .syscall := by
  obtain ⟨_, origin, _, since⟩ := since_of_afterTurns launched here
  obtain ⟨same, _, proceeds⟩ := since.inPhase.proceeds (since.learns here) reaction
  have guarded := guarded_of_afterTurns launched ends here
  rw [same]
  cases proceeds with
  | records instruction execution decoded foreseen tainting now reached alike allows entered =>
      intro calls
      have config := since.config.trans (launch_since launched stepLimit).1
      have empty := allows.replayable (Machine.isSyscall_of_decode decoded calls) (config ▸ ends)
      by_cases number : session.engine.phaseNumber = 0
      · rcases Nat.lt_or_eq_of_le later with before | now
        · have grown := creates_later launched created creates before here
          rw [empty] at grown
          simp at grown
          omega
        · subst now
          rw [created, Option.some.injEq] at here
          subst here
          obtain ⟨_, recording, _⟩ := tainting.enter entered
          have grown := creates.after
          rw [reaction] at grown
          exact Nat.succ_ne_zero id
            (grown.symm.trans (no_checkpoint_of_syscall empty foreseen calls recording))
      · exact (guarded.seeded tainting.phase number empty).not_syscall calls
  | replays execution foreseen rollbacking ahead traced checkpoints engine recording =>
      rw [Machine.execution_address foreseen] at traced
      exact guarded.not_syscall_of_traced rollbacking traced

/-- A program that calls the system in front of its only test, and again unless the input passes it. -/
def callsAround : Program where
  operations := #[.syscall, .loadByte "a" 0, .compareImmediate "a" 0, .jumpIfEqual 5, .syscall, .halt]
  inputAddress := 0
  input := [0]
  memorySize := 1

instance (session : Session) (phase id : Nat) : Decidable (session.Creates phase id) :=
  decidable_of_iff (session.engine.phaseNumber = phase ∧ session.engine.checkpoints.size = id ∧
      session.react.1.engine.checkpoints.size = id + 1)
    ⟨fun ⟨number, before, after⟩ => ⟨number, before, after⟩,
      fun creates => ⟨creates.phaseNumber, creates.before, creates.after⟩⟩

def executes (session : Session) : Bool :=
  match session.react.2 with
  | .ok .proceed => true
  | _ => false

theorem exists_of_executes (executes : session.executes) :
    ∃ after, session.react = (after, .ok .proceed) := by
  unfold Session.executes at executes
  generalize session.react = behind at executes
  obtain ⟨after, result⟩ := behind
  split at executes
  · rename_i same
    exact ⟨after, Prod.ext rfl same⟩
  · simp at executes

theorem not_syscall_of_created_callsAround :
    ∃ first creator jumping after, launch (.seeded 7) callsAround = .ok first ∧
      first.machine.operation = .ok .syscall ∧ first.executes ∧
      first.afterTurns 100 1 = some creator ∧ creator.Creates 0 0 ∧
      first.afterTurns 100 8 = some jumping ∧ jumping.react = (after, .ok .proceed) ∧
      after.machine.operation ≠ .ok .syscall := by
  have runs : ((launch (.seeded 7) callsAround).toOption.any fun first =>
      decide (first.machine.operation.toOption = some .syscall) && first.executes &&
        (first.afterTurns 100 1).any (fun session => decide (session.Creates 0 0)) &&
        (first.afterTurns 100 8).any executes) = true := by
    decide +kernel
  simp only [Bool.and_eq_true, Option.any_eq_true, decide_eq_true_eq] at runs
  obtain ⟨first, launched, ⟨⟨calls, called⟩, creator, created, creates⟩, jumping, here, goesOn⟩ := runs
  obtain ⟨after, reaction⟩ := exists_of_executes goesOn
  exact ⟨first, creator, jumping, after, eq_ok_of_toOption launched, eq_ok_of_toOption calls, called,
    created, creates, here, reaction,
    not_syscall_of_created (eq_ok_of_toOption launched) rfl created creates (by decide) here reaction⟩

end Session

end BranchSteer
