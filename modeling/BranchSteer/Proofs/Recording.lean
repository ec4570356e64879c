import BranchSteer.Engine.Callback
import BranchSteer.Proofs.Attribution
import BranchSteer.Proofs.Candidates
import BranchSteer.Proofs.CheckpointStack

/-!
The tainting phase: what it records of the executed instructions, and that its end finds candidates for
every branch that depends on the input. No byte of a candidate is touched before its checkpoint.
-/

namespace BranchSteer

structure Point where
  position : Nat
  processor : Processor
  inputBytes : Std.ExtTreeSet Nat

def Checkpoint.point (checkpoint : Checkpoint) : Point :=
  ⟨checkpoint.position, checkpoint.processor, checkpoint.inputBytes⟩

/-- The record of a phase. A tainting phase adds to it, and the rollbacking phase leaves it alone. -/
structure Recording where
  input : InputBuffer
  baseInput : List UInt8
  phaseNumber : Nat
  basePosition : Nat
  trace : Array Nat
  points : Array Point

def Engine.recording (engine : Engine) : Recording where
  input := engine.input
  baseInput := engine.baseInput
  phaseNumber := engine.phaseNumber
  basePosition := engine.basePosition
  trace := engine.trace
  points := engine.checkpoints.map Checkpoint.point

section

variable {before after : Engine} (same : after.recording = before.recording)

include same

theorem Engine.input_of_recording : after.input = before.input := congrArg Recording.input same

theorem Engine.baseInput_of_recording : after.baseInput = before.baseInput :=
  congrArg Recording.baseInput same

theorem Engine.phaseNumber_of_recording : after.phaseNumber = before.phaseNumber :=
  congrArg Recording.phaseNumber same

theorem Engine.basePosition_of_recording : after.basePosition = before.basePosition :=
  congrArg Recording.basePosition same

theorem Engine.trace_of_recording : after.trace = before.trace := congrArg Recording.trace same

end

theorem map_point_eq {before after : Array Checkpoint} (size : after.size = before.size)
    (each : ∀ {id : Nat} {checkpoint : Checkpoint}, before[id]? = some checkpoint →
      ∃ other, after[id]? = some other ∧ other.point = checkpoint.point) :
    after.map Checkpoint.point = before.map Checkpoint.point := by
  apply Array.ext_getElem?
  intro id
  simp only [Array.getElem?_map]
  cases found : before[id]? with
  | some checkpoint =>
      obtain ⟨other, there, same⟩ := each found
      simp [there, same]
  | none =>
      rw [Array.getElem?_eq_none_iff, ← size] at found
      simp [Array.getElem?_eq_none found]

theorem Reverted.map_point {memory : Memory} {addresses : List Nat} {id : Nat}
    {before after : Array Checkpoint} (reverted : Reverted memory addresses id before after) :
    after.map Checkpoint.point = before.map Checkpoint.point := by
  refine map_point_eq reverted.size fun known => ?_
  obtain ⟨other, there⟩ := exists_getElem?_of_size reverted.size.symm known
  obtain ⟨old, knownToo, position, processor, bytes⟩ := reverted.origin there
  rw [known, Option.some.injEq] at knownToo
  subst knownToo
  exact ⟨other, there, by simp only [Checkpoint.point, position, processor, bytes]⟩

theorem Checkpoint.Logged.point_eq {memory : Memory} {addresses : List Nat}
    {before after : Checkpoint} (logged : Logged memory addresses before after) :
    after.point = before.point := by
  simp only [point, logged.position, logged.processor, logged.inputBytes]

theorem LoggedAll.points_eq {memory : Memory} {addresses : List Nat}
    {before after : Array Checkpoint} (logged : LoggedAll memory addresses before after) :
    after.map Checkpoint.point = before.map Checkpoint.point := by
  refine map_point_eq logged.size fun found => ?_
  obtain ⟨tracked, there, logs⟩ := logged.each found
  exact ⟨tracked, there, logs.point_eq⟩

structure Finding where
  phase : Nat
  address : Nat
  position : Nat
  taken : Bool
  isResolved : Bool
  flippingInput : Option (List UInt8)

def Branch.finding (branch : Branch) : Finding where
  phase := branch.phase
  address := branch.address
  position := branch.position
  taken := branch.taken
  isResolved := branch.isResolved
  flippingInput := branch.flippingInput

namespace Recording

structure Describes (recording : Recording) (executions : List Execution) : Prop where
  inputLength : recording.baseInput.length = recording.input.length
  traceSize : recording.trace.size = recording.basePosition + executions.length
  trace : ∀ {index : Nat} {execution : Execution}, executions[index]? = some execution →
    recording.trace[recording.basePosition + index]? = some execution.address
  point : ∀ {id : Nat} {point : Point}, recording.points[id]? = some point →
    ∃ (index : Nat) (execution : Execution), executions[index]? = some execution ∧
      point.position = recording.basePosition + index + 1 ∧ ∀ address,
        address ∈ point.inputBytes ↔
          execution.Reads address ∧ recording.input.contains address
  increasing : ∀ {lower upper : Nat} {first second : Point}, lower < upper →
    recording.points[lower]? = some first → recording.points[upper]? = some second →
      first.position < second.position
  complete : ∀ {index : Nat} {execution : Execution} {address : Nat},
    executions[index]? = some execution → execution.Reads address →
      recording.input.contains address → ∃ (id : Nat) (point : Point),
        recording.points[id]? = some point ∧ point.position = recording.basePosition + index + 1

structure Untouched (recording : Recording) (executions : List Execution) (position address : Nat) :
    Prop where
  inside : recording.input.contains address
  before : ∀ {index : Nat} {execution : Execution}, executions[index]? = some execution →
    recording.basePosition + index + 1 < position → ¬ execution.Touches address

theorem Untouched.mono {recording : Recording} {executions : List Execution}
    {earlier later address : Nat} (bound : earlier ≤ later)
    (untouched : recording.Untouched executions later address) :
    recording.Untouched executions earlier address :=
  ⟨untouched.inside, fun found before => untouched.before found (by omega)⟩

structure Observed (recording : Recording) (executions : List Execution) (position : Nat)
    (branch : Branch) : Prop where
  key : branch.position = position
  phase : branch.phase = recording.phaseNumber
  outcome : ∃ (index : Nat) (execution : Execution), executions[index]? = some execution ∧
    position = recording.basePosition + index + 1 ∧ execution.address = branch.address ∧
      execution.taken = some branch.taken

def Candidate (recording : Recording) (executions : List Execution) (position id : Nat)
    (bytes : Std.ExtTreeSet Nat) : Prop :=
  ∃ point, recording.points[id]? = some point ∧ point.position ≤ position ∧
    ∀ address ∈ bytes, recording.Untouched executions point.position address

/-- A record that can be resolved: while it is open, there is a checkpoint to flip it from and a
successor in the trace that shows a flip. -/
structure Steerable (recording : Recording) (executions : List Execution) (position : Nat)
    (branch : Branch) : Prop where
  observed : recording.Observed executions position branch
  candidate : ∀ {id : Nat} {bytes : Std.ExtTreeSet Nat}, branch.candidates[id]? = some bytes →
    recording.Candidate executions position id bytes
  pending : branch.isOpen → branch.candidates ≠ ∅ ∧ position < recording.trace.size

variable {recording : Recording} {executions : List Execution}

/-- A byte that was imported lies in a checkpoint, and the first one to read it comes before anything
that touches it. -/
theorem Describes.imported (describes : recording.Describes executions) {graph : Flow.Graph}
    (follows : graph.Follows recording.basePosition executions)
    (sameInput : graph.input = recording.input) {address position : Nat}
    (imported : graph.ImportedBy address position) :
    (∃ point ∈ recording.points.toList, address ∈ point.inputBytes) ∧
      ∀ {id : Nat} {point : Point}, recording.points[id]? = some point →
        address ∈ point.inputBytes →
        (∀ {earlier : Nat} {other : Point}, earlier < id →
          recording.points[earlier]? = some other → address ∉ other.inputBytes) →
        point.position ≤ position ∧ recording.Untouched executions point.position address := by
  obtain ⟨vertex, found, late⟩ := imported
  obtain ⟨_, inside, index, execution, there, reads, untouched, behind⟩ := follows.imports found
  rw [sameInput] at inside
  obtain ⟨first, reader, readerFound, readerPosition⟩ := describes.complete there reads inside
  obtain ⟨readerIndex, other, otherThere, otherPosition, bytes⟩ := describes.point readerFound
  have sameIndex : readerIndex = index := by omega
  subst sameIndex
  rw [there, Option.some.injEq] at otherThere
  subst otherThere
  have covered : address ∈ reader.inputBytes := (bytes address).mpr ⟨reads, inside⟩
  refine ⟨⟨reader, ?_, covered⟩, fun {id point} pointFound member unread => ?_⟩
  · exact Array.mem_toList_iff.mpr (Array.mem_of_getElem? readerFound)
  · have upTo : point.position ≤ reader.position := by
      rcases Nat.lt_trichotomy id first with below | same | above
      · exact Nat.le_of_lt (describes.increasing below pointFound readerFound)
      · subst same
        rw [pointFound, Option.some.injEq] at readerFound
        exact readerFound ▸ Nat.le_refl _
      · exact absurd covered (unread above readerFound)
    have afterwards := late fun edge out => Nat.succ_le_of_lt (behind edge out)
    refine ⟨by omega, inside, fun {earlier execution} early before => ?_⟩
    exact untouched (by omega) early

theorem Observed.append {longer : Recording} {position : Nat} {branch : Branch}
    (observed : recording.Observed executions position branch)
    (phase : longer.phaseNumber = recording.phaseNumber)
    (base : longer.basePosition = recording.basePosition) (execution : Execution) :
    longer.Observed (executions ++ [execution]) position branch := by
  obtain ⟨key, samePhase, index, other, found, place, facts⟩ := observed
  obtain ⟨bound, _⟩ := List.getElem?_eq_some_iff.mp found
  exact ⟨key, samePhase.trans phase.symm, index, other,
    by rwa [List.getElem?_append_left bound], by rw [base]; exact place, facts⟩

end Recording

namespace Engine

theorem mem_inputReads (engine : Engine) (execution : Execution) (address : Nat) :
    address ∈ engine.inputReads execution ↔
      execution.Reads address ∧ engine.input.contains address := by
  simp [inputReads, Execution.Reads]

theorem recordInstruction_points (engine : Engine) (execution : Execution)
    (processor : Processor) : (engine.recordInstruction execution processor).recording.points =
      if (engine.inputReads execution).isEmpty then engine.recording.points
      else engine.recording.points.push
        ⟨engine.position + 1, processor, engine.inputReads execution⟩ := by
  simp only [recordInstruction, recording]
  split
  · rfl
  · simp [Checkpoint.point, Checkpoint.create, Position.next]

theorem of_points_recordInstruction {engine : Engine} {execution : Execution} {processor : Processor}
    {id : Nat} {point : Point}
    (found : (engine.recordInstruction execution processor).recording.points[id]? = some point) :
    engine.recording.points[id]? = some point ∨
      id = engine.recording.points.size ∧
        point = ⟨engine.position + 1, processor, engine.inputReads execution⟩ := by
  rw [recordInstruction_points] at found
  split at found
  · exact Or.inl found
  · exact of_getElem?_push found

theorem points_recordInstruction_of_old {engine : Engine} {id : Nat} {point : Point}
    (found : engine.recording.points[id]? = some point) (execution : Execution)
    (processor : Processor) :
    (engine.recordInstruction execution processor).recording.points[id]? = some point := by
  rw [recordInstruction_points]
  split
  · exact found
  · obtain ⟨bound, _⟩ := Array.getElem?_eq_some_iff.mp found
    rw [Array.getElem?_push_lt bound, ← found, Array.getElem?_eq_getElem bound]

theorem points_recordInstruction_of_reads (engine : Engine) {execution : Execution} {address : Nat}
    (reads : execution.Reads address) (inside : engine.input.contains address)
    (processor : Processor) :
    (engine.recordInstruction execution processor).recording.points[engine.recording.points.size]? =
      some ⟨engine.position + 1, processor, engine.inputReads execution⟩ := by
  have member := (engine.mem_inputReads execution address).mpr ⟨reads, inside⟩
  have nonempty : ¬ (engine.inputReads execution).isEmpty := by
    intro isEmpty
    rw [Std.ExtTreeSet.isEmpty_iff.mp isEmpty] at member
    simp at member
  rw [recordInstruction_points, if_neg nonempty, Array.getElem?_push_size]

theorem recordInstruction_describes {engine : Engine} {executions : List Execution}
    (describes : engine.recording.Describes executions) (position : engine.position = engine.trace.size)
    (execution : Execution) (processor : Processor) :
    (engine.recordInstruction execution processor).recording.Describes
      (executions ++ [execution]) := by
  have size : engine.trace.size = engine.basePosition + executions.length := describes.traceSize
  have base : engine.recording.basePosition = engine.basePosition := rfl
  have baseToo : (engine.recordInstruction execution processor).recording.basePosition =
      engine.basePosition := rfl
  have trace : (engine.recordInstruction execution processor).recording.trace =
      engine.trace.push execution.address := rfl
  constructor
  · exact describes.inputLength
  · rw [trace, baseToo, Array.size_push, List.length_append, List.length_singleton, size,
      Nat.add_assoc]
  · intro index other found
    rw [trace, baseToo]
    rcases of_getElem?_concat found with known | ⟨rfl, rfl⟩
    · obtain ⟨bound, _⟩ := List.getElem?_eq_some_iff.mp known
      rw [Array.getElem?_push, if_neg (by omega)]
      exact describes.trace known
    · rw [← size, Array.getElem?_push_size]
  · intro id point found
    rcases of_points_recordInstruction found with old | ⟨_, rfl⟩
    · obtain ⟨index, other, there, place, bytes⟩ := describes.point old
      obtain ⟨bound, _⟩ := List.getElem?_eq_some_iff.mp there
      exact ⟨index, other, by rwa [List.getElem?_append_left bound], place, bytes⟩
    · refine ⟨executions.length, execution, by simp, ?_, engine.mem_inputReads execution⟩
      simp only [baseToo]
      omega
  · intro lower upper first second ordered low high
    rcases of_points_recordInstruction high with old | ⟨last, rfl⟩
    · rcases of_points_recordInstruction low with oldLow | ⟨lastLow, _⟩
      · exact describes.increasing ordered oldLow old
      · obtain ⟨bound, _⟩ := Array.getElem?_eq_some_iff.mp old
        omega
    · rcases of_points_recordInstruction low with oldLow | ⟨lastLow, _⟩
      · obtain ⟨index, other, there, place, _⟩ := describes.point oldLow
        obtain ⟨bound, _⟩ := List.getElem?_eq_some_iff.mp there
        simp only
        omega
      · omega
  · intro index other address found reads inside
    rcases of_getElem?_concat found with known | ⟨rfl, rfl⟩
    · obtain ⟨id, point, there, place⟩ := describes.complete known reads inside
      exact ⟨id, point, points_recordInstruction_of_old there _ _, place⟩
    · have last := points_recordInstruction_of_reads engine reads inside processor
      refine ⟨_, _, last, ?_⟩
      simp only [baseToo]
      omega

structure Tainting (engine : Engine) (executions : List Execution) : Prop where
  phase : engine.phase = .tainting
  describes : engine.recording.Describes executions
  position : engine.position = engine.trace.size
  armed : ∀ {id : Nat} {checkpoint : Checkpoint},
    engine.checkpoints[id]? = some checkpoint → checkpoint.armed
  branch : ∀ {position : Nat} {branch : Branch}, engine.branches[position]? = some branch →
    engine.recording.Observed executions position branch ∧ branch.isUndecided ∧
      branch.inputDependencies = ∅ ∧ branch.candidates = ∅
  follows : engine.graph.Follows engine.basePosition executions
  sameInput : engine.graph.input = engine.input

inductive Entered (engine : Engine) (memory : Memory) (instruction : Instruction)
    (execution : Execution) : Reaction → Prop
  | unreadable (checkpoints : Array Checkpoint) (access : MemoryRange) :
    Entered _ _ _ _ ⟨{ engine with checkpoints := checkpoints }, memory,
      .error (.readOutOfBounds access)⟩
  | undecided (engine : Engine) (memory : Memory) (isBranch : instruction.isBranch)
    (missing : execution.taken = none) :
    Entered _ _ _ _ ⟨engine, memory, .error (.missingOutcome execution.address)⟩
  | plain (checkpoints : Array Checkpoint)
    (logged : LoggedAll memory (execution.writes.flatMap MemoryRange.addresses) engine.checkpoints
      checkpoints) (notBranch : ¬ instruction.isBranch) :
    Entered _ _ _ _ ⟨{ engine with
      checkpoints := checkpoints
      graph := engine.graph.propagate instruction execution engine.position }, memory, .ok .proceed⟩
  | branch (checkpoints : Array Checkpoint)
    (logged : LoggedAll memory (execution.writes.flatMap MemoryRange.addresses) engine.checkpoints
      checkpoints) (taken : Bool) (outcome : execution.taken = some taken) :
    Entered _ _ _ _ ⟨Engine.recordBranch { engine with
      checkpoints := checkpoints
      graph := engine.graph.propagate instruction execution engine.position }
      execution.address taken, memory, .ok .proceed⟩

theorem enter_entered (engine : Engine) (memory : Memory) (instruction : Instruction)
    (execution : Execution) :
    Entered engine memory instruction execution (engine.enter memory instruction execution) := by
  unfold enter
  rw [logWrites_eq]
  cases logs : logRanges memory execution.writes engine.checkpoints with
  | mk checkpoints failure =>
      cases failure with
      | some fault =>
          obtain ⟨access, _, rfl, _⟩ := logRanges_error logs
          exact .unreadable checkpoints access
      | none =>
          have logged := logRanges_loggedAll logs
          simp only
          split
          · rename_i notBranch
            exact .plain checkpoints logged (by simpa using notBranch)
          · rename_i isBranch
            split
            · rename_i missing
              exact .undecided _ _ (by simpa using isBranch) missing
            · rename_i taken outcome
              exact .branch checkpoints logged taken outcome

theorem recording_of_logged {engine : Engine} {checkpoints : Array Checkpoint} {memory : Memory}
    {addresses : List Nat} (logged : LoggedAll memory addresses engine.checkpoints checkpoints) :
    ({ engine with checkpoints := checkpoints } : Engine).recording = engine.recording := by
  simp only [recording, logged.points_eq]

theorem Tainting.armed_recordInstruction {engine : Engine} {executions : List Execution}
    (tainting : engine.Tainting executions) {execution : Execution} {processor : Processor} {id : Nat}
    {checkpoint : Checkpoint}
    (found : (engine.recordInstruction execution processor).checkpoints[id]? = some checkpoint) :
    checkpoint.armed := by
  simp only [recordInstruction] at found
  split at found
  · exact tainting.armed found
  · rcases of_getElem?_push found with known | ⟨_, rfl⟩
    · exact tainting.armed known
    · rfl

theorem Tainting.propagate {engine : Engine} {executions : List Execution} {memory : Memory}
    {checkpoints : Array Checkpoint} {execution : Execution} {processor : Processor}
    (tainting : engine.Tainting executions)
    (logged : LoggedAll memory (execution.writes.flatMap MemoryRange.addresses)
      (engine.recordInstruction execution processor).checkpoints checkpoints)
    (instruction : Instruction) :
    ({ engine.recordInstruction execution processor with
      checkpoints := checkpoints
      graph := engine.graph.propagate instruction execution (engine.position + 1) } :
        Engine).Tainting (executions ++ [execution]) := by
  have same := recording_of_logged logged
  have last : engine.position + 1 = engine.basePosition + executions.length + 1 := by
    rw [tainting.position, Nat.succ_inj]
    exact tainting.describes.traceSize
  refine ⟨tainting.phase, ?_, ?_, fun {id checkpoint} found => ?_, fun {at_ branch} found => ?_, ?_, ?_⟩
  · exact same ▸ recordInstruction_describes tainting.describes tainting.position execution processor
  · exact (congrArg (· + 1) tainting.position).trans (Array.size_push execution.address).symm
  · obtain ⟨old, known, logs⟩ := logged.origin found
    exact logs.armed ▸ tainting.armed_recordInstruction known
  · obtain ⟨observed, fresh⟩ := tainting.branch found
    exact ⟨observed.append (by rfl) (by rfl) execution, fresh⟩
  · rw [last]
    exact tainting.follows.propagate instruction execution
  · exact (Flow.Graph.propagate_propagated tainting.follows.bound instruction execution _).input.trans
      tainting.sameInput

theorem Tainting.recordBranch {engine : Engine} {executions : List Execution} {execution : Execution}
    {taken : Bool} (tainting : engine.Tainting (executions ++ [execution]))
    (outcome : execution.taken = some taken) :
    (engine.recordBranch execution.address taken).Tainting (executions ++ [execution]) := by
  have last : engine.position = engine.basePosition + executions.length + 1 := by
    have size : engine.trace.size = engine.basePosition + (executions ++ [execution]).length :=
      tainting.describes.traceSize
    rw [tainting.position, size, List.length_append, List.length_singleton, Nat.add_assoc]
  refine ⟨tainting.phase, tainting.describes, tainting.position, tainting.armed, ?_, tainting.follows,
    tainting.sameInput⟩
  intro at_ branch found
  simp only [Engine.recordBranch, setBranch, Std.ExtTreeMap.getElem?_insert, Nat.compare_eq_eq]
    at found
  split at found
  · rename_i here
    have shape := (Option.some.inj found).symm
    subst shape
    cases taken <;>
      exact ⟨⟨here, rfl, executions.length, execution, by simp, here ▸ last, rfl, outcome⟩, rfl, rfl,
        rfl⟩
  · exact tainting.branch found

theorem Tainting.enter {engine after : Engine} {executions : List Execution} {memory : Memory}
    {instruction : Instruction} {execution : Execution} {processor : Processor}
    (tainting : engine.Tainting executions)
    (done : (engine.recordInstruction execution processor).enter memory instruction execution =
      ⟨after, memory, .ok .proceed⟩) :
    after.Tainting (executions ++ [execution]) ∧
      after.recording = (engine.recordInstruction execution processor).recording ∧
      LoggedAll memory (execution.writes.flatMap MemoryRange.addresses)
        (engine.recordInstruction execution processor).checkpoints after.checkpoints := by
  have entered := enter_entered (engine.recordInstruction execution processor) memory instruction
    execution
  rw [done] at entered
  cases entered with
  | plain checkpoints logged notBranch =>
      exact ⟨tainting.propagate logged instruction, recording_of_logged logged, logged⟩
  | branch checkpoints logged taken outcome =>
      exact ⟨(tainting.propagate logged instruction).recordBranch outcome, recording_of_logged logged,
        logged⟩

theorem points_getElem? (engine : Engine) (id : Nat) :
    engine.recording.points[id]? = engine.checkpoints[id]?.map Checkpoint.point := by
  simp [recording]

theorem Tainting.exists_checkpoint {engine : Engine} {executions : List Execution}
    (tainting : engine.Tainting executions) {address position : Nat}
    (imported : engine.graph.ImportedBy address position) :
    ∃ checkpoint ∈ engine.checkpoints.toList, address ∈ checkpoint.inputBytes := by
  obtain ⟨⟨point, listed, reads⟩, _⟩ := tainting.describes.imported tainting.follows
    tainting.sameInput imported
  have mapped : point ∈ engine.checkpoints.toList.map Checkpoint.point := by
    simpa [recording] using listed
  obtain ⟨checkpoint, there, rfl⟩ := List.mem_map.mp mapped
  exact ⟨checkpoint, there, reads⟩

theorem Tainting.candidate {engine : Engine} {executions : List Execution}
    (tainting : engine.Tainting executions) {position id : Nat} {bytes : Std.ExtTreeSet Nat}
    (nonempty : bytes ≠ ∅)
    (imported : ∀ address ∈ bytes, engine.graph.ImportedBy address position)
    (first : ∀ address ∈ bytes, FirstReader engine.checkpoints.toList id address) :
    engine.recording.Candidate executions position id bytes := by
  obtain ⟨least, smallest⟩ := Option.isSome_iff_exists.mp
    (Std.ExtTreeSet.isSome_min?_iff_ne_empty.mpr nonempty)
  have member := Std.ExtTreeSet.min?_mem smallest
  obtain ⟨⟨checkpoint, there, _⟩, _⟩ := first least member
  rw [Array.getElem?_toList] at there
  have point : engine.recording.points[id]? = some checkpoint.point := by
    rw [points_getElem?, there, Option.map_some]
  have facts : ∀ address ∈ bytes, checkpoint.position ≤ position ∧
      engine.recording.Untouched executions checkpoint.position address := by
    intro address member
    obtain ⟨⟨other, otherThere, reads⟩, unread⟩ := first address member
    rw [Array.getElem?_toList, there, Option.some.injEq] at otherThere
    subst otherThere
    obtain ⟨_, early⟩ := tainting.describes.imported tainting.follows tainting.sameInput
      (imported address member)
    refine early point reads fun {earlier before} below beforeThere => ?_
    rw [points_getElem?, Option.map_eq_some_iff] at beforeThere
    obtain ⟨beforeCheckpoint, known, rfl⟩ := beforeThere
    exact unread below (by rwa [Array.getElem?_toList])
  exact ⟨checkpoint.point, point, (facts least member).1, fun address inside => (facts address inside).2⟩

theorem Tainting.survey {engine : Engine} {executions : List Execution}
    (tainting : engine.Tainting executions) {position : Nat} {old branch : Branch}
    (found : engine.branches[position]? = some old)
    (attributes : Flow.Attributes engine.graph.ImportedBy position old branch) :
    ∃ surveyed, engine.survey engine.checkpoints.toList branch = .ok surveyed ∧
      surveyed.position = branch.position ∧ surveyed.finding = old.finding ∧
      engine.recording.Steerable executions position surveyed := by
  obtain ⟨observed, undecided, independent, unselected⟩ := tainting.branch found
  obtain ⟨shape, attributed⟩ := attributes
  have imported : ∀ address ∈ branch.inputDependencies,
      engine.graph.ImportedBy address position := by
    intro address member
    rcases attributed address member with known | imported
    · simp [independent] at known
    · exact imported
  generalize branch.inputDependencies = bytes at shape imported
  generalize branch.traces = traces at shape
  subst shape
  have observedToo : ∀ candidates others bypassed, engine.recording.Observed executions position
      { old with
        inputDependencies := bytes
        traces := traces
        candidates := candidates
        otherDependencies := others
        isBypassed := bypassed } :=
    fun _ _ _ => ⟨observed.key, observed.phase, observed.outcome⟩
  unfold Engine.survey
  split
  · rename_i independent
    refine ⟨_, rfl, rfl, rfl, observedToo _ _ _, ?_, ?_⟩
    · intro id bytes selected
      simp [unselected] at selected
    · intro isOpen
      simp_all [Branch.isOpen]
  · rename_i dependent
    obtain ⟨candidates, latest, chosen, isLatest, parts⟩ := Branch.chooseCandidates_eq_ok
      { old with
        inputDependencies := bytes
        traces := traces
        otherDependencies := (engine.graph.importsBehind old.position).filter fun address =>
          !engine.input.contains address }
      (by simpa [Branch.dependsOnInput] using dependent)
      fun address member => tainting.exists_checkpoint (imported address member)
    have candidate : ∀ {id : Nat} {part : Std.ExtTreeSet Nat}, candidates[id]? = some part →
        engine.recording.Candidate executions position id part := by
      intro id part selected
      obtain ⟨nonempty, members⟩ := parts selected
      exact tainting.candidate nonempty
        (fun address member => imported address ((members address).mp member).1)
        fun address member => ((members address).mp member).2
    simp only [chosen]
    refine ⟨_, rfl, ?_⟩
    split
    · -- There is no successor in the trace that a flip would show at.
      rw [Branch.isUndecided_iff] at undecided
      rw [Branch.bypass, if_neg (by simp [undecided])]
      refine ⟨rfl, rfl, observedToo _ _ _, candidate, fun isOpen => ?_⟩
      simp [Branch.isOpen] at isOpen
    · rename_i inner
      refine ⟨rfl, rfl, observedToo _ _ _, candidate, fun _ => ⟨?_, ?_⟩⟩
      · exact Std.ExtTreeMap.isSome_maxKey?_iff_ne_empty.mp (by simp [isLatest])
      · have key : old.position = position := observed.key
        have size := tainting.position
        simp only [recording] at inner ⊢
        omega

theorem mapM_eq_ok (records : List Branch) (function : Branch → Except Fault Branch)
    (relation : Branch → Branch → Prop)
    (each : ∀ old ∈ records, ∃ new, function old = .ok new ∧ new.position = old.position ∧
      relation old new) :
    ∃ after, records.mapM function = .ok after ∧
      after.map (·.position) = records.map (·.position) ∧
      ∀ new ∈ after, ∃ old ∈ records, new.position = old.position ∧ relation old new := by
  induction records with
  | nil => exact ⟨[], rfl, rfl, by simp⟩
  | cons old rest ih =>
      simp only [List.forall_mem_cons] at each
      obtain ⟨⟨new, done, position, related⟩, others⟩ := each
      obtain ⟨after, all, positions, origin⟩ := ih others
      refine ⟨new :: after, ?_, by simp [positions, position], ?_⟩
      · simp [List.mapM_cons, done, all, bind, Except.bind, pure, Except.pure]
      · simp only [List.forall_mem_cons]
        refine ⟨⟨old, List.mem_cons_self, position, related⟩, fun other member => ?_⟩
        obtain ⟨source, listed, facts⟩ := origin other member
        exact ⟨source, List.mem_cons_of_mem _ listed, facts⟩

theorem Tainting.surveyAll {engine : Engine} {executions : List Execution}
    (tainting : engine.Tainting executions) :
    ∃ branches outcomes,
      engine.surveyAll = .ok { engine with branches := branches, seenOutcomes := outcomes } ∧
      Flow.Branches.Retold (fun position old new => new.finding = old.finding ∧
        engine.recording.Steerable executions position new) engine.branches branches := by
  obtain ⟨attributed, done, retold⟩ :=
    Flow.Graph.attribution_attributed tainting.follows engine.branches
  have keyed : Flow.Branches.Keyed engine.branches :=
    fun position branch found => (tainting.branch found).1.key
  have keyedToo : Flow.Branches.Keyed attributed :=
    retold.keyed keyed fun attributes => by rw [attributes.1]
  let relation := fun (position : Nat) (_ new : Branch) =>
    ∃ first, engine.branches[position]? = some first ∧ new.finding = first.finding ∧
      engine.recording.Steerable executions position new
  have each : ∀ old ∈ attributed.inTraceOrder,
      ∃ new, engine.survey engine.checkpoints.toList old = .ok new ∧
        new.position = old.position ∧ relation old.position old new := by
    intro branch member
    obtain ⟨old, found, attributes⟩ := retold.origin (keyedToo.getElem?_of_mem member)
    obtain ⟨new, surveyed, position, finding, steerable⟩ := tainting.survey found attributes
    exact ⟨new, surveyed, position, old, found, finding, steerable⟩
  obtain ⟨surveyed, all, positions, origin⟩ := mapM_eq_ok attributed.inTraceOrder
    (engine.survey engine.checkpoints.toList) (fun old => relation old.position old) each
  have again := keyedToo.retold_branchesOf relation positions origin
  refine ⟨branchesOf surveyed, surveyed.foldl (fun outcomes branch =>
    outcomes.insert branch.address branch.taken) engine.seenOutcomes, ?_, ?_⟩
  · simp only [Engine.surveyAll, done, all]
  · refine ⟨fun found => ?_, fun member => again.kept (retold.kept member)⟩
    obtain ⟨_, _, first, foundFirst, facts⟩ := again.origin found
    exact ⟨first, foundFirst, facts⟩

end Engine

end BranchSteer
