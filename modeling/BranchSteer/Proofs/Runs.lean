import BranchSteer.Proofs.Launch

/-!
All turns of a run. In front of each of them the session is in a phase that started in an earlier turn of
the run, and each checkpoint of the phase was created in a turn since then.
-/

namespace BranchSteer

open Machine (Alike AgreeOff)

namespace Session

theorem eq_ok_of_toOption {α : Type} {result : Except Fault α} {value : α}
    (same : result.toOption = some value) : result = .ok value := by
  cases result with
  | error fault => simp [Except.toOption] at same
  | ok other => exact congrArg Except.ok (Option.some.inj same)

theorem toOption_eq_some_iff {α : Type} {result : Except Fault α} {value : α} :
    result.toOption = some value ↔ result = .ok value := by
  constructor
  · exact eq_ok_of_toOption
  · rintro rfl
    rfl

def afterTurns (stepLimit : Nat) (session : Session) : Nat → Option Session
  | 0 => some session
  | turns + 1 =>
    match session.afterTurns stepLimit turns with
    | none => none
    | some before =>
      match before.turn stepLimit with
      | .running next => some next
      | .ended _ _ => none

structure StartsPhase (session : Session) (phase : Nat) : Prop where
  tainting : session.engine.phase = .tainting
  phaseNumber : session.engine.phaseNumber = phase
  position : session.engine.position = session.engine.basePosition

structure Creates (session : Session) (phase id : Nat) : Prop where
  phaseNumber : session.engine.phaseNumber = phase
  before : session.engine.checkpoints.size = id
  after : session.react.1.engine.checkpoints.size = id + 1

/-- The turn of a run, and the session in front of it, in which a checkpoint of a phase is created. No
other turn creates it. -/
structure CreatedOnce (first : Session) (stepLimit phase id turn : Nat) (creator : Session) :
    Prop where
  reached : first.afterTurns stepLimit turn = some creator
  creates : creator.Creates phase id
  only : ∀ {other : Nat} {also : Session}, first.afterTurns stepLimit other = some also →
    also.Creates phase id → other = turn

/-- In some phase of a run an input flips a branch: from the start of the phase it leads along the
trace to the branch, which then has the other outcome. -/
def Flips (first : Session) (stepLimit : Nat) (finding : Finding) (input : List UInt8) : Prop :=
  ∃ begun start turns session, first.afterTurns stepLimit begun = some start ∧
    start.StartsPhase finding.phase ∧ first.afterTurns stepLimit turns = some session ∧
    session.engine.phaseNumber = finding.phase ∧ session.engine.phase = .rollbacking ∧
    input.length = start.engine.baseInput.length ∧
    (start.machine.withInput start.engine.input start.engine.baseInput input).Flips
      start.engine.basePosition session.engine.trace finding.position finding.taken

variable {session : Session} {origin : Machine} {executions : List Execution}
  {genuine : Finding → List UInt8 → Prop} {stepLimit : Nat}

inductive Turned (session : Session) (origin : Machine) (executions : List Execution)
    (genuine : Finding → List UInt8 → Prop) (stepLimit : Nat) : Turn → Prop
  | running (next : Session) (within : session.machine.executed ≤ stepLimit)
    (engine : next.engine = session.react.1.engine) (ticks : session.Ticks next)
    (continues : session.Continues origin executions genuine next) :
    Turned _ _ _ _ _ (.running next)
  | exceeded (exceeds : stepLimit < session.machine.executed) :
    Turned _ _ _ _ _ (.ended session (.error (.stepLimitReached stepLimit)))
  | failed (last : Session) (fault : Fault) (ofProgram : fault.OfProgram) :
    Turned _ _ _ _ _ (.ended last (.error fault))
  | finished (last : Session) (finished : last.engine.phase = .finished) :
    Turned _ _ _ _ _ (.ended last (.ok ()))

theorem InPhase.turn (inPhase : session.InPhase origin executions genuine)
    (learns : session.Learns origin genuine) (stepLimit : Nat) :
    Turned session origin executions genuine stepLimit (session.turn stepLimit) := by
  unfold Session.turn
  split
  · rename_i exceeds
    exact .exceeded exceeds
  · rename_i within
    have within := Nat.le_of_not_lt within
    have reacts := inPhase.reacts learns
    generalize reaction : session.react = behind at reacts
    have engine : session.react.1.engine = behind.1.engine := by rw [reaction]
    cases reacts with
    | failed last fault ofProgram supported => exact .failed last fault ofProgram
    | stopped last finished supported => exact .finished last finished
    | proceeds after supported running continues =>
        simp only [running, Bool.false_eq_true, if_false, Session.step]
        cases stepped : session.machine.step with
        | error fault => exact .failed _ fault (Machine.step_error stepped)
        | ok machine =>
            obtain ⟨ticks, continuesToo⟩ := continues stepped
            exact .running _ within engine.symm ticks continuesToo
    | returns after memory processor supported ticks continues =>
        exact .running _ within engine.symm ticks continues

theorem InPhase.supported_react (inPhase : session.InPhase origin executions genuine)
    (learns : session.Learns origin genuine) : session.react.1.engine.Supported genuine := by
  have reacts := inPhase.reacts learns
  generalize session.react = behind at reacts
  cases reacts with
  | failed last fault ofProgram supported => exact supported
  | stopped last finished supported => exact supported
  | proceeds after supported running continues => exact supported
  | returns after memory processor supported ticks continues => exact supported

/-- The first instructions of a run are the same with any input, up to the one that a phase starts
from. -/
def Prefixed (program : Program) (start : Session) : Prop :=
  ∀ {input : List UInt8}, input.length = program.input.length → ∃ fresh machine,
    Machine.load { program with input := input } = .ok fresh ∧
    fresh.steps start.engine.basePosition = .ok machine ∧
    AgreeOff (fun address => program.inputBuffer.contains address) machine start.machine ∧
    fresh.FollowsTrace 0 start.engine.trace start.engine.basePosition

def Created (first : Session) (stepLimit turns : Nat) (origin : Machine) (phase base id : Nat)
    (point : Point) : Prop :=
  ∃ turn creator index machine, turn < turns ∧ first.afterTurns stepLimit turn = some creator ∧
    creator.Creates phase id ∧ point.position = base + index + 1 ∧
    origin.steps index = .ok machine ∧ creator.machine.processor = machine.processor ∧
    creator.machine.memory = machine.memory

theorem Created.later {first : Session} {turns phase base id : Nat} {point : Point}
    (created : Created first stepLimit turns origin phase base id point) :
    Created first stepLimit (turns + 1) origin phase base id point := by
  obtain ⟨turn, creator, index, machine, before, facts⟩ := created
  exact ⟨turn, creator, index, machine, Nat.lt_succ_of_lt before, facts⟩

/-- The session in front of a turn, its phase, and the session that the phase started with. -/
structure Since (program : Program) (first : Session) (stepLimit turns : Nat) (session : Session)
    (begun : Nat) (start : Session) (executions : List Execution) : Prop where
  earlier : begun ≤ turns
  reached : first.afterTurns stepLimit begun = some start
  starts : start.StartsPhase session.engine.phaseNumber
  input : session.engine.input = program.inputBuffer
  startInput : start.engine.input = session.engine.input
  baseInput : start.engine.baseInput = session.engine.baseInput
  base : start.engine.basePosition = session.engine.basePosition
  trace : ∀ place < start.engine.basePosition,
    session.engine.trace[place]? = start.engine.trace[place]?
  prefixed : Prefixed program start
  inPhase : session.InPhase start.machine executions (first.Flips stepLimit)
  created : ∀ {id : Nat} {point : Point}, session.engine.recording.points[id]? = some point →
    Created first stepLimit turns start.machine session.engine.phaseNumber
      session.engine.basePosition id point
  config : session.engine.config = first.engine.config
  clock : session.machine.executed + session.engine.rollbacks = turns
  within : session.machine.executed ≤ stepLimit + 1
  budget : session.engine.rollbacks ≤ session.engine.config.rollbackLimit

theorem Since.learns {program : Program} {first start : Session} {turns begun : Nat}
    (since : Since program first stepLimit turns session begun start executions)
    (here : first.afterTurns stepLimit turns = some session) :
    session.Learns start.machine (first.Flips stepLimit) := by
  intro finding input rollbacking phase length flips
  refine ⟨begun, start, turns, session, since.reached, phase ▸ since.starts, here, phase.symm,
    rollbacking, length.trans (congrArg List.length since.baseInput.symm), ?_⟩
  rw [since.startInput, since.baseInput, since.base]
  exact flips

variable {program : Program} {first start next : Session} {turns begun : Nat}

theorem Since.creator
    (since : Since program first stepLimit turns session begun start executions) {id index : Nat}
    {point : Point} {machine : Machine}
    (found : session.engine.recording.points[id]? = some point)
    (place : point.position = session.engine.basePosition + index + 1)
    (reached : start.machine.steps index = .ok machine) :
    ∃ turn creator, turn < turns ∧ first.afterTurns stepLimit turn = some creator ∧
      creator.Creates session.engine.phaseNumber id ∧
      machine.processor = creator.machine.processor ∧ machine.memory = creator.machine.memory := by
  obtain ⟨turn, creator, other, same, before, known, creates, position, reachedToo, processor,
    memory⟩ := since.created found
  have sameIndex : other = index := by omega
  rw [sameIndex, reached, Except.ok.injEq] at reachedToo
  subst reachedToo
  exact ⟨turn, creator, before, known, creates, processor.symm, memory.symm⟩

theorem Since.follows
    (since : Since program first stepLimit turns session begun start executions)
    {bytes : Nat → Prop} {fresh before : Machine}
    (done : fresh.steps start.engine.basePosition = .ok before)
    (agree : AgreeOff bytes start.machine before)
    (recorded : fresh.FollowsTrace 0 start.engine.trace start.engine.basePosition) {index : Nat}
    (bound : index ≤ executions.length)
    (unread : ∀ {earlier : Nat} {execution : Execution} {address : Nat}, earlier < index →
      executions[earlier]? = some execution → execution.Reads address → ¬ bytes address) :
    ∃ machine twin, start.machine.steps index = .ok machine ∧
      fresh.steps (session.engine.basePosition + index) = .ok twin ∧
      AgreeOff bytes machine twin ∧ fresh.FollowsTrace 0 session.engine.trace
        (session.engine.basePosition + index) := by
  have describes := since.inPhase.describes
  have base := since.base
  obtain ⟨machine, twin, there, thereToo, agreeThere, _⟩ :=
    agree.steps since.inPhase.small since.inPhase.performs bound unread
  refine ⟨machine, twin, there, ?_, agreeThere, fun place below => ?_⟩
  · rw [← base, Machine.steps_add index done]
    exact thereToo
  · rw [Nat.zero_add] at below ⊢
    rcases Nat.lt_or_ge place start.engine.basePosition with old | new
    · obtain ⟨earlier, thereEarlier, running, traced⟩ := recorded place (by omega)
      refine ⟨earlier, thereEarlier, running, ?_⟩
      rw [since.trace place old, ← traced, Nat.zero_add]
    · obtain ⟨offset, rfl⟩ : ∃ offset, place = start.engine.basePosition + offset :=
        ⟨place - start.engine.basePosition, by omega⟩
      have known : executions[offset]? = some executions[offset] :=
        List.getElem?_eq_getElem (by omega)
      obtain ⟨later, laterTwin, thereLater, thereLaterToo, agreeLater, _⟩ :=
        agree.steps since.inPhase.small since.inPhase.performs (by omega : offset ≤ executions.length)
          fun below found reads => unread (by omega) found reads
      obtain ⟨running, foreseen⟩ := since.inPhase.performs.each_of_steps known thereLater
      refine ⟨laterTwin, ?_, agreeLater.halted ▸ running, ?_⟩
      · rw [Machine.steps_add offset done]
        exact thereLaterToo
      · have traced := describes.trace known
        rw [Machine.execution_address foreseen] at traced
        rw [base]
        refine traced.trans ?_
        exact congrArg (fun processor => some processor.instructionPointer) agreeLater.processor

theorem Since.prefixed_next
    (since : Since program first stepLimit turns session begun start executions)
    (starts : session.Starts next start.machine executions) : Prefixed program next := by
  have size : session.engine.trace.size = session.engine.basePosition + executions.length :=
    since.inPhase.describes.traceSize
  obtain ⟨index, machine, bound, reached, agree, base, unread⟩ := starts.behind
  rw [since.input] at agree unread
  intro input length
  obtain ⟨fresh, before, loaded, done, agreeBefore, recorded⟩ := since.prefixed length
  obtain ⟨other, twin, there, thereToo, agreeThere, follows⟩ := since.follows done
    agreeBefore.symm recorded (Nat.le_of_lt bound) fun below found reads => unread below found reads
  rw [reached, Except.ok.injEq] at there
  subst there
  refine ⟨fresh, twin, loaded, base ▸ thereToo, agreeThere.symm.trans agree, fun place below => ?_⟩
  obtain ⟨earlier, thereEarlier, running, traced⟩ := follows place (base ▸ below)
  refine ⟨earlier, thereEarlier, running, ?_⟩
  rw [starts.trace, Array.take_eq_extract, Array.getElem?_extract, if_pos (by omega),
    Nat.zero_add]
  exact traced

theorem size_points (engine : Engine) : engine.recording.points.size = engine.checkpoints.size := by
  simp [Engine.recording]

theorem Since.recorded
    (since : Since program first stepLimit turns session begun start executions)
    (here : first.afterTurns stepLimit turns = some session)
    (engine : next.engine = session.react.1.engine) {execution : Execution}
    (tainting : session.engine.Tainting executions) {now : Machine}
    (reached : start.machine.steps executions.length = .ok now) (alike : Alike session.machine now)
    (recording : next.engine.recording =
      (session.engine.recordInstruction execution session.machine.processor).recording)
    {id : Nat} {point : Point} (found : next.engine.recording.points[id]? = some point) :
    Created first stepLimit (turns + 1) start.machine next.engine.phaseNumber
      next.engine.basePosition id point := by
  have phase : next.engine.phaseNumber = session.engine.phaseNumber :=
    congrArg Recording.phaseNumber recording
  have base : next.engine.basePosition = session.engine.basePosition :=
    congrArg Recording.basePosition recording
  rw [phase, base]
  have size : session.engine.trace.size = session.engine.basePosition + executions.length :=
    tainting.describes.traceSize
  have points := Engine.recordInstruction_points session.engine execution session.machine.processor
  rw [← recording] at points
  split at points
  · exact (since.created (points ▸ found)).later
  · rw [points] at found
    rcases of_getElem?_push found with known | ⟨last, rfl⟩
    · exact (since.created known).later
    · refine ⟨turns, session, executions.length, now, Nat.lt_succ_self _, here, ⟨rfl, ?_, ?_⟩, ?_,
        reached, alike.processor, alike.memory⟩
      · rw [last, size_points]
      · rw [← engine, ← size_points, points, Array.size_push, last]
      · rw [tainting.position, size]

theorem Since.turned
    (since : Since program first stepLimit turns session begun start executions)
    (here : first.afterTurns stepLimit turns = some session)
    (done : session.turn stepLimit = .running next)
    (there : first.afterTurns stepLimit (turns + 1) = some next) :
    ∃ begun start executions, Since program first stepLimit (turns + 1) next begun start
      executions := by
  have turned := since.inPhase.turn (since.learns here) stepLimit
  rw [done] at turned
  cases turned with
  | running _ within engine ticks continues =>
      have input := ticks.input.trans since.input
      have config := ticks.config.trans since.config
      have clock : next.machine.executed + next.engine.rollbacks = turns + 1 := by
        rw [ticks.clock, since.clock]
      have bound := Nat.le_trans ticks.executed (Nat.succ_le_succ within)
      have budget := ticks.budget since.budget
      cases continues with
      | recorded execution tainting now reached alike inPhase phase recording =>
          have phaseNumber : next.engine.phaseNumber = session.engine.phaseNumber :=
            congrArg Recording.phaseNumber recording
          have baseInput : next.engine.baseInput = session.engine.baseInput :=
            congrArg Recording.baseInput recording
          have base : next.engine.basePosition = session.engine.basePosition :=
            congrArg Recording.basePosition recording
          have trace : next.engine.trace = session.engine.trace.push execution.address :=
            congrArg Recording.trace recording
          have size : session.engine.trace.size = session.engine.basePosition + executions.length :=
            tainting.describes.traceSize
          refine ⟨begun, start, executions ++ [execution], Nat.le_succ_of_le since.earlier,
            since.reached, phaseNumber ▸ since.starts, input, since.startInput.trans ticks.input.symm,
            since.baseInput.trans baseInput.symm, since.base.trans base.symm, fun place below => ?_,
            since.prefixed, inPhase,
            fun found => since.recorded here engine tainting reached alike recording found,
            config, clock, bound, budget⟩
          have startBase := since.base
          rw [trace, Array.getElem?_push_lt (by omega), ← Array.getElem?_eq_getElem]
          exact since.trace place below
      | went inPhase phase recording =>
          have phaseNumber := Engine.phaseNumber_of_recording recording
          have baseInput := Engine.baseInput_of_recording recording
          have base := Engine.basePosition_of_recording recording
          have trace := Engine.trace_of_recording recording
          refine ⟨begun, start, executions, Nat.le_succ_of_le since.earlier,
            since.reached, phaseNumber ▸ since.starts, input, since.startInput.trans ticks.input.symm,
            since.baseInput.trans baseInput.symm, since.base.trans base.symm, trace ▸ since.trace,
            since.prefixed, inPhase, fun found => ?_, config, clock, bound, budget⟩
          rw [recording] at found
          rw [phaseNumber, base]
          exact (since.created found).later
      | restarted inPhase phase starts =>
          refine ⟨turns + 1, next, [], Nat.le_refl _, there, ⟨phase, rfl, starts.position⟩, input, rfl,
            rfl, rfl, fun _ _ => rfl, since.prefixed_next starts, inPhase, fun found => ?_, config,
            clock, bound, budget⟩
          simp [Engine.recording, starts.checkpoints] at found

theorem afterTurns_succ {turns : Nat} (there : first.afterTurns stepLimit (turns + 1) = some next) :
    ∃ session, first.afterTurns stepLimit turns = some session ∧
      session.turn stepLimit = .running next := by
  rw [afterTurns] at there
  split at there
  · simp at there
  · rename_i session here
    split at there
    · rename_i other done
      rw [Option.some.injEq] at there
      exact ⟨session, here, there ▸ done⟩
    · simp at there

theorem launch_since {config : Config} {drawn : Random}
    (launched : launch config program drawn = .ok first) (stepLimit : Nat) :
    first.engine.config = config ∧ Since program first stepLimit 0 first 0 first [] := by
  cases loaded : Machine.load program with
  | error fault => simp [launch, loaded, Except.bind] at launched
  | ok machine =>
      obtain ⟨text, captured⟩ := capture_start config drawn loaded
      rw [launch, loaded] at launched
      have same := captured.symm.trans launched
      rw [Except.ok.injEq] at same
      subst same
      obtain ⟨inside, shape⟩ := Machine.load_eq_ok loaded
      have small := Machine.small_of_load loaded
      have size : machine.memory.size = program.memorySize.toNat := by simp [shape, Memory.zero]
      refine ⟨rfl, Nat.le_refl _, rfl, ⟨rfl, rfl, rfl⟩, rfl, rfl, rfl, rfl, fun _ _ => rfl,
        fun {input} length => ?_, ⟨.nil _, small, size ▸ inside, ?_, .empty _ _ rfl, ?_⟩, ?_,
        rfl, ?_, ?_, Nat.zero_le _⟩
      · obtain ⟨fresh, loadedToo, agree⟩ := Machine.load_withInput loaded length
        exact ⟨fresh, fresh, loadedToo, rfl, agree, fun _ below => absurd below (Nat.not_lt_zero _)⟩
      · intro index value found
        simp only [Engine.inform, Engine.note, List.getElem?_map, Option.map_eq_some_iff] at found
        obtain ⟨address, known, rfl⟩ := found
        obtain ⟨bound, same⟩ := List.getElem?_eq_some_iff.mp known
        simp only [List.getElem_range', Nat.one_mul] at same
        exact congrArg machine.memory.byte same
      · refine .tainting (Engine.tainting_nil rfl ?_ rfl rfl rfl rfl rfl) ⟨?_, ?_⟩ machine rfl (.refl _ _)
        · simp [Engine.inform, Engine.note, Program.inputBuffer]
        · simp [Engine.inform, Engine.note, Engine.initial]
        · simp [Engine.inform, Engine.note, Engine.initial]
      · intro id point found
        simp [Engine.recording, Engine.inform, Engine.note, Engine.initial] at found
      · simp [shape, Engine.inform, Engine.note, Engine.initial]
      · simp [shape]

theorem since_of_afterTurns {config : Config} {drawn : Random}
    (launched : launch config program drawn = .ok first)
    {turns : Nat} (here : first.afterTurns stepLimit turns = some session) :
    ∃ begun start executions,
      Since program first stepLimit turns session begun start executions := by
  induction turns generalizing session with
  | zero =>
      rw [afterTurns, Option.some.injEq] at here
      exact here ▸ ⟨0, first, [], (launch_since launched stepLimit).2⟩
  | succ turns ih =>
      obtain ⟨before, known, done⟩ := afterTurns_succ here
      obtain ⟨begun, start, executions, since⟩ := ih known
      exact since.turned known done here

theorem Continues.startsPhase
    (continues : session.Continues origin executions genuine next) :
    (next.engine.phaseNumber = session.engine.phaseNumber ∧ ∀ phase, ¬ next.StartsPhase phase) ∨
      next.engine.phaseNumber = session.engine.phaseNumber + 1 := by
  cases continues with
  | recorded execution tainting now reached alike inPhase phase recording =>
      refine Or.inl ⟨congrArg Recording.phaseNumber recording, fun _ starts => ?_⟩
      have describes := inPhase.describes
      have size : next.engine.trace.size = next.engine.basePosition + (executions ++ [execution]).length :=
        describes.traceSize
      have position := starts.position
      cases inPhase.situation with
      | tainting taintingToo supported nowToo reachedToo alikeToo =>
          have last := taintingToo.position
          rw [List.length_append, List.length_singleton] at size
          omega
      | forwarding forwards =>
          have rollbacking := forwards.steered.phase
          simp [phase] at rollbacking
      | attempting resolution attempting =>
          have rollbacking := attempting.attempts.steered.phase
          simp [phase] at rollbacking
  | went inPhase phase recording =>
      refine Or.inl ⟨Engine.phaseNumber_of_recording recording, fun _ starts => ?_⟩
      have tainting := starts.tainting
      simp [phase] at tainting
  | restarted inPhase phase starts => exact Or.inr starts.phaseNumber

theorem startsPhase_later {config : Config} {drawn : Random}
    (launched : launch config program drawn = .ok first)
    {phase : Nat} (here : first.afterTurns stepLimit begun = some start)
    (starts : start.StartsPhase phase) (later : begun < turns)
    (there : first.afterTurns stepLimit turns = some session) :
    phase ≤ session.engine.phaseNumber ∧ ¬ session.StartsPhase phase := by
  induction turns generalizing session with
  | zero => omega
  | succ turns ih =>
      obtain ⟨before, known, done⟩ := afterTurns_succ there
      have reached : phase ≤ before.engine.phaseNumber := by
        rcases Nat.lt_or_eq_of_le (Nat.le_of_lt_succ later) with earlier | same
        · exact (ih earlier known).1
        · rw [← same, here, Option.some.injEq] at known
          exact known ▸ Nat.le_of_eq starts.phaseNumber.symm
      obtain ⟨_, origin, _, since⟩ := since_of_afterTurns launched known
      have turned := since.inPhase.turn (since.learns known) stepLimit
      rw [done] at turned
      cases turned with
      | running _ within engine ticks continues =>
          rcases continues.startsPhase with ⟨same, none⟩ | next
          · exact ⟨same ▸ reached, none phase⟩
          · refine ⟨by omega, fun also => ?_⟩
            have number := also.phaseNumber
            omega

theorem startsPhase_unique {config : Config} {drawn : Random}
    (launched : launch config program drawn = .ok first)
    {phase other : Nat} {also : Session} (here : first.afterTurns stepLimit begun = some start)
    (starts : start.StartsPhase phase) (there : first.afterTurns stepLimit other = some also)
    (startsToo : also.StartsPhase phase) : other = begun := by
  rcases Nat.lt_trichotomy begun other with before | same | behind
  · exact absurd startsToo (startsPhase_later launched here starts before there).2
  · exact same.symm
  · exact absurd starts (startsPhase_later launched there startsToo behind here).2

theorem Continues.grows (continues : session.Continues origin executions genuine next) :
    session.engine.phaseNumber < next.engine.phaseNumber ∨
      next.engine.phaseNumber = session.engine.phaseNumber ∧
        session.engine.checkpoints.size ≤ next.engine.checkpoints.size := by
  cases continues with
  | recorded execution tainting now reached alike inPhase phase recording =>
      refine Or.inr ⟨congrArg Recording.phaseNumber recording, ?_⟩
      have points := Engine.recordInstruction_points session.engine execution session.machine.processor
      rw [← size_points, ← size_points, recording, points]
      split
      · exact Nat.le_refl _
      · rw [Array.size_push]
        exact Nat.le_succ _
  | went inPhase phase recording =>
      refine Or.inr ⟨Engine.phaseNumber_of_recording recording, ?_⟩
      exact Nat.le_of_eq (by rw [← size_points, ← size_points, recording])
  | restarted inPhase phase starts =>
      rw [starts.phaseNumber]
      exact Or.inl (Nat.lt_succ_self _)

theorem creates_later {config : Config} {drawn : Random}
    (launched : launch config program drawn = .ok first)
    {turn phase id : Nat} {creator : Session} (here : first.afterTurns stepLimit turn = some creator)
    (creates : creator.Creates phase id) (later : turn < turns)
    (there : first.afterTurns stepLimit turns = some session) :
    phase < session.engine.phaseNumber ∨
      session.engine.phaseNumber = phase ∧ id < session.engine.checkpoints.size := by
  induction turns generalizing session with
  | zero => omega
  | succ turns ih =>
      obtain ⟨before, known, done⟩ := afterTurns_succ there
      obtain ⟨_, origin, _, since⟩ := since_of_afterTurns launched known
      have turned := since.inPhase.turn (since.learns known) stepLimit
      rw [done] at turned
      cases turned with
      | running _ within engine ticks continues =>
          have grows := continues.grows
          rcases Nat.lt_or_eq_of_le (Nat.le_of_lt_succ later) with earlier | same
          · have behind := ih earlier known
            omega
          · rw [← same, here, Option.some.injEq] at known
            subst known
            have number := creates.phaseNumber
            have size := creates.after
            rw [← engine] at size
            omega

theorem creates_unique {config : Config} {drawn : Random}
    (launched : launch config program drawn = .ok first)
    {turn other phase id : Nat} {creator also : Session}
    (here : first.afterTurns stepLimit turn = some creator) (creates : creator.Creates phase id)
    (there : first.afterTurns stepLimit other = some also) (createsToo : also.Creates phase id) :
    other = turn := by
  have number := creates.phaseNumber
  have numberToo := createsToo.phaseNumber
  have size := creates.before
  have sizeToo := createsToo.before
  rcases Nat.lt_trichotomy turn other with before | same | behind
  · have later := creates_later launched here creates before there
    omega
  · exact same.symm
  · have later := creates_later launched there createsToo behind here
    omega

end Session

end BranchSteer
