import BranchSteer.Proofs.Calls
import BranchSteer.Proofs.Moves
import Mathlib.Algebra.GroupWithZero.Nat

/-!
What holds of every run of every program. Rollbacks are exact, an input that was found for a branch flips
it, and the engine never finds the process out of step with what it recorded.
-/

namespace BranchSteer

namespace Session

variable {config : Config} {drawn : Random} {program : Program} {first session : Session}
  {stepLimit turns : Nat}

def twoTests : Program where
  operations := #[.loadByte "a" 0, .compareImmediate "a" 0, .jumpIfEqual 4, .halt,
    .loadByte "b" 1, .compareImmediate "b" 0, .jumpIfEqual 8, .halt, .halt]
  inputAddress := 0
  input := [0, 0]
  memorySize := 2

def rollsBack (session : Session) : Bool :=
  match session.react.2 with
  | .ok (.rollback _) => true
  | _ => false

def flipsBranch (session : Session) : Bool :=
  session.react.1.engine.branches.inTraceOrder.any Branch.isResolved

def armsCheckpoint (session : Session) (id : Nat) : Bool :=
  match session.decision with
  | .ok decision =>
    session.engine.checkpoints[id]?.any (!·.armed) && decision.engine.checkpoints[id]?.any (·.armed)
  | .error _ => false

theorem exists_of_rollsBack (rolls : session.rollsBack) :
    ∃ after processor, session.react = (after, .ok (.rollback processor)) := by
  unfold rollsBack at rolls
  generalize session.react = behind at rolls
  obtain ⟨after, result⟩ := behind
  split at rolls
  · rename_i processor same
    exact ⟨after, processor, Prod.ext rfl same⟩
  · simp at rolls

theorem exists_of_armsCheckpoint {id : Nat} (arms : session.armsCheckpoint id) :
    ∃ decision before after, session.decision = .ok decision ∧
      session.engine.checkpoints[id]? = some before ∧
      decision.engine.checkpoints[id]? = some after ∧ ¬ before.armed ∧ after.armed := by
  unfold armsCheckpoint at arms
  split at arms
  · rename_i decision decides
    simp only [Bool.and_eq_true, Option.any_eq_true] at arms
    obtain ⟨⟨before, found, disarmed⟩, after, there, armed⟩ := arms
    exact ⟨decision, before, after, decides, found, there, by simpa using disarmed, armed⟩
  · simp at arms

theorem twoTests_run :
    ∃ first rolling flipping arming, launch (.seeded 7) twoTests = .ok first ∧
      first.afterTurns 100 7 = some rolling ∧ rolling.rollsBack ∧
      first.afterTurns 100 11 = some flipping ∧ flipping.flipsBranch ∧
      first.afterTurns 100 15 = some arming ∧ arming.armsCheckpoint 1 := by
  have runs : ((launch (.seeded 7) twoTests).toOption.any fun first =>
      (first.afterTurns 100 7).any rollsBack && (first.afterTurns 100 11).any flipsBranch &&
        (first.afterTurns 100 15).any fun session => session.armsCheckpoint 1) = true := by
    decide +kernel
  simp only [Bool.and_eq_true, Option.any_eq_true] at runs
  obtain ⟨first, launched, ⟨⟨rolling, one, rolls⟩, flipping, two, flips⟩, arming, three, arms⟩ := runs
  exact ⟨first, rolling, flipping, arming, eq_ok_of_toOption launched, one, rolls, two, flips, three,
    arms⟩

/-- A rollback leads to the state in which its checkpoint was created, apart from the perturbed bytes,
and a checkpoint is armed again in no other state than this one. -/
theorem rollback_exact (launched : launch config program drawn = .ok first)
    (here : first.afterTurns stepLimit turns = some session) :
    (∀ {after : Session} {processor : Processor},
      session.react = (after, .ok (.rollback processor)) →
        ∃ decision id perturbation turn creator, session.decision = .ok decision ∧
          decision.order.target? = some (id, perturbation) ∧ turn < turns ∧
          first.CreatedOnce stepLimit session.engine.phaseNumber id turn creator ∧
          processor = creator.machine.processor ∧
          after.machine.memory.size = creator.machine.memory.size ∧ ∀ address,
            after.machine.memory.byte address =
              (perturbation.value? session.engine.input decision.engine.random address).getD
                (creator.machine.memory.byte address)) ∧
    ∀ {decision : Decision} {id : Nat} {before after : Checkpoint},
      session.decision = .ok decision → session.engine.checkpoints[id]? = some before →
        decision.engine.checkpoints[id]? = some after → ¬ before.armed → after.armed →
          ∃ turn creator, turn < turns ∧
            first.CreatedOnce stepLimit session.engine.phaseNumber id turn creator ∧
            session.machine.processor = creator.machine.processor ∧
            session.machine.memory = creator.machine.memory := by
  obtain ⟨begun, start, executions, since⟩ := since_of_afterTurns launched here
  have learns := since.learns here
  constructor
  · intro after processor rolledBack
    obtain ⟨decision, index, machine, decides, recording, wentBack, rfl⟩ :=
      since.inPhase.wentBack learns rolledBack
    obtain ⟨id, perturbation, _, target, _⟩ := wentBack.target
    obtain ⟨point, found, place, byte⟩ := wentBack.of_target target
    rw [recording] at found
    rw [Engine.basePosition_of_recording recording] at place
    obtain ⟨turn, creator, before, known, creates, processor, memory⟩ :=
      since.creator found place wentBack.reached
    refine ⟨decision, id, perturbation, turn, creator, decides, target, before,
      ⟨known, creates, creates_unique launched known creates⟩, processor, ?_, fun address => ?_⟩
    · rw [wentBack.size, memory]
    · rw [byte, Engine.input_of_recording recording, memory]
  · intro decision id before after decides found there disarmed armed
    obtain ⟨index, machine, place, reached, processor, memory⟩ :=
      since.inPhase.arms learns decides found there disarmed armed
    have known : session.engine.recording.points[id]? = some before.point := by
      rw [Engine.points_getElem?, found, Option.map_some]
    obtain ⟨turn, creator, earlier, here, creates, processorToo, memoryToo⟩ :=
      since.creator known place reached
    exact ⟨turn, creator, earlier, ⟨here, creates, creates_unique launched here creates⟩,
      processor.trans processorToo, memory.trans memoryToo⟩

theorem rollback_exact_twoTests :
    ∃ first rolling arming, launch (.seeded 7) twoTests = .ok first ∧
      first.afterTurns 100 7 = some rolling ∧ first.afterTurns 100 15 = some arming ∧
      (∃ after processor turn creator, rolling.react = (after, .ok (.rollback processor)) ∧
        first.afterTurns 100 turn = some creator ∧ processor = creator.machine.processor) ∧
      ∃ turn creator, first.CreatedOnce 100 arming.engine.phaseNumber 1 turn creator ∧
        arming.machine.memory = creator.machine.memory := by
  obtain ⟨first, rolling, _, arming, launched, one, rolls, _, _, three, arms⟩ := twoTests_run
  obtain ⟨after, processor, rolledBack⟩ := exists_of_rollsBack rolls
  obtain ⟨decision, before, behind, decides, found, there, disarmed, armed⟩ :=
    exists_of_armsCheckpoint arms
  obtain ⟨_, _, _, turn, creator, _, _, _, created, same, _⟩ :=
    (rollback_exact launched one).1 rolledBack
  obtain ⟨armer, also, _, createdToo, _, memory⟩ :=
    (rollback_exact launched three).2 decides found there disarmed armed
  exact ⟨first, rolling, arming, launched, one, three,
    ⟨after, processor, turn, creator, rolledBack, created.reached, same⟩, armer, also, createdToo,
    memory⟩

/-- The input of a flipped branch is genuine: the state that its phase started with leads, with the
bytes of this input in the buffer, along the recorded addresses to the branch, and the branch then has
the other outcome. -/
theorem flippingInput_genuine (launched : launch config program drawn = .ok first)
    (here : first.afterTurns stepLimit turns = some session) {engine : Engine}
    (current : engine = session.engine ∨ engine = session.react.1.engine) {branch : Branch}
    (member : branch ∈ engine.archive ++ engine.branches.inTraceOrder)
    (resolved : branch.isResolved) :
    ∃ input begun start turn recorded, branch.flippingInput = some input ∧
      input.length = start.engine.baseInput.length ∧
      first.afterTurns stepLimit begun = some start ∧ start.StartsPhase branch.phase ∧
      (∀ {other : Nat} {also : Session}, first.afterTurns stepLimit other = some also →
        also.StartsPhase branch.phase → other = begun) ∧
      first.afterTurns stepLimit turn = some recorded ∧
      recorded.engine.phaseNumber = branch.phase ∧ recorded.engine.phase = .rollbacking ∧
      (start.machine.withInput start.engine.input start.engine.baseInput input).Flips
        start.engine.basePosition recorded.engine.trace branch.position branch.taken := by
  obtain ⟨_, _, _, since⟩ := since_of_afterTurns launched here
  have supported : engine.Supported (first.Flips stepLimit) := by
    rcases current with rfl | rfl
    · exact since.inPhase.supported
    · exact since.inPhase.supported_react (since.learns here)
  have found : branch.finding.Supported (first.Flips stepLimit) engine.input.length := by
    rcases List.mem_append.mp member with old | listed
    · exact supported.archived branch old
    · obtain ⟨position, known⟩ := Flow.Branches.exists_of_mem listed
      exact supported.current known
  rw [Finding.Supported, if_pos (show branch.finding.isResolved from resolved)] at found
  obtain ⟨input, flipping, _, begun, start, turn, recorded, reached, starts, reachedToo, phase,
    rollbacking, length, flips⟩ := found
  exact ⟨input, begun, start, turn, recorded, flipping, length, reached, starts,
    fun there startsToo => startsPhase_unique launched reached starts there startsToo, reachedToo,
    phase, rollbacking, flips⟩

theorem flippingInput_genuine_twoTests :
    ∃ (first flipping start recorded : Session) (branch : Branch) (input : List UInt8) (turn : Nat),
      launch (.seeded 7) twoTests = .ok first ∧
      first.afterTurns 100 11 = some flipping ∧ branch.isResolved ∧
      branch ∈ flipping.react.1.engine.branches.inTraceOrder ∧ branch.flippingInput = some input ∧
      first.afterTurns 100 turn = some recorded ∧
      (start.machine.withInput start.engine.input start.engine.baseInput input).Flips
        start.engine.basePosition recorded.engine.trace branch.position branch.taken := by
  obtain ⟨first, _, flipping, _, launched, _, _, here, flips, _⟩ := twoTests_run
  obtain ⟨branch, member, resolved⟩ := List.any_eq_true.mp flips
  obtain ⟨input, _, start, turn, recorded, known, _, _, _, _, reached, _, _, genuine⟩ :=
    flippingInput_genuine launched here (Or.inr rfl) (List.mem_append_right _ member) resolved
  exact ⟨first, flipping, start, recorded, branch, input, turn, launched, here, resolved, member,
    known, reached, genuine⟩

inductive Ends (stepLimit : Nat) : Session × Except Fault Unit → Prop
  | exceeded (last : Session) (exceeds : stepLimit < last.machine.executed) :
    Ends stepLimit (last, .error (.stepLimitReached stepLimit))
  | failed (last : Session) (fault : Fault) (ofProgram : fault.OfProgram) :
    Ends stepLimit (last, .error fault)
  | finished (last : Session) (finished : last.engine.phase = .finished) :
    Ends stepLimit (last, .ok ())

theorem runTurns_ends (launched : launch config program drawn = .ok first) {fuel : Nat}
    (here : first.afterTurns stepLimit turns = some session)
    (enough : turns + fuel = first.turnLimit stepLimit) :
    Ends stepLimit (session.runTurns stepLimit fuel) := by
  obtain ⟨others, last, reached, ended⟩ := runTurns_ended launched here enough
  obtain ⟨_, _, _, since⟩ := since_of_afterTurns launched reached
  have turned := since.inPhase.turn (since.learns reached) stepLimit
  rw [ended] at turned
  generalize session.runTurns stepLimit fuel = run at turned
  obtain ⟨behind, result⟩ := run
  cases turned with
  | exceeded exceeds => exact .exceeded behind exceeds
  | failed _ fault ofProgram => exact .failed behind fault ofProgram
  | finished _ finished => exact .finished behind finished

/-- A run that fails has exceeded the step limit or fails by a fault of its program, and none of the
checks that the engine makes of itself. A run that does not fail leaves a finished engine behind. -/
theorem run_consistent (config : Config) (drawn : Random) (stepLimit : Nat) {machine : Machine}
    (loaded : Machine.load program = .ok machine) :
    (∀ {last : Session} {fault : Fault},
      (start config machine drawn).run stepLimit = (last, .error fault) →
        (fault = .stepLimitReached stepLimit ∧ stepLimit < last.machine.executed ∨
          fault.OfProgram) ∧
        fault.violation? = none ∧ fault ≠ .noActiveBranch ∧
        ∀ position, fault ≠ .noCandidate position) ∧
    ∀ {last : Session}, (start config machine drawn).run stepLimit = (last, .ok ()) →
      last.engine.phase = .finished := by
  obtain ⟨first, launched, shape⟩ := run_of_load config drawn loaded stepLimit
  have ends := runTurns_ends launched (show first.afterTurns stepLimit 0 = some first from rfl)
    (Nat.zero_add _)
  rw [shape]
  generalize first.runTurns stepLimit (first.turnLimit stepLimit) = result at ends
  constructor
  · rintro last fault rfl
    cases ends with
    | exceeded _ exceeds => exact ⟨Or.inl ⟨rfl, exceeds⟩, rfl, by simp, by simp⟩
    | failed _ _ ofProgram =>
        refine ⟨Or.inr ofProgram, ?_⟩
        cases ofProgram <;> exact ⟨rfl, by simp, by simp⟩
  · rintro last rfl
    cases ends with
    | finished _ finished => exact finished

def brief : Config := { Config.default with attemptLimit := 2, phaseLimit := 2 }

theorem twoTests_finishes :
    ∃ machine last, Machine.load twoTests = .ok machine ∧
      (start brief machine .scattered).run 100 = (last, .ok ()) ∧
      last.engine.phaseNumber = 1 ∧ last.engine.rollbacks = 6 ∧
      (last.engine.report.phases.map (·.rollbacks)).sum = 5 ∧
      (last.engine.archive ++ last.engine.branches.inTraceOrder).length = 3 ∧
      (last.engine.report.phases.map (·.resolved)).sum = 2 ∧
      (last.engine.report.phases.map (·.bypassed)).sum = 1 := by
  obtain ⟨machine, loaded, facts⟩ := (Option.any_eq_true _ _).mp
    (show ((Machine.load twoTests).toOption.any fun machine =>
      let ended := (start brief machine .scattered).run 100
      ended.2.isOk && decide (ended.1.engine.phaseNumber = 1 ∧ ended.1.engine.rollbacks = 6 ∧
        (ended.1.engine.report.phases.map (·.rollbacks)).sum = 5 ∧
        (ended.1.engine.archive ++ ended.1.engine.branches.inTraceOrder).length = 3 ∧
        (ended.1.engine.report.phases.map (·.resolved)).sum = 2 ∧
        (ended.1.engine.report.phases.map (·.bypassed)).sum = 1)) = true by decide +kernel)
  generalize ran : (start brief machine .scattered).run 100 = ended at facts
  obtain ⟨last, fault | done⟩ := ended
  · simp [Except.isOk, Except.toBool] at facts
  · simp only [Bool.and_eq_true, decide_eq_true_eq] at facts
    exact ⟨machine, last, eq_ok_of_toOption loaded, ran, facts.2⟩

/-- A program that jumps to nowhere, but not with the input that it starts with. -/
def strays : Program where
  operations := #[.loadByte "a" 0, .compareImmediate "a" 0, .jumpIfEqual 4, .jump 9, .halt]
  inputAddress := 0
  input := [0]
  memorySize := 1

theorem strays_fails :
    ∃ machine last fault, Machine.load strays = .ok machine ∧
      (start brief machine .scattered).run 100 = (last, .error fault) ∧
      last.engine.phaseNumber = 1 ∧ last.engine.rollbacks = 2 ∧ last.machine.executed ≤ 100 := by
  obtain ⟨machine, loaded, facts⟩ := (Option.any_eq_true _ _).mp
    (show ((Machine.load strays).toOption.any fun machine =>
      let ended := (start brief machine .scattered).run 100
      !ended.2.isOk && decide (ended.1.engine.phaseNumber = 1 ∧ ended.1.engine.rollbacks = 2 ∧
        ended.1.machine.executed ≤ 100)) = true by decide +kernel)
  generalize ran : (start brief machine .scattered).run 100 = ended at facts
  obtain ⟨last, fault | done⟩ := ended
  · simp only [Bool.and_eq_true, decide_eq_true_eq] at facts
    exact ⟨machine, last, fault, eq_ok_of_toOption loaded, ran, facts.2⟩
  · simp [Except.isOk, Except.toBool] at facts

theorem run_consistent_twoPhases :
    (∃ machine last, Machine.load twoTests = .ok machine ∧
      (start brief machine .scattered).run 100 = (last, .ok ()) ∧ last.engine.phaseNumber = 1 ∧
      last.engine.rollbacks = 6 ∧ last.engine.phase = .finished) ∧
    ∃ machine last fault, Machine.load strays = .ok machine ∧
      (start brief machine .scattered).run 100 = (last, .error fault) ∧
      last.engine.phaseNumber = 1 ∧ last.engine.rollbacks = 2 ∧ fault.OfProgram ∧
      fault.violation? = none := by
  constructor
  · obtain ⟨machine, last, loaded, run, phaseNumber, rollbacks, _⟩ := twoTests_finishes
    exact ⟨machine, last, loaded, run, phaseNumber, rollbacks,
      (run_consistent brief .scattered 100 loaded).2 run⟩
  · obtain ⟨machine, last, fault, loaded, run, phaseNumber, rollbacks, within⟩ := strays_fails
    obtain ⟨cause, consistent, _⟩ := (run_consistent brief .scattered 100 loaded).1 run
    have ofProgram : fault.OfProgram := cause.resolve_left fun exceeded => by omega
    exact ⟨machine, last, fault, loaded, run, phaseNumber, rollbacks, ofProgram, consistent⟩

end Session

end BranchSteer
