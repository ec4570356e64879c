import BranchSteer.Proofs.Deciding
import BranchSteer.Proofs.Guarantees

/-!
The limits of a run. The engine takes the process back only within its budget, a tainting phase ends at its
trace limit and another phase starts only if the configuration allows it. Between two rollbacks the
process executes no more than the recorded window of the current phase, so even without a limit of steps
only finitely many turns are possible.
-/

namespace BranchSteer

namespace Judgement

def trivial : Judgement := ⟨fun _ => True, fun _ => True, fun _ _ => True, fun _ _ => True⟩

theorem trivial_upheld (recording : Recording) (config : Config) (departs : Resolution → Prop) :
    trivial.Upheld recording config departs := by
  constructor <;> simp [trivial]

end Judgement

namespace Session

structure WithinLimits (config : Config) (stepLimit : Nat) (session : Session) : Prop where
  rollbacks : session.engine.rollbacks ≤ config.rollbackLimit
  traced : session.engine.trace.size ≤ session.engine.basePosition + config.traceLimit
  phases : config.phaseLimit ≠ 0 → session.engine.phaseNumber + 1 ≤ config.phaseLimit
  executed : session.machine.executed ≤ (session.engine.rollbacks + 1) * config.traceLimit
  steps : session.machine.executed ≤ stepLimit + 1

/-- A session in front of a turn. What was executed since the last rollback lies inside the window that
its phase has recorded. -/
structure Bounded (config : Config) (session : Session) : Prop where
  segment : session.machine.executed ≤ session.engine.rollbacks * config.traceLimit +
    (session.engine.position - session.engine.basePosition)
  inside : session.engine.position ≤ session.engine.trace.size
  traced : session.engine.trace.size ≤ session.engine.basePosition + config.traceLimit
  phases : config.phaseLimit ≠ 0 → session.engine.phaseNumber + 1 ≤ config.phaseLimit

variable {config : Config} {drawn : Random} {program : Program} {first session next : Session}
  {stepLimit turns : Nat} {executions : List Execution}

theorem Since.withinLimits {start : Session} {begun : Nat}
    (since : Since program first stepLimit turns session begun start executions)
    (bounded : session.Bounded session.engine.config) :
    session.WithinLimits session.engine.config stepLimit := by
  have segment := bounded.segment
  have inside := bounded.inside
  have traced := bounded.traced
  refine ⟨since.budget, traced, bounded.phases, ?_, since.within⟩
  rw [Nat.succ_mul]
  omega

theorem judged_trivial (session : Session) : session.Judged .trivial :=
  ⟨fun _ _ => True.intro, fun _ _ _ _ => True.intro, fun _ _ _ _ _ => True.intro⟩

theorem InPhase.bounded_returned {origin : Machine} {genuine : Finding → List UInt8 → Prop}
    (inPhase : session.InPhase origin executions genuine)
    (bounded : session.Bounded session.engine.config) {engine : Engine} {decision : Decision}
    (decides : session.decision = .ok decision) (approaches : session.Approaches origin engine)
    (takesBack : engine.TakesBack genuine executions decision) {memory : Memory}
    {processor : Processor} (done : decision.carryOut session.machine.memory =
      ⟨next.engine, memory, .ok (.rollback processor)⟩)
    (executed : next.machine.executed = session.machine.executed) :
    next.Bounded session.engine.config := by
  obtain ⟨segment, inside, traced, phases⟩ := bounded
  have keeps := takesBack.keeps
  have recording := keeps.recording.trans approaches.recording
  have config := keeps.config.trans approaches.config
  have rollbacks := keeps.rollbacks.trans approaches.rollbacks
  have base := Engine.basePosition_of_recording recording
  have trace := Engine.trace_of_recording recording
  have number := Engine.phaseNumber_of_recording recording
  have describes : decision.engine.recording.Describes executions := recording ▸ inPhase.describes
  have size : session.engine.trace.size = session.engine.basePosition + executions.length :=
    inPhase.describes.traceSize
  have spent : session.machine.executed ≤
      (session.engine.rollbacks + 1) * session.engine.config.traceLimit := by
    rw [Nat.succ_mul]
    omega
  have went : ∀ {index : Nat} {machine : Machine},
      WentBack decision origin index machine next.engine memory →
      next.engine.recording = decision.engine.recording → next.Bounded session.engine.config := by
    intro index machine wentBack same
    have bound := wentBack.bound describes
    have baseToo := Engine.basePosition_of_recording same
    have traceToo := Engine.trace_of_recording same
    refine ⟨?_, ?_, ?_, ?_⟩
    · rw [executed, wentBack.rollbacks, rollbacks]
      omega
    · rw [wentBack.position, traceToo, trace, base]
      omega
    · rw [traceToo, trace, baseToo, base]
      exact traced
    · rw [Engine.phaseNumber_of_recording same, number]
      exact phases
  have returns := inPhase.returns approaches takesBack
  rw [done] at returns
  cases returns with
  | attempting index machine _ _ wentBack same => exact went wentBack same
  | forwarding index machine _ _ wentBack same => exact went wentBack same
  | tainting index machine _ _ wentBack seed restart restarted tainting =>
      have size : next.engine.trace.size = next.engine.basePosition + 0 := tainting.describes.traceSize
      have allowed := (inPhase.upholds (judged_trivial session) (Judgement.trivial_upheld _ _ _)
        (fun _ _ _ _ => True.intro) decides takesBack).phases restart
      rw [config, number] at allowed
      refine ⟨?_, ?_, ?_, fun limited => ?_⟩
      · rw [executed, wentBack.rollbacks, rollbacks]
        omega
      · rw [wentBack.position, size, restarted.base]
        exact Nat.le_refl _
      · omega
      · rw [restarted.phaseNumber, number]
        omega

theorem InPhase.bounded_next {origin : Machine} {genuine : Finding → List UInt8 → Prop}
    (inPhase : session.InPhase origin executions genuine)
    (moves : session.Moves origin executions genuine next)
    (bounded : session.Bounded session.engine.config) : next.Bounded session.engine.config := by
  cases moves with
  | steps proceeds stepped =>
      cases proceeds with
      | records instruction execution decoded foreseen tainting now reached alike allows entered =>
          obtain ⟨segment, inside, traced, phases⟩ := bounded
          obtain ⟨taintingToo, recording, _⟩ := tainting.enter entered
          have executed := (Machine.step_framed inPhase.smallMemory foreseen stepped).executed
          have rollbacks : next.engine.rollbacks = session.engine.rollbacks :=
            (Engine.entered_keeps entered).2.1
          have base : next.engine.basePosition = session.engine.basePosition :=
            congrArg Recording.basePosition recording
          have number : next.engine.phaseNumber = session.engine.phaseNumber :=
            congrArg Recording.phaseNumber recording
          have size : next.engine.trace.size = session.engine.trace.size + 1 := by
            rw [show next.engine.trace = session.engine.trace.push execution.address from
              congrArg Recording.trace recording, Array.size_push]
          have described : session.engine.trace.size = session.engine.basePosition + executions.length :=
            inPhase.describes.traceSize
          have here := tainting.position
          have there := taintingToo.position
          have room := allows.room
          refine ⟨?_, ?_, ?_, ?_⟩
          · rw [executed, rollbacks, base]
            omega
          · omega
          · rw [base]
            omega
          · rw [number]
            exact phases
      | replays execution foreseen rollbacking ahead traced checkpoints engine recording =>
          obtain ⟨segment, inside, window, phases⟩ := bounded
          have executed := (Machine.step_framed inPhase.smallMemory foreseen stepped).executed
          obtain ⟨below, _⟩ := Array.getElem?_eq_some_iff.mp traced
          refine ⟨?_, ?_, ?_, ?_⟩
          · rw [executed, engine]
            simp only
            omega
          · rw [engine]
            exact below
          · rw [engine]
            exact window
          · rw [engine]
            exact phases
  | returns engine decision decides approaches takesBack memory processor done machine =>
      exact inPhase.bounded_returned bounded decides approaches takesBack done (by rw [machine]; rfl)

structure Lasts (session last : Session) : Prop where
  executed : last.machine.executed = session.machine.executed
  rollbacks : last.engine.rollbacks = session.engine.rollbacks
  phaseNumber : last.engine.phaseNumber = session.engine.phaseNumber
  base : last.engine.basePosition = session.engine.basePosition
  trace : last.engine.trace = session.engine.trace ∨
    session.engine.trace.size < session.engine.basePosition + session.engine.config.traceLimit ∧
      ∃ address, last.engine.trace = session.engine.trace.push address

theorem Lasts.of_approaches {engine : Engine} {origin : Machine}
    (approaches : session.Approaches origin engine) (memory : Memory)
    (checkpoints : Array Checkpoint) :
    session.Lasts ⟨{ engine with checkpoints := checkpoints },
      { session.machine with memory := memory }⟩ := by
  have phaseNumber := Engine.phaseNumber_of_recording approaches.recording
  have base := Engine.basePosition_of_recording approaches.recording
  have trace := Engine.trace_of_recording approaches.recording
  exact ⟨rfl, approaches.rollbacks, phaseNumber, base, Or.inl trace⟩

theorem Lasts.of_proceed {engine : Engine} {origin : Machine}
    (approaches : session.Approaches origin engine) (writes : List MemoryRange) :
    session.Lasts (session.behind (engine.proceed session.machine.memory writes)).1 := by
  obtain ⟨checkpoints, ⟨_, done⟩ | ⟨access, failed⟩⟩ :=
    engine.proceed_proceeded session.machine.memory writes
  · rw [done]
    exact .of_approaches approaches _ checkpoints
  · rw [failed]
    exact .of_approaches approaches _ checkpoints

theorem InPhase.lasts {origin : Machine} {genuine : Finding → List UInt8 → Prop}
    (inPhase : session.InPhase origin executions genuine)
    (learns : session.Learns origin genuine)
    (stays : ∀ processor, session.react.2 ≠ .ok (.rollback processor)) :
    session.Lasts session.react.1 := by
  have decided := inPhase.decided learns
  rw [react_eq] at stays ⊢
  generalize decides : session.decision = decision at decided stays ⊢
  cases decided with
  | invalid fault failed => exact ⟨rfl, rfl, rfl, rfl, Or.inl rfl⟩
  | escapes access => exact ⟨rfl, rfl, rfl, rfl, Or.inl rfl⟩
  | record instruction execution decoded foreseen halted tainting supported now reached alike =>
      have room := (inPhase.allows tainting halted decoded foreseen decides).room
      have entered := Engine.enter_entered
        (session.engine.recordInstruction execution session.machine.processor) session.machine.memory
        instruction execution
      have pushed : session.engine.trace.size <
          session.engine.basePosition + session.engine.config.traceLimit ∧
            ∃ address, session.engine.trace.push execution.address =
              session.engine.trace.push address :=
        ⟨tainting.position ▸ room, _, rfl⟩
      simp only [behind, Decision.carryOut]
      generalize Engine.enter _ _ _ _ = reaction at entered ⊢
      cases entered with
      | unreadable checkpoints access => exact ⟨rfl, rfl, rfl, rfl, Or.inr pushed⟩
      | undecided engine memory isBranch missing =>
          exact absurd missing (Machine.taken_of_isBranch decoded foreseen isBranch)
      | plain checkpoints logged notBranch => exact ⟨rfl, rfl, rfl, rfl, Or.inr pushed⟩
      | branch checkpoints logged taken outcome => exact ⟨rfl, rfl, rfl, rfl, Or.inr pushed⟩
  | follow execution foreseen halted approaches forwards now reached alike ahead =>
      exact .of_proceed approaches _
  | attempt execution foreseen halted resolution attempting now reached alike follows ahead =>
      obtain ⟨recording, config, rollbacks, recalls, arms⟩ := inPhase.approaches
      have approaches : session.Approaches origin
          { session.engine with position := session.engine.position + 1 } :=
        ⟨recording, config, rollbacks, recalls, arms⟩
      exact .of_proceed approaches _
  | takesBack engine decision approaches takesBack =>
      have returns := inPhase.returns approaches takesBack
      have keeps := takesBack.keeps
      have recording := keeps.recording.trans approaches.recording
      simp only [behind] at stays ⊢
      generalize done : decision.carryOut session.machine.memory = reaction at returns stays ⊢
      cases returns with
      | ended after finished supported =>
          have stops := Decision.carryOut_stops done
          have same := stops.recording.trans recording
          exact ⟨rfl, stops.rollbacks.trans (keeps.rollbacks.trans approaches.rollbacks),
            Engine.phaseNumber_of_recording same, Engine.basePosition_of_recording same,
            Or.inl (Engine.trace_of_recording same)⟩
      | _ => exact absurd rfl (stays _)

theorem Lasts.withinLimits {last : Session} (lasts : session.Lasts last)
    (within : session.WithinLimits session.engine.config stepLimit) :
    last.WithinLimits session.engine.config stepLimit := by
  obtain ⟨rollbacks, traced, phases, executed, steps⟩ := within
  refine ⟨?_, ?_, ?_, ?_, ?_⟩
  · rw [lasts.rollbacks]
    exact rollbacks
  · rw [lasts.base]
    rcases lasts.trace with same | ⟨room, address, pushed⟩
    · rw [same]
      exact traced
    · rw [pushed, Array.size_push]
      exact room
  · rw [lasts.phaseNumber]
    exact phases
  · rw [lasts.executed, lasts.rollbacks]
    exact executed
  · rw [lasts.executed]
    exact steps

theorem bounded_of_afterTurns (launched : launch config program drawn = .ok first)
    (here : first.afterTurns stepLimit turns = some session) : session.Bounded config := by
  induction turns generalizing session with
  | zero =>
      rw [afterTurns, Option.some.injEq] at here
      subst here
      obtain ⟨machine, baseInput, text, loaded, rfl⟩ := launch_eq_ok launched
      obtain ⟨_, rfl⟩ := Machine.load_eq_ok loaded
      refine ⟨Nat.zero_le _, Nat.le_refl _, Nat.zero_le _, fun limited => ?_⟩
      exact Nat.pos_of_ne_zero limited
  | succ turns ih =>
      obtain ⟨before, known, done⟩ := afterTurns_succ here
      obtain ⟨_, origin, _, since⟩ := since_of_afterTurns launched known
      have bounded := ih known
      rw [← (launch_since launched stepLimit).1, ← since.config] at bounded ⊢
      exact since.inPhase.bounded_next (since.inPhase.moves (since.learns known) done) bounded

/-- Every run ends. In front of each of its turns and at its end the engine has rolled back within its
budget, every phase has traced within its limit and no more phases were started than allowed; what was
executed is bounded by the rollbacks, apart from the limit of steps, and the turns are as many as the
executed operations and the rollbacks, and one. -/
theorem run_withinLimits (config : Config) (drawn : Random) (stepLimit : Nat) {machine : Machine}
    (loaded : Machine.load program = .ok machine) :
    ∃ first turns session last result, launch config program drawn = .ok first ∧
      first.afterTurns stepLimit turns = some session ∧
      session.turn stepLimit = .ended last result ∧
      (start config machine drawn).run stepLimit = (last, result) ∧
      (∀ {other : Nat} {also : Session}, first.afterTurns stepLimit other = some also →
        also.WithinLimits config stepLimit) ∧
      last.WithinLimits config stepLimit ∧
      turns + 1 ≤ last.machine.executed + last.engine.rollbacks + 1 ∧
      turns + 1 ≤ (config.rollbackLimit + 1) * config.traceLimit + config.rollbackLimit + 1 ∧
      (result = .ok () → last.machine.executed ≤ stepLimit) ∧
      ((config.rollbackLimit + 1) * config.traceLimit ≤ stepLimit →
        result ≠ .error (.stepLimitReached stepLimit)) := by
  obtain ⟨first, turns, session, launched, here, ended⟩ := run_ended config drawn stepLimit loaded
  have every : ∀ {other : Nat} {also : Session}, first.afterTurns stepLimit other = some also →
      also.WithinLimits config stepLimit := by
    intro other also there
    obtain ⟨_, _, _, since⟩ := since_of_afterTurns launched there
    have bounded := bounded_of_afterTurns launched there
    rw [← (launch_since launched stepLimit).1, ← since.config] at bounded ⊢
    exact since.withinLimits bounded
  have within := every here
  obtain ⟨_, _, _, since⟩ := since_of_afterTurns launched here
  have clock := since.clock
  have sameConfig := since.config.trans (launch_since launched stepLimit).1
  generalize (start config machine drawn).run stepLimit = run at ended ⊢
  obtain ⟨last, result⟩ := run
  simp only at ended
  have most : (session.engine.rollbacks + 1) * config.traceLimit ≤
      (config.rollbackLimit + 1) * config.traceLimit :=
    Nat.mul_le_mul_right _ (Nat.succ_le_succ within.rollbacks)
  have executed := within.executed
  have rollbacks := within.rollbacks
  refine ⟨first, turns, session, last, result, launched, here, ended, rfl, every, ?_⟩
  rcases turn_ended ended with ⟨exceeds, rfl, failed⟩ | ⟨upTo, same, stays, _⟩
  · refine ⟨within, by omega, by omega, fun done => ?_, fun enough => by omega⟩
    simp [failed] at done
  · have lasts : session.Lasts last := same ▸ since.inPhase.lasts (since.learns here) stays
    have executedLast := lasts.executed
    have rollbacksLast := lasts.rollbacks
    refine ⟨?_, by omega, by omega, fun _ => by omega, fun _ reached => ?_⟩
    · rw [← sameConfig] at within ⊢
      exact lasts.withinLimits within
    · have turned := since.inPhase.turn (since.learns here) stepLimit
      rw [ended, reached] at turned
      cases turned with
      | exceeded exceeds => omega
      | failed _ _ ofProgram => cases ofProgram

theorem run_withinLimits_twoTests :
    ∃ machine last result, Machine.load twoTests = .ok machine ∧
      (start { Config.seeded 7 with traceLimit := 4, rollbackLimit := 2 } machine).run 20 =
        (last, result) ∧
      last.engine.rollbacks ≤ 2 ∧ last.machine.executed ≤ (last.engine.rollbacks + 1) * 4 ∧
      result ≠ .error (.stepLimitReached 20) := by
  obtain ⟨machine, loaded⟩ := Option.isSome_iff_exists.mp
    (show (Machine.load twoTests).toOption.isSome by decide +kernel)
  obtain ⟨_, _, _, last, result, _, _, _, run, _, within, _, _, _, unlimited⟩ :=
    run_withinLimits { Config.seeded 7 with traceLimit := 4, rollbackLimit := 2 } default 20
      (eq_ok_of_toOption loaded)
  exact ⟨machine, last, result, eq_ok_of_toOption loaded, run, within.rollbacks, within.executed,
    unlimited (by decide)⟩

end Session

end BranchSteer
