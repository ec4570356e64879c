import BranchSteer.Proofs.Turns

/-!
Turns that take the process back. Behind a rollback of an attempt the machine is in the state of a run
with the input of the attempt, behind a restoration in the state of the phase, and behind a restart it
starts a phase of its own.
-/

namespace BranchSteer

open Machine (Alike AgreeOff)

namespace Session

variable {session : Session} {origin : Machine} {executions : List Execution}
  {genuine : Finding → List UInt8 → Prop}

theorem Ticks.of_wentBack {decision : Decision} {engine after : Engine} {index : Nat}
    {machine : Machine} {memory : Memory} (approaches : session.Approaches origin engine)
    (keeps : Engine.Keeps engine decision.engine)
    (wentBack : WentBack decision origin index machine after memory) (processor : Processor) :
    session.Ticks ⟨after, Machine.resume { session.machine with memory := memory } processor⟩ := by
  have config := keeps.config.trans approaches.config
  have rollbacks := keeps.rollbacks.trans approaches.rollbacks
  refine ⟨wentBack.config.trans config, wentBack.input.trans ?_, ?_, Nat.le_succ _, fun _ => ?_⟩
  · exact keeps.input.trans (Engine.input_of_recording approaches.recording)
  · simp only [Machine.resume, wentBack.rollbacks, rollbacks]
    omega
  · simp only [wentBack.rollbacks, wentBack.config]
    exact wentBack.budget

end Session

section

variable {decision : Decision} {origin : Machine} {executions : List Execution} {index : Nat}
  {machine : Machine} {after : Engine} {memory : Memory}

theorem WentBack.of_target (wentBack : WentBack decision origin index machine after memory) {id : Nat}
    {perturbation : Perturbation} (target : decision.order.target? = some (id, perturbation)) :
    ∃ point, decision.engine.recording.points[id]? = some point ∧
      point.position = decision.engine.basePosition + index + 1 ∧ ∀ address,
        memory.byte address = (perturbation.value? decision.engine.input decision.engine.random
          address).getD (machine.memory.byte address) := by
  obtain ⟨_, _, checkpoint, order, found, place, byte⟩ := wentBack.target
  simp only [target, Option.some.injEq, Prod.mk.injEq] at order
  obtain ⟨rfl, rfl⟩ := order
  exact ⟨checkpoint.point, by rw [Engine.points_getElem?, found, Option.map_some], place, byte⟩

theorem WentBack.bound (wentBack : WentBack decision origin index machine after memory)
    (describes : decision.engine.recording.Describes executions) : index < executions.length := by
  obtain ⟨id, _, _, order, _⟩ := wentBack.target
  obtain ⟨point, there, place, _⟩ := wentBack.of_target order
  obtain ⟨other, _, known, position, _⟩ := describes.point there
  obtain ⟨inside, _⟩ := List.getElem?_eq_some_iff.mp known
  have base : decision.engine.recording.basePosition = decision.engine.basePosition := rfl
  omega

theorem WentBack.running (wentBack : WentBack decision origin index machine after memory)
    (describes : decision.engine.recording.Describes executions)
    (performs : origin.Performs executions) : machine.halted = false :=
  (performs.each_of_steps (List.getElem?_eq_getElem (wentBack.bound describes)) wentBack.reached).1

end

theorem Recording.Describes.unread {recording : Recording} {executions : List Execution}
    (describes : recording.Describes executions) {point : Point} {index : Nat}
    (found : recording.points[0]? = some point)
    (place : point.position = recording.basePosition + index + 1) {earlier : Nat}
    {execution : Execution} {address : Nat} (before : earlier < index)
    (executed : executions[earlier]? = some execution) (reads : execution.Reads address) :
    ¬ recording.input.contains address := by
  intro inside
  obtain ⟨id, other, there, position⟩ := describes.complete executed reads inside
  rcases Nat.eq_zero_or_pos id with first | later
  · subst first
    rw [found, Option.some.injEq] at there
    subst there
    omega
  · have above := describes.increasing later found there
    omega

namespace Session

variable {session : Session} {origin : Machine} {executions : List Execution}
  {genuine : Finding → List UInt8 → Prop}

section

variable {engine after : Engine} {decision : Decision} {index : Nat} {machine : Machine}
  {changed : Memory}

theorem InPhase.operations_of_steps (inPhase : session.InPhase origin executions genuine)
    (reached : origin.steps index = .ok machine) :
    session.machine.program.operations = machine.program.operations := by
  rw [(Machine.steps_framed inPhase.small reached).1]
  exact inPhase.operations

theorem InPhase.describes_of_keeps (inPhase : session.InPhase origin executions genuine)
    (approaches : session.Approaches origin engine) (keeps : Engine.Keeps engine decision.engine) :
    decision.engine.recording = session.engine.recording ∧
      decision.engine.recording.Describes executions := by
  have recording := keeps.recording.trans approaches.recording
  exact ⟨recording, recording ▸ inPhase.describes⟩

/-- The machine is in a state of the run with the input of the attempt, since nothing has touched the
perturbed bytes in front of the checkpoint. -/
theorem InPhase.tried (inPhase : session.InPhase origin executions genuine)
    (approaches : session.Approaches origin engine) (keeps : Engine.Keeps engine decision.engine)
    (wentBack : WentBack decision origin index machine after changed)
    (same : after.recording = decision.engine.recording)
    (recalls : Recalls origin after.basePosition after.checkpoints changed)
    {tried resolution : Resolution} (attempt : decision.order = .attempt tried)
    (checkpoint : resolution.checkpoint = tried.checkpoint)
    (perturbed : resolution.perturbed = tried.perturbed)
    (attempted : resolution.attemptedInput = decision.engine.patchInput changed tried.perturbed)
    (attempting : after.Attempting genuine executions resolution) :
    Reacts session origin executions genuine
      (session.behind ⟨after, changed, .ok (.rollback machine.processor)⟩) := by
  obtain ⟨recording, describes⟩ := inPhase.describes_of_keeps approaches keeps
  obtain ⟨point, there, place, byte⟩ := wentBack.of_target
    (show decision.order.target? = some (tried.checkpoint, Engine.nextPerturbation tried) by
      rw [attempt, Order.target?])
  have bytes : ∀ address ∈ tried.perturbed, decision.engine.recording.Untouched executions
      (decision.engine.basePosition + index + 1) address := by
    intro address member
    rw [← place]
    exact same ▸ attempting.attempts.bytes (same ▸ checkpoint ▸ there) address
      (Or.inl (perturbed ▸ member))
  have holds : origin.memory.Holds decision.engine.input.address decision.engine.baseInput := by
    rw [Engine.input_of_recording recording, Engine.baseInput_of_recording recording]
    exact inPhase.holds
  obtain ⟨twin, reached, alike, follows⟩ := Machine.attempt_alike
    (Machine.resume { session.machine with memory := changed } machine.processor) describes
    inPhase.performs inPhase.small holds wentBack.reached (wentBack.bound describes) bytes
    inPhase.operations rfl rfl wentBack.size byte
  have sameToo := same.trans recording
  have input := Engine.input_of_recording same
  have baseInput := Engine.baseInput_of_recording same
  have base := Engine.basePosition_of_recording same
  have trace := Engine.trace_of_recording same
  refine .returns after changed machine.processor attempting.attempts.steered.supported
    (.of_wentBack approaches keeps wentBack _)
    (.went (inPhase.of_recording sameToo recalls (.attempting resolution attempting twin ?_ alike ?_))
      attempting.attempts.steered.phase sameToo)
  · simp only [input, baseInput, base, attempted, wentBack.position, Nat.add_sub_cancel_left]
    exact reached
  · simp only [input, baseInput, base, trace, attempted, wentBack.position]
    exact follows

theorem InPhase.restored (inPhase : session.InPhase origin executions genuine)
    (approaches : session.Approaches origin engine) (keeps : Engine.Keeps engine decision.engine)
    (wentBack : WentBack decision origin index machine after changed)
    (same : after.recording = decision.engine.recording)
    (recalls : Recalls origin after.basePosition after.checkpoints changed) {id : Nat}
    (restore : decision.order = .restore id) (forwards : after.Forwards genuine executions) :
    Reacts session origin executions genuine
      (session.behind ⟨after, changed, .ok (.rollback machine.processor)⟩) := by
  obtain ⟨recording, describes⟩ := inPhase.describes_of_keeps approaches keeps
  obtain ⟨_, _, _, byte⟩ := wentBack.of_target
    (show decision.order.target? = some (id, .none) by rw [restore, Order.target?])
  have alike : Alike
      (Machine.resume { session.machine with memory := changed } machine.processor) machine :=
    ⟨inPhase.operations_of_steps wentBack.reached, rfl,
      (wentBack.running describes inPhase.performs).symm, wentBack.size, fun address _ => byte address⟩
  have sameToo := same.trans recording
  refine .returns after changed machine.processor forwards.steered.supported
    (.of_wentBack approaches keeps wentBack _)
    (.went (inPhase.of_recording sameToo recalls (.forwarding forwards machine ?_ alike))
      forwards.steered.phase sameToo)
  simp only [Engine.basePosition_of_recording same, wentBack.position, Nat.add_sub_cancel_left]
  exact wentBack.reached

/-- Off the buffer the machine is in the state at the first checkpoint, and the buffer holds the seed
as a whole. -/
theorem InPhase.restarted (inPhase : session.InPhase origin executions genuine)
    (approaches : session.Approaches origin engine) (keeps : Engine.Keeps engine decision.engine)
    (wentBack : WentBack decision origin index machine after changed) {seed : List UInt8}
    (restart : decision.order = .restart seed)
    (restarted : Restarted decision.engine seed index after) (tainting : after.Tainting [])
    (supported : after.Supported genuine) :
    Reacts session origin executions genuine
      (session.behind ⟨after, changed, .ok (.rollback machine.processor)⟩) := by
  obtain ⟨recording, describes⟩ := inPhase.describes_of_keeps approaches keeps
  obtain ⟨point, there, place, byte⟩ := wentBack.of_target
    (show decision.order.target? = some (0, .input seed) by rw [restart, Order.target?])
  have input := Engine.input_of_recording recording
  have base := Engine.basePosition_of_recording recording
  have inputToo : after.input = session.engine.input := wentBack.input.trans input
  have size : changed.size = origin.memory.size :=
    wentBack.size.trans (Machine.steps_framed inPhase.small wentBack.reached).2
  have holds : changed.Holds after.input.address after.baseInput := by
    intro offset value seeded
    rw [restarted.baseInput] at seeded
    obtain ⟨bound, _⟩ := List.getElem?_eq_some_iff.mp seeded
    have length := restarted.length
    have contained : decision.engine.input.contains (decision.engine.input.address + offset) :=
      (InputBuffer.contains_iff _ _).mpr (by omega)
    rw [wentBack.input, byte, Perturbation.value?_input length _ contained, Nat.add_sub_cancel_left,
      seeded, Option.getD_some]
  have agree : AgreeOff (fun address => session.engine.input.contains address) machine
      (Machine.resume { session.machine with memory := changed } machine.processor) := by
    refine ⟨(inPhase.operations_of_steps wentBack.reached).symm, rfl,
      wentBack.running describes inPhase.performs, wentBack.size.symm, fun address outside => ?_⟩
    simp only [← input] at outside
    simp [Machine.resume, byte, Perturbation.value?, outside]
  have starts : session.Starts
      ⟨after, Machine.resume { session.machine with memory := changed } machine.processor⟩ origin
      executions := by
    refine ⟨⟨index, machine, wentBack.bound describes, wentBack.reached, agree, ?_, ?_⟩,
      wentBack.position.trans restarted.base.symm, ?_, ?_, restarted.checkpoints⟩
    · exact restarted.base.trans (by rw [base])
    · intro earlier execution address before executed reads
      rw [← input]
      exact describes.unread there place before executed reads
    · rw [restarted.trace, restarted.base, Engine.trace_of_recording recording]
    · rw [restarted.phaseNumber, Engine.phaseNumber_of_recording recording]
  refine .returns after changed machine.processor supported
    (.of_wentBack approaches keeps wentBack _)
    (.restarted ⟨.nil _, ?_, ?_, holds, ?_, .tainting tainting supported _ rfl (.refl _ _)⟩
      tainting.phase starts)
  · exact size ▸ inPhase.small
  · simp only [Machine.resume, inputToo, size]
    exact inPhase.inside
  · simp only [restarted.checkpoints]
    exact .empty _ _ rfl

theorem InPhase.returns (inPhase : session.InPhase origin executions genuine)
    (approaches : session.Approaches origin engine)
    (takesBack : engine.TakesBack genuine executions decision) :
    Returns decision origin executions genuine session.machine.memory
      (decision.carryOut session.machine.memory) :=
  takesBack.carryOut approaches.recalls inPhase.small
    (Engine.input_of_recording approaches.recording ▸ inPhase.inside)

theorem InPhase.goBack (inPhase : session.InPhase origin executions genuine)
    (approaches : session.Approaches origin engine)
    (takesBack : engine.TakesBack genuine executions decision) :
    Reacts session origin executions genuine
      (session.behind (decision.carryOut session.machine.memory)) := by
  have keeps := takesBack.keeps
  have returns := inPhase.returns approaches takesBack
  generalize decision.carryOut session.machine.memory = reaction at returns
  cases returns with
  | ended after finished supported => exact .stopped _ finished supported
  | attempting index machine after changed wentBack same recalls tried resolution attempt checkpoint
      perturbed attempted attempting =>
      exact inPhase.tried approaches keeps wentBack same recalls attempt checkpoint perturbed attempted
        attempting
  | forwarding index machine after restored wentBack same recalls id restore forwards =>
      exact inPhase.restored approaches keeps wentBack same recalls restore forwards
  | tainting index machine after changed wentBack seed restart restarted tainting supported =>
      exact inPhase.restarted approaches keeps wentBack restart restarted tainting supported

end

theorem InPhase.reacts (inPhase : session.InPhase origin executions genuine)
    (learns : session.Learns origin genuine) :
    Reacts session origin executions genuine session.react := by
  have decided := inPhase.decided learns
  rw [react_eq]
  generalize session.decision = decision at decided
  cases decided with
  | invalid fault failed =>
      exact .failed _ _ (Machine.operation_error failed) inPhase.supported
  | escapes access => exact .failed _ _ (.accessWrapsAround access) inPhase.supported
  | record instruction execution decoded foreseen running tainting supported now reached alike =>
      exact inPhase.record decoded foreseen running tainting reached alike
  | follow execution foreseen running approaches forwards now reached alike ahead =>
      exact inPhase.follow foreseen running approaches forwards reached alike ahead
  | attempt execution foreseen running resolution attempting now reached alike follows ahead =>
      exact inPhase.attempt foreseen running attempting reached alike follows ahead
  | takesBack engine decision approaches takesBack =>
      exact inPhase.goBack approaches takesBack

theorem InPhase.wentBack (inPhase : session.InPhase origin executions genuine)
    (learns : session.Learns origin genuine) {after : Session} {processor : Processor}
    (rolledBack : session.react = (after, .ok (.rollback processor))) :
    ∃ decision index machine, session.decision = .ok decision ∧
      decision.engine.recording = session.engine.recording ∧
      WentBack decision origin index machine after.engine after.machine.memory ∧
      processor = machine.processor := by
  have decided := inPhase.decided learns
  rw [react_eq] at rolledBack
  generalize session.decision = decision at decided rolledBack
  cases decided with
  | invalid fault failed => simp at rolledBack
  | escapes access => simp [behind, Decision.carryOut] at rolledBack
  | record instruction execution decoded foreseen running tainting supported now reached alike =>
      exact absurd (congrArg Prod.snd rolledBack) (Engine.enter_ne_rollback _ _ _ _ processor)
  | follow execution foreseen running approaches forwards now reached alike ahead =>
      exact absurd (congrArg Prod.snd rolledBack) (Engine.proceed_ne_rollback _ _ _ processor)
  | attempt execution foreseen running resolution attempting now reached alike follows ahead =>
      exact absurd (congrArg Prod.snd rolledBack) (Engine.proceed_ne_rollback _ _ _ processor)
  | takesBack engine decision approaches takesBack =>
      have returns := inPhase.returns approaches takesBack
      simp only [behind, Prod.mk.injEq] at rolledBack
      obtain ⟨rfl, rolledBack⟩ := rolledBack
      generalize decision.carryOut session.machine.memory = reaction at returns rolledBack
      have recording := takesBack.keeps.recording.trans approaches.recording
      cases returns with
      | ended after finished supported => simp at rolledBack
      | attempting index machine after changed wentBack =>
          simp only [Except.ok.injEq, Action.rollback.injEq] at rolledBack
          exact ⟨decision, index, machine, rfl, recording, wentBack, rolledBack.symm⟩
      | forwarding index machine after restored wentBack =>
          simp only [Except.ok.injEq, Action.rollback.injEq] at rolledBack
          exact ⟨decision, index, machine, rfl, recording, wentBack, rolledBack.symm⟩
      | tainting index machine after changed wentBack =>
          simp only [Except.ok.injEq, Action.rollback.injEq] at rolledBack
          exact ⟨decision, index, machine, rfl, recording, wentBack, rolledBack.symm⟩

theorem InPhase.arms (inPhase : session.InPhase origin executions genuine)
    (learns : session.Learns origin genuine) {decision : Decision}
    (decides : session.decision = .ok decision) {id : Nat} {before after : Checkpoint}
    (found : session.engine.checkpoints[id]? = some before)
    (there : decision.engine.checkpoints[id]? = some after) (disarmed : ¬ before.armed)
    (armed : after.armed) : ∃ index machine,
      before.position = session.engine.basePosition + index + 1 ∧
      origin.steps index = .ok machine ∧ session.machine.processor = machine.processor ∧
      session.machine.memory = machine.memory := by
  have decided := inPhase.decided learns
  rw [decides] at decided
  cases decided with
  | escapes access => exact inPhase.approaches.arms found there disarmed armed
  | record instruction execution decoded foreseen running tainting supported now reached alike =>
      exact absurd (tainting.armed found) disarmed
  | follow execution foreseen running approaches forwards now reached alike ahead =>
      exact approaches.arms found there disarmed armed
  | attempt execution foreseen running resolution attempting now reached alike follows ahead =>
      exact inPhase.approaches.arms found there disarmed armed
  | takesBack engine decision approaches takesBack =>
      rw [takesBack.keeps.checkpoints] at there
      exact approaches.arms found there disarmed armed

end Session

end BranchSteer
