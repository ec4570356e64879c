import BranchSteer.Proofs.Deciding
import BranchSteer.Proofs.TwoRuns

/-!
The dependencies of the branches that the first phase of a run records. Any other input that agrees on them
leads to the same outcome, as long as the addresses in front of the branch are the same, and a register
`ip` of the program is not read behind a conditional branch before it is written.
-/

namespace BranchSteer

open Machine (AgreeOff)

namespace Machine

variable {program : Program} {input : List UInt8} {fresh other : Machine}

def outcome? (origin : Machine) (position : Nat) : Option Bool :=
  (origin.steps (position - 1)).toOption.bind fun machine =>
    machine.execution.toOption.bind Execution.taken

theorem outcome?_of_steps {origin machine : Machine} {count : Nat} {operation : Operation}
    (reached : origin.steps count = .ok machine) (found : machine.operation = .ok operation) :
    origin.outcome? (count + 1) = (foresee machine.processor operation).taken := by
  simp [outcome?, reached, execution, found, Except.toOption, Except.map]

instance (origin other : Machine) (bound : Nat) : Decidable (origin.Parallel other bound) :=
  decidable_of_iff (∀ count, count < bound → (origin.steps count).toOption.any fun left =>
      (other.steps count).toOption.any fun right =>
        left.instructionPointer = right.instructionPointer) <| by
    simp only [Parallel, Option.any_eq_true, decide_eq_true_eq, Session.toOption_eq_some_iff,
      exists_and_left]

theorem byte_of_load (loaded : load program = .ok fresh)
    (loadedToo : load { program with input := input } = .ok other) {address : Nat}
    (agree : ∀ index, program.inputAddress.toNat + index = address →
      input[index]? = program.input[index]?) :
    fresh.memory.byte address = other.memory.byte address := by
  obtain ⟨_, rfl⟩ := load_eq_ok loaded
  obtain ⟨_, rfl⟩ := load_eq_ok loadedToo
  simp only [Memory.byte_setBytes]
  split
  · rename_i behind
    rw [agree _ (Nat.add_sub_cancel' behind)]
  · rfl

theorem readsPlainly_of_unread (loaded : load program = .ok fresh)
    (unread : ∀ operation ∈ program.operations, instructionPointerName ∉ operation.readNames)
    (bound : Nat) : fresh.ReadsPlainly bound := by
  intro count machine operation _ reached found reads
  obtain ⟨same, _⟩ := steps_framed (small_of_load loaded) reached
  have here : fresh.program = program := by rw [(load_eq_ok loaded).2]
  refine absurd reads (unread operation ?_)
  unfold Machine.operation at found
  simp only [same, here] at found
  split at found
  · split at found
    · rename_i listed
      rw [Except.ok.injEq] at found
      exact found ▸ Array.mem_of_getElem? listed
    · simp at found
  · simp at found

theorem twins_of_load (loaded : load program = .ok fresh)
    (loadedToo : load { program with input := input } = .ok other)
    (length : input.length = program.input.length) :
    fresh.Twins other program.inputBuffer
      fun address => fresh.memory.byte address ≠ other.memory.byte address := by
  refine ⟨⟨?_, ?_, ?_, ?_, fun _ => Classical.not_not.mp⟩, fun address different => ?_,
    small_of_load loaded⟩
  · rw [(load_eq_ok loaded).2, (load_eq_ok loadedToo).2]
  · rw [(load_eq_ok loaded).2, (load_eq_ok loadedToo).2]
  · rw [(load_eq_ok loaded).2, (load_eq_ok loadedToo).2]
  · simp [(load_eq_ok loaded).2, (load_eq_ok loadedToo).2]
  · refine Classical.not_not.mp fun outside => different (byte_of_load loaded loadedToo ?_)
    rintro index rfl
    have beyond : program.input.length ≤ index := Nat.le_of_not_lt fun within =>
      outside ((InputBuffer.contains_iff _ _).mpr ⟨Nat.le_add_right _ _, Nat.add_lt_add_left within _⟩)
    rw [List.getElem?_eq_none beyond, List.getElem?_eq_none (length ▸ beyond)]

end Machine

def Judgement.fact (fact : Branch → Prop) : Judgement :=
  ⟨fact, fact, fun _ _ => True, fun _ _ => True⟩

theorem Judgement.archived_of_retires {fact : Branch → Prop}
    (stable : ∀ {old new : Branch}, old.Retains new → fact old → fact new) (branch : Branch)
    (retires : (Judgement.fact fact).Retires branch) : (Judgement.fact fact).archived branch := by
  obtain ⟨old, holds, _, rfl⟩ := retires
  have retained : old.Retains { old with candidates := ∅ } := ⟨rfl, rfl, rfl, rfl⟩
  exact stable retained holds

theorem Judgement.fact_upheld {fact : Branch → Prop}
    (stable : ∀ {old new : Branch}, old.Retains new → fact old → fact new) (recording : Recording)
    (config : Config) (departs : Resolution → Prop) :
    (Judgement.fact fact).Upheld recording config departs := by
  constructor
  case explored => exact stable ⟨rfl, rfl, rfl, rfl⟩
  case exploredLater => exact stable ⟨rfl, rfl, rfl, rfl⟩
  case dropped => exact fun _ => stable ⟨rfl, rfl, rfl, rfl⟩
  case failed =>
    intro _ branch resolution _ holds _ _ _ _
    have dropped : branch.Retains (branch.withoutCandidate resolution.checkpoint) :=
      ⟨rfl, rfl, rfl, rfl⟩
    exact stable (Branch.retains_bypass _) (stable dropped holds)
  case flipped => exact fun {branch _} holds _ _ _ => stable (branch.retains_resolve _) holds
  case credited => exact fun {branch} _ holds _ _ => stable (branch.retains_resolve _) holds
  all_goals
    intros
    exact True.intro

namespace Session

variable {session : Session} {origin : Machine} {executions : List Execution}
  {genuine : Finding → List UInt8 → Prop} {judgement : Judgement}

structure Told (judgement : Judgement) (engine : Engine) : Prop where
  archived : ∀ branch ∈ engine.archive, judgement.archived branch
  current : ∀ {position : Nat} {branch : Branch}, engine.branches[position]? = some branch →
    engine.phase = .tainting ∧ branch.phase = engine.phaseNumber ∨ judgement.current branch

theorem Told.congr {before after : Engine} (told : Told judgement before)
    (archive : after.archive = before.archive) (branches : after.branches = before.branches)
    (phase : after.phase = before.phase) (phaseNumber : after.phaseNumber = before.phaseNumber) :
    Told judgement after := by
  constructor
  · rw [archive]
    exact told.archived
  · rw [branches, phase, phaseNumber]
    exact told.current

theorem InPhase.told (inPhase : session.InPhase origin executions genuine)
    (judged : session.Judged judgement) : Told judgement session.engine := by
  refine ⟨judged.archived, fun {position branch} found => ?_⟩
  cases inPhase.situation with
  | tainting tainting supported now reached alike =>
      exact Or.inl ⟨tainting.phase, (tainting.branch found).1.phase⟩
  | forwarding forwards now reached alike =>
      exact Or.inr (judged.current forwards.steered.phase found)
  | attempting resolution attempting now reached alike follows =>
      exact Or.inr (judged.current attempting.attempts.steered.phase found)

theorem Told.proceed {engine : Engine} (told : Told judgement engine) (memory : Memory)
    (writes : List MemoryRange) : Told judgement (engine.proceed memory writes).engine := by
  obtain ⟨checkpoints, ⟨_, done⟩ | ⟨access, failed⟩⟩ := engine.proceed_proceeded memory writes
  · rw [done]
    exact told.congr rfl rfl rfl rfl
  · rw [failed]
    exact told.congr rfl rfl rfl rfl

theorem Told.recordBranch {engine : Engine} (told : Told judgement engine)
    (tainting : engine.phase = .tainting) (address : Nat) (taken : Bool) :
    Told judgement (engine.recordBranch address taken) := by
  refine ⟨told.archived, fun {position branch} found => ?_⟩
  simp only [Engine.recordBranch, Engine.setBranch, Std.ExtTreeMap.getElem?_insert] at found
  split at found
  · have shape := (Option.some.inj found).symm
    subst shape
    refine Or.inl ⟨tainting, ?_⟩
    cases taken <;> rfl
  · exact told.current found

end Session

theorem Resumes.told {decision : Decision} {after : Engine} {changed : Memory}
    {judgement : Judgement} (resumes : Resumes decision after changed)
    (upholds : decision.Upholds judgement)
    (retired : ∀ branch, judgement.Retires branch → judgement.archived branch) :
    Session.Told judgement after := by
  have records := upholds.records
  cases resumes with
  | attempt resolution order branches archive active =>
      exact ⟨archive ▸ records.archived, fun found => Or.inr (records.current (branches ▸ found))⟩
  | restore id order branches archive =>
      exact ⟨archive ▸ records.archived, fun found => Or.inr (records.current (branches ▸ found))⟩
  | restart seed order branches archive =>
      refine ⟨fun branch member => ?_, fun found => by simp [branches] at found⟩
      exact (upholds.archived_of_restart order archive branch member).elim id (retired branch)

namespace Session

variable {session : Session} {origin : Machine} {executions : List Execution}
  {genuine : Finding → List UInt8 → Prop} {judgement : Judgement}

theorem InPhase.told_react (inPhase : session.InPhase origin executions genuine)
    (learns : session.Learns origin genuine) (judged : session.Judged judgement)
    (upheld : judgement.Upheld session.engine.recording session.engine.config
      (session.Departs origin))
    (retired : ∀ branch, judgement.Retires branch → judgement.archived branch)
    (surveyed : session.engine.phase = .tainting → ∀ {position : Nat} {branch : Branch},
      Engine.FromSurvey session.engine.graph session.engine.branches session.engine.position position
        branch → judgement.current branch) : Told judgement session.react.1.engine := by
  have told := inPhase.told judged
  have decided := inPhase.decided learns
  rw [react_eq]
  generalize decides : session.decision = decision at decided ⊢
  cases decided with
  | invalid fault failed => exact told
  | escapes access => exact told
  | record instruction execution decoded foreseen running tainting supported now reached alike =>
      have entered := Engine.enter_entered
        (session.engine.recordInstruction execution session.machine.processor) session.machine.memory
        instruction execution
      simp only [behind, Decision.carryOut]
      generalize Engine.enter _ _ _ _ = reaction at entered ⊢
      cases entered with
      | unreadable checkpoints access => exact told.congr rfl rfl rfl rfl
      | undecided engine memory isBranch missing =>
          exact absurd missing (Machine.taken_of_isBranch decoded foreseen isBranch)
      | plain checkpoints logged notBranch => exact told.congr rfl rfl rfl rfl
      | branch checkpoints logged taken outcome =>
          apply Told.recordBranch
          · exact told.congr rfl rfl rfl rfl
          · exact tainting.phase
  | follow execution foreseen running approaches forwards now reached alike ahead =>
      refine @Told.proceed judgement session.engine.advanced (told.congr ?_ ?_ ?_ ?_) _ _
      · rw [Engine.advanced_eq]
      · exact Engine.branches_advanced _
      · rw [Engine.advanced_eq]
      · rw [Engine.advanced_eq]
  | attempt execution foreseen running resolution attempting now reached alike follows ahead =>
      refine @Told.proceed judgement { session.engine with position := session.engine.position + 1 }
        ?_ _ _
      exact told.congr rfl rfl rfl rfl
  | takesBack engine decision approaches takesBack =>
      have upholds := inPhase.upholds judged upheld surveyed decides takesBack
      have returns := inPhase.returns approaches takesBack
      simp only [behind]
      generalize done : decision.carryOut session.machine.memory = reaction at returns ⊢
      cases returns with
      | ended after finished supported =>
          have stops := Decision.carryOut_stops done
          refine ⟨stops.archive ▸ upholds.records.archived, fun {position branch} found => ?_⟩
          rw [stops.branches] at found
          exact Or.inr (upholds.records.current found)
      | _ => exact (Decision.carryOut_resumes done).told upholds retired

variable {config : Config} {drawn : Random} {program : Program} {first start : Session}
  {stepLimit turns begun : Nat}

theorem Since.of_first (launched : launch config program drawn = .ok first)
    (since : Since program first stepLimit turns session begun start executions)
    (number : session.engine.phaseNumber = 0) :
    start = first ∧ session.engine.basePosition = 0 := by
  obtain ⟨machine, baseInput, text, _, shape⟩ := launch_eq_ok launched
  have starts : first.StartsPhase 0 := by
    rw [shape]
    exact ⟨rfl, rfl, rfl⟩
  have reached : first.afterTurns stepLimit 0 = some first := rfl
  have same := startsPhase_unique launched reached starts since.reached (number ▸ since.starts)
  have there := since.reached
  rw [same, reached, Option.some.injEq] at there
  refine ⟨there.symm, ?_⟩
  rw [← since.base, ← there, shape]
  rfl

theorem flowsInto_of_afterTurns (launched : launch config program drawn = .ok first)
    (here : first.afterTurns stepLimit turns = some session)
    (phase : session.engine.phase = .tainting) (number : session.engine.phaseNumber = 0) :
    first.machine.FlowsInto program.inputBuffer session.engine.trace.size session.engine.graph := by
  induction turns generalizing session with
  | zero =>
      rw [afterTurns, Option.some.injEq] at here
      subst here
      obtain ⟨machine, baseInput, text, _, rfl⟩ := launch_eq_ok launched
      exact .start
  | succ turns ih =>
      obtain ⟨before, known, done⟩ := afterTurns_succ here
      obtain ⟨_, start, executions, since⟩ := since_of_afterTurns launched known
      cases since.inPhase.moves (since.learns known) done with
      | steps proceeds stepped =>
          cases proceeds with
          | records instruction execution decoded foreseen tainting now reached alike allows entered =>
              obtain ⟨_, recording, _⟩ := tainting.enter entered
              have numberToo : before.engine.phaseNumber = 0 :=
                (congrArg Recording.phaseNumber recording).symm.trans number
              have trace : session.engine.trace = before.engine.trace.push execution.address :=
                congrArg Recording.trace recording
              have size : before.engine.trace.size = before.engine.basePosition + executions.length :=
                tainting.describes.traceSize
              obtain ⟨rfl, base⟩ := since.of_first launched numberToo
              have flows := ih known tainting.phase numberToo
              obtain ⟨operation, found, rfl⟩ := Machine.decode_eq_ok decoded
              obtain ⟨_, foundToo, rfl⟩ := Machine.execution_eq_ok foreseen
              rw [found, Except.ok.injEq] at foundToo
              subst foundToo
              have flowsToo := flows.along
                (show start.machine.steps before.engine.trace.size = .ok now by
                  rw [size, base, Nat.zero_add]
                  exact reached)
                (alike.operation ▸ found)
              have place : (before.engine.recordInstruction
                  (Machine.foresee before.machine.processor operation)
                  before.machine.processor).position = before.engine.trace.size + 1 := by
                rw [← tainting.position]
                rfl
              rw [trace, Array.size_push, Engine.entered_graph entered, place]
              rw [Machine.instructionPointer, ← alike.processor] at flowsToo
              exact flowsToo
          | replays execution foreseen rollbacking ahead traced checkpoints engine recording =>
              simp [engine, rollbacking] at phase
      | returns engine decision decides approaches takesBack memory processor done machine =>
          have returns := since.inPhase.returns approaches takesBack
          rw [done] at returns
          cases returns with
          | attempting index machine _ _ wentBack same _ _ _ _ _ _ _ attempting =>
              simp [attempting.attempts.steered.phase] at phase
          | forwarding index machine _ _ wentBack same _ _ _ forwards =>
              simp [forwards.steered.phase] at phase
          | tainting index machine _ _ wentBack seed restart restarted tainting =>
              have later := restarted.phaseNumber
              omega

/-- With an input that agrees on what a branch depends on the branch has its recorded outcome, if the run
comes to it along the same addresses. -/
def Settles (origin : Machine) (input : InputBuffer) (branch : Branch) : Prop :=
  ∀ (other : Machine) (differs : Nat → Prop), origin.Twins other input differs →
    (∀ address ∈ branch.inputDependencies, ¬ differs address) →
    origin.Parallel other branch.position → origin.ReadsPlainly branch.position →
    origin.outcome? branch.position = some branch.taken ∧
      other.outcome? branch.position = some branch.taken

theorem Settles.retained {origin : Machine} {input : InputBuffer} {old new : Branch}
    (retains : old.Retains new) (settles : Settles origin input old) :
    Settles origin input new := by
  unfold Settles
  rw [retains.position, retains.taken, retains.inputDependencies]
  exact settles

theorem observed_of_fromSurvey (tainting : session.engine.Tainting executions)
    {last position : Nat} {branch : Branch}
    (surveyed : Engine.FromSurvey session.engine.graph session.engine.branches last position branch) :
    session.engine.recording.Observed executions position branch ∧
      ∀ {address start : Nat}, session.engine.graph.inputImports[address]? = some start →
        session.engine.graph.Influences start position → address ∈ branch.inputDependencies := by
  obtain ⟨attributed, recorded, old, done, known, found, attributes, becomes⟩ :=
    tainting.attributed_of_fromSurvey surveyed
  obtain ⟨observed, _⟩ := tainting.branch known
  constructor
  · rw [becomes.kept, attributes.1]
    exact ⟨observed.key, observed.phase, observed.outcome⟩
  · intro address start imported influences
    rw [becomes.kept]
    exact Flow.Graph.attribution_complete tainting.follows done imported influences old found

theorem InPhase.settles (inPhase : session.InPhase origin executions genuine)
    (tainting : session.engine.Tainting executions) (base : session.engine.basePosition = 0)
    (flows : origin.FlowsInto session.engine.input session.engine.trace.size session.engine.graph)
    {last position : Nat} {branch : Branch}
    (surveyed : Engine.FromSurvey session.engine.graph session.engine.branches last position branch) :
    Settles origin session.engine.input branch := by
  obtain ⟨⟨rfl, _, index, execution, known, place, _, taken⟩, attributed⟩ :=
    observed_of_fromSurvey tainting surveyed
  have size : session.engine.trace.size = session.engine.basePosition + executions.length :=
    tainting.describes.traceSize
  rw [show session.engine.recording.basePosition = 0 from base, Nat.zero_add] at place
  intro other differs twins agree parallel plainly
  obtain ⟨below, _⟩ := List.getElem?_eq_some_iff.mp known
  obtain ⟨left, reached, _, foreseen⟩ := inPhase.performs.each known
  obtain ⟨_, right, there, reachedToo, same⟩ := parallel index (by omega)
  rw [reached, Except.ok.injEq] at there
  subst there
  obtain ⟨operation, found, rfl⟩ := Machine.execution_eq_ok foreseen
  have foundToo : right.operation = .ok operation :=
    (twins.operation reached reachedToo same).1.trans found
  have isBranch : operation.isBranch := by
    cases operation <;> simp_all [Machine.foresee, Execution.plain, Operation.isBranch]
  rw [place] at parallel plainly
  have outcome : (Machine.foresee right.processor operation).taken = some branch.taken := by
    rw [← taken]
    refine (flows.outcome twins (by omega) parallel
      (fun earlier => plainly (Nat.lt_succ_of_lt earlier)) reached reachedToo found
      isBranch).resolve_right ?_
    rintro ⟨address, start, different, imported, _, influences⟩
    exact agree address (attributed imported (place ▸ influences)) different
  rw [place, Machine.outcome?_of_steps reached found, Machine.outcome?_of_steps reachedToo foundToo]
  exact ⟨taken, outcome⟩

theorem surveyed_settles (launched : launch config program drawn = .ok first)
    (here : first.afterTurns stepLimit turns = some session)
    (phase : session.engine.phase = .tainting) {position : Nat} {branch : Branch}
    (surveyed : Engine.FromSurvey session.engine.graph session.engine.branches
      session.engine.position position branch) (number : branch.phase = 0) :
    Settles first.machine program.inputBuffer branch := by
  obtain ⟨_, _, _, since⟩ := since_of_afterTurns launched here
  cases since.inPhase.situation with
  | forwarding forwards => simp [forwards.steered.phase] at phase
  | attempting resolution attempting => simp [attempting.attempts.steered.phase] at phase
  | tainting tainting supported now reached alike =>
      obtain ⟨observed, _⟩ := observed_of_fromSurvey tainting surveyed
      have first_phase : session.engine.phaseNumber = 0 := observed.phase.symm.trans number
      obtain ⟨rfl, base⟩ := since.of_first launched first_phase
      have flows := flowsInto_of_afterTurns launched here phase first_phase
      rw [← since.input] at flows ⊢
      exact since.inPhase.settles tainting base flows surveyed

def settled (first : Session) (input : InputBuffer) : Judgement :=
  .fact fun branch => branch.phase = 0 → Settles first.machine input branch

theorem settles_retained {input : InputBuffer} {old new : Branch} (retains : old.Retains new)
    (settles : old.phase = 0 → Settles first.machine input old) (number : new.phase = 0) :
    Settles first.machine input new :=
  (settles (retains.phase ▸ number)).retained retains

theorem settled_upheld (input : InputBuffer) (recording : Recording) (config : Config)
    (departs : Resolution → Prop) : (settled first input).Upheld recording config departs :=
  Judgement.fact_upheld settles_retained recording config departs

theorem settled_of_retires (input : InputBuffer) (branch : Branch)
    (retires : (settled first input).Retires branch) : (settled first input).archived branch :=
  Judgement.archived_of_retires settles_retained branch retires

theorem judged_settled (launched : launch config program drawn = .ok first)
    (here : first.afterTurns stepLimit turns = some session) :
    session.Judged (settled first program.inputBuffer) := by
  induction turns generalizing session with
  | zero =>
      rw [afterTurns, Option.some.injEq] at here
      subst here
      obtain ⟨machine, baseInput, text, _, rfl⟩ := launch_eq_ok launched
      exact .of_tainting rfl (by simp [Engine.inform, Engine.note, Engine.initial])
  | succ turns ih =>
      obtain ⟨before, known, done⟩ := afterTurns_succ here
      obtain ⟨_, origin, _, since⟩ := since_of_afterTurns launched known
      have succeeds := since.inPhase.judged_next (ih known) (settled_upheld _ _ _ _)
        (fun phase _ _ surveyed number => surveyed_settles launched known phase surveyed number)
        (since.inPhase.moves (since.learns known) done)
      exact succeeds.judged (settled_of_retires _)

/-- No dependency is missed, unless the register that the graph takes for the instruction pointer hides it.
With any input that agrees with the first one on what a record depends on, the branch has the recorded
outcome, if the run comes to it along the same addresses and does not read this register behind a
conditional branch before it is changed. -/
theorem outcome_of_dependencies (launched : launch config program drawn = .ok first)
    (here : first.afterTurns stepLimit turns = some session) {engine : Engine}
    (current : engine = session.engine ∨ engine = session.react.1.engine) {branch : Branch}
    (member : branch ∈ engine.archive ++ engine.branches.inTraceOrder) (number : branch.phase = 0)
    (attributed : ¬ (engine.phase = .tainting ∧ engine.phaseNumber = 0)) {input : List UInt8}
    (length : input.length = program.input.length)
    (agree : ∀ index, program.inputAddress.toNat + index ∈ branch.inputDependencies →
      input[index]? = program.input[index]?)
    {fresh other : Machine} (loaded : Machine.load program = .ok fresh)
    (loadedToo : Machine.load { program with input := input } = .ok other)
    (parallel : fresh.Parallel other branch.position)
    (plainly : fresh.ReadsPlainly branch.position) :
    fresh.outcome? branch.position = some branch.taken ∧
      other.outcome? branch.position = some branch.taken := by
  obtain ⟨machine, baseInput, text, loadedFirst, shape⟩ := launch_eq_ok launched
  rw [loaded, Except.ok.injEq] at loadedFirst
  have started : first.machine = fresh := by rw [shape, loadedFirst]
  obtain ⟨_, origin, _, since⟩ := since_of_afterTurns launched here
  have judged := judged_settled launched here
  have told : Told (settled first program.inputBuffer) engine := by
    rcases current with rfl | rfl
    · exact since.inPhase.told judged
    · exact since.inPhase.told_react (since.learns here) judged (settled_upheld _ _ _ _)
        (settled_of_retires _)
        fun phase _ _ surveyed number => surveyed_settles launched here phase surveyed number
  have settles : Settles fresh program.inputBuffer branch := by
    rw [← started]
    rcases List.mem_append.mp member with old | listed
    · exact told.archived branch old number
    · obtain ⟨position, found⟩ := Flow.Branches.exists_of_mem listed
      rcases told.current found with ⟨tainting, same⟩ | settles
      · exact absurd ⟨tainting, same.symm.trans number⟩ attributed
      · exact settles number
  have twins := Machine.twins_of_load loaded loadedToo length
  refine settles other _ twins (fun address depends different => different ?_) parallel plainly
  exact Machine.byte_of_load loaded loadedToo fun index same => agree index (same ▸ depends)

def leavesRecord (session : Session) (position : Nat) (dependencies : List Nat) : Bool :=
  session.react.1.engine.phase = .finished &&
    session.react.1.engine.branches.inTraceOrder.any fun branch =>
      branch.phase = 0 && branch.position = position &&
        branch.inputDependencies.toList = dependencies

theorem exists_of_leavesRecord {position : Nat} {dependencies : List Nat}
    (leaves : session.leavesRecord position dependencies) :
    session.react.1.engine.phase = .finished ∧
      ∃ branch ∈ session.react.1.engine.branches.inTraceOrder, branch.phase = 0 ∧
        branch.position = position ∧ branch.inputDependencies.toList = dependencies := by
  simpa [leavesRecord, and_assoc] using leaves

def checksFirst : Program where
  operations := #[.loadByte "a" 0, .compareImmediate "a" 0, .jumpIfEqual 4, .halt, .halt]
  inputAddress := 0
  input := [0, 0]
  memorySize := 2

theorem outcome_of_dependencies_checksFirst :
    ∃ first session branch fresh other,
      launch { Config.seeded 7 with traceLimit := 3 } checksFirst = .ok first ∧
      first.afterTurns 100 3 = some session ∧
      branch ∈ session.react.1.engine.branches.inTraceOrder ∧ branch.position = 3 ∧
      Machine.load checksFirst = .ok fresh ∧
      Machine.load { checksFirst with input := [0, 1] } = .ok other ∧
      fresh.outcome? 3 = some branch.taken ∧ other.outcome? 3 = some branch.taken := by
  have runs : ((launch { Config.seeded 7 with traceLimit := 3 } checksFirst).toOption.any fun first =>
      (first.afterTurns 100 3).any fun session => session.leavesRecord 3 [0]) = true := by
    decide +kernel
  have loads : ((Machine.load checksFirst).toOption.any fun fresh =>
      (Machine.load { checksFirst with input := [0, 1] }).toOption.any fun other =>
        fresh.Parallel other 3) = true := by
    decide +kernel
  simp only [Option.any_eq_true, toOption_eq_some_iff, decide_eq_true_eq] at runs loads
  obtain ⟨first, launched, session, here, leaves⟩ := runs
  obtain ⟨fresh, loaded, other, loadedToo, parallel⟩ := loads
  obtain ⟨finished, branch, listed, number, position, dependencies⟩ := exists_of_leavesRecord leaves
  have length : ([0, 1] : List UInt8).length = checksFirst.input.length := rfl
  have agree : ∀ index, checksFirst.inputAddress.toNat + index ∈ branch.inputDependencies →
      ([0, 1] : List UInt8)[index]? = checksFirst.input[index]? := by
    intro index depends
    have only : index = 0 := by
      simpa [← Std.ExtTreeSet.mem_toList, dependencies, checksFirst] using depends
    subst only
    rfl
  have settles := outcome_of_dependencies launched here (Or.inr rfl)
    (List.mem_append_right _ listed) number (by simp [finished]) length agree loaded loadedToo
    (position ▸ parallel) (Machine.readsPlainly_of_unread loaded (by decide) _)
  rw [position] at settles
  exact ⟨first, session, branch, fresh, other, launched, here, listed, position, loaded, loadedToo,
    settles⟩

/-- A program that keeps its input byte in the register that the graph takes for the instruction pointer.
The first branch rebinds it, so that the second one is not told to depend on the input. -/
def borrowsPointer : Program where
  operations := #[.loadByte "ip" 16, .compareImmediate "x" 1, .jumpIfEqual 3,
    .compareImmediate "ip" 7, .jumpIfEqual 6, .halt, .halt]
  inputAddress := 16
  input := [7]
  memorySize := 32

theorem exists_missed_dependency :
    ∃ first session branch fresh other, launch (.seeded 7) borrowsPointer = .ok first ∧
      first.afterTurns 100 6 = some session ∧ session.react.1.engine.phase = .finished ∧
      branch ∈ session.react.1.engine.branches.inTraceOrder ∧ branch.phase = 0 ∧
      branch.position = 5 ∧ branch.inputDependencies = ∅ ∧
      Machine.load borrowsPointer = .ok fresh ∧
      Machine.load { borrowsPointer with input := [0] } = .ok other ∧ fresh.Parallel other 5 ∧
      fresh.outcome? 5 = some true ∧ other.outcome? 5 = some false := by
  have runs : ((launch (.seeded 7) borrowsPointer).toOption.any fun first =>
      (first.afterTurns 100 6).any fun session => session.leavesRecord 5 []) = true := by
    decide +kernel
  have loads : ((Machine.load borrowsPointer).toOption.any fun fresh =>
      (Machine.load { borrowsPointer with input := [0] }).toOption.any fun other =>
        fresh.Parallel other 5 && fresh.outcome? 5 = some true &&
          other.outcome? 5 = some false) = true := by
    decide +kernel
  simp only [Option.any_eq_true, Bool.and_eq_true, toOption_eq_some_iff,
    decide_eq_true_eq] at runs loads
  obtain ⟨first, launched, session, here, leaves⟩ := runs
  obtain ⟨fresh, loaded, other, loadedToo, ⟨parallel, taken⟩, notTaken⟩ := loads
  obtain ⟨finished, branch, listed, number, position, dependencies⟩ := exists_of_leavesRecord leaves
  exact ⟨first, session, branch, fresh, other, launched, here, finished, listed, number, position,
    Std.ExtTreeSet.toList_eq_nil_iff.mp dependencies, loaded, loadedToo, parallel, taken, notTaken⟩

end Session

end BranchSteer
