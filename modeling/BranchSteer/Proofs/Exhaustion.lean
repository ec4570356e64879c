import BranchSteer.Proofs.FreshRuns
import BranchSteer.Proofs.SingleBytes

/-!
What a completed run tells of a branch that depends on a single byte. It is resolved exactly if another
value of the byte flips it, whatever the order in which the values were tried, and otherwise bypassed.
-/

namespace BranchSteer

namespace Machine

variable {origin : Machine} {base position : Nat} {addresses other : Array Nat}

def withByte (machine : Machine) (address : Nat) (value : UInt8) : Machine :=
  { machine with memory := machine.memory.setByte address value }

theorem Departs.congr (same : ∀ place ≤ position, other[place]? = addresses[place]?)
    (departs : origin.Departs base addresses position) : origin.Departs base other position := by
  obtain ⟨follows, machine, operation, reached, running, found, elsewhere⟩ := departs
  refine ⟨fun index below => ?_, machine, operation, reached, running, found, ?_⟩
  · obtain ⟨earlier, there, on, traced⟩ := follows index below
    exact ⟨earlier, there, on, (same _ (Nat.le_of_lt below)).trans traced⟩
  · rw [same _ (Nat.le_refl _)]
    exact elsewhere

end Machine

theorem Recording.withInput_changed {recording : Recording} {origin : Machine} {address : Nat}
    (holds : origin.memory.Holds recording.input.address recording.baseInput)
    (length : recording.baseInput.length = recording.input.length)
    (inside : recording.input.contains address) (value : UInt8) :
    origin.withInput recording.input recording.baseInput (recording.changed address value) =
      origin.withByte address value := by
  have bounds := (InputBuffer.contains_iff _ _).mp inside
  obtain ⟨size, byte⟩ := Memory.overwrite_spec
    (show (recording.changed address value).length = recording.baseInput.length from
      List.length_set) holds
  refine congrArg (fun memory => { origin with memory := memory }) (Memory.ext_byte ?_ fun other => ?_)
  · rw [size, Memory.size_setByte]
  · rw [byte, Memory.byte_setByte]
    by_cases here : other = address
    · subst here
      have known : (recording.changed other value)[other - recording.input.address]? = some value :=
        List.getElem?_set_self (by omega)
      rw [if_pos bounds.1, known, if_pos rfl, Option.getD_some]
    · rw [if_neg here]
      split
      · rename_i behind
        have apart : address - recording.input.address ≠ other - recording.input.address := by omega
        rw [Recording.changed, List.getElem?_set_ne apart]
        cases known : recording.baseInput[other - recording.input.address]? with
        | none => rfl
        | some own =>
            rw [Option.getD_some, ← holds _ own known, Nat.add_sub_cancel' behind]
      · rfl

namespace Session

variable {session next : Session} {origin : Machine} {executions : List Execution}
  {genuine : Finding → List UInt8 → Prop}

theorem Continues.trace (continues : session.Continues origin executions genuine next) :
    (next.engine.phaseNumber = session.engine.phaseNumber ∧
      ∀ place < session.engine.trace.size,
        next.engine.trace[place]? = session.engine.trace[place]?) ∨
      next.engine.phaseNumber = session.engine.phaseNumber + 1 := by
  cases continues with
  | recorded execution tainting now reached alike inPhase phase recording =>
      refine Or.inl ⟨congrArg Recording.phaseNumber recording, fun place below => ?_⟩
      have trace : next.engine.trace = session.engine.trace.push execution.address :=
        congrArg Recording.trace recording
      rw [trace, Array.getElem?_push_lt below, ← Array.getElem?_eq_getElem]
  | went inPhase phase recording =>
      refine Or.inl ⟨Engine.phaseNumber_of_recording recording, fun place _ => ?_⟩
      rw [Engine.trace_of_recording recording]
  | restarted inPhase phase starts => exact Or.inr starts.phaseNumber

variable {config : Config} {drawn : Random} {program : Program} {first start after : Session}
  {stepLimit begun turns others : Nat}

theorem trace_later (launched : launch config program drawn = .ok first)
    (here : first.afterTurns stepLimit turns = some session) (bound : turns ≤ others)
    (there : first.afterTurns stepLimit others = some after) :
    session.engine.phaseNumber ≤ after.engine.phaseNumber ∧
      (after.engine.phaseNumber = session.engine.phaseNumber →
        ∀ place < session.engine.trace.size,
          after.engine.trace[place]? = session.engine.trace[place]?) := by
  induction bound generalizing after with
  | refl =>
      rw [here, Option.some.injEq] at there
      subst there
      exact ⟨Nat.le_refl _, fun _ _ _ => rfl⟩
  | @step others bound ih =>
      obtain ⟨before, known, done⟩ := afterTurns_succ there
      obtain ⟨reached, same⟩ := ih known
      obtain ⟨_, origin, _, since⟩ := since_of_afterTurns launched known
      have turned := since.inPhase.turn (since.learns known) stepLimit
      rw [done] at turned
      cases turned with
      | running _ within engine ticks continues =>
          rcases continues.trace with ⟨number, kept⟩ | number
          · refine ⟨number ▸ reached, fun equal place below => ?_⟩
            have traced := same (number.symm.trans equal) place below
            have inside : place < before.engine.trace.size := by
              rw [Array.getElem?_eq_getElem below] at traced
              exact (Array.getElem?_eq_some_iff.mp traced).1
            rw [kept place inside, traced]
          · exact ⟨by omega, fun equal => by omega⟩

/-- The outcome of the search at a branch, as far as the phase has been traced in the first turns of a
run. -/
def Searched (first : Session) (stepLimit turns : Nat) (branch : Branch) : Prop :=
  ∀ address, branch.inputDependencies = {address} →
    ∃ begun start, first.afterTurns stepLimit begun = some start ∧ start.StartsPhase branch.phase ∧
      start.engine.input.contains address ∧
      ∀ turn recorded, turn ≤ turns → first.afterTurns stepLimit turn = some recorded →
        recorded.engine.phaseNumber = branch.phase →
        branch.position < recorded.engine.trace.size →
        (branch.isResolved ↔ ∃ value, start.engine.recording.Differs address value ∧
          (start.machine.withByte address value).Departs start.engine.basePosition
            recorded.engine.trace branch.position) ∧
        (¬ branch.isResolved → branch.isBypassed)

def Past (first : Session) (stepLimit turns phaseNumber : Nat) (branch : Branch) : Prop :=
  (∀ address, branch.inputDependencies = {address} → branch.phase < phaseNumber) ∧
    first.Searched stepLimit turns branch

theorem Past.extended {phaseNumber : Nat} {branch : Branch}
    (past : first.Past stepLimit turns phaseNumber branch)
    (there : first.afterTurns stepLimit (turns + 1) = some next)
    (upTo : phaseNumber ≤ next.engine.phaseNumber) :
    first.Past stepLimit (turns + 1) next.engine.phaseNumber branch := by
  obtain ⟨precedes, searched⟩ := past
  refine ⟨fun address single => Nat.lt_of_lt_of_le (precedes address single) upTo, fun address single => ?_⟩
  obtain ⟨begun, start, reached, starts, inside, outcome⟩ := searched address single
  refine ⟨begun, start, reached, starts, inside, fun turn recorded bound known number => ?_⟩
  rcases Nat.lt_or_eq_of_le bound with earlier | rfl
  · exact outcome turn recorded (Nat.le_of_lt_succ earlier) known number
  · rw [there, Option.some.injEq] at known
    subst known
    have before := precedes address single
    omega

theorem Since.searched (launched : launch config program drawn = .ok first)
    (since : Since program first stepLimit turns session begun start executions)
    (here : first.afterTurns stepLimit turns = some session) {branch : Branch}
    (searches : ∀ address, branch.inputDependencies = {address} →
      session.engine.recording.Searches start.machine address branch)
    (closed : ¬ branch.isOpen) : first.Searched stepLimit turns branch := by
  intro address single
  have known := searches address single
  have phase : session.engine.phaseNumber = branch.phase := known.phase.symm
  refine ⟨begun, start, since.reached, phase ▸ since.starts, since.startInput ▸ known.inside,
    fun turn recorded bound there number place => ?_⟩
  have traced := (trace_later launched there bound here).2 (phase.trans number.symm)
  have size : branch.position < session.engine.trace.size := by
    have last := traced _ place
    rw [Array.getElem?_eq_getElem place] at last
    exact (Array.getElem?_eq_some_iff.mp last).1
  have leaves : ∀ value, session.engine.recording.Leaves start.machine address branch.position value ↔
      (start.machine.withByte address value).Departs start.engine.basePosition
        recorded.engine.trace branch.position := by
    intro value
    rw [Recording.Leaves, Recording.withInput_changed since.inPhase.holds
      since.inPhase.describes.inputLength known.inside, since.base]
    constructor
    · exact Machine.Departs.congr fun other upTo => (traced other (by omega)).symm
    · exact Machine.Departs.congr fun other upTo => traced other (by omega)
  have differs : session.engine.recording.Differs address = start.engine.recording.Differs address := by
    funext value
    simp only [Recording.Differs, Engine.recording, since.baseInput, since.startInput]
  have decided : ¬ branch.isResolved → branch.isBypassed := by
    have undecided := mt (Recording.isOpen_of_single single).mpr closed
    rw [Branch.isUndecided_iff] at undecided
    simpa using undecided
  rw [← differs]
  simp only [← leaves]
  refine ⟨⟨known.resolved, ?_⟩, decided⟩
  rintro ⟨value, other, departs⟩
  refine Classical.not_not.mp fun unresolved => ?_
  exact known.bypassed (decided unresolved) size value other departs

def searching (session first start : Session) (stepLimit turns : Nat) : Judgement :=
  searched session.engine.recording start.machine
    (first.Past stepLimit turns session.engine.phaseNumber)

theorem Since.searching_upheld (enough : 255 ≤ config.attemptLimit)
    (launched : launch config program drawn = .ok first)
    (since : Since program first stepLimit turns session begun start executions) :
    (session.searching first start stepLimit turns).Upheld session.engine.recording
      session.engine.config (session.Departs start.machine) := by
  have sameConfig := since.config.trans (launch_since launched stepLimit).1
  exact searched_upheld (sameConfig ▸ enough) since.inPhase.describes.inputLength fun _ => id

theorem Since.searching_surveyed
    (since : Since program first stepLimit turns session begun start executions)
    (phase : session.engine.phase = .tainting) {position : Nat} {branch : Branch}
    (surveyed : Engine.FromSurvey session.engine.graph session.engine.branches
      session.engine.position position branch) :
    (session.searching first start stepLimit turns).current branch := by
  obtain ⟨tainting, _⟩ := since.inPhase.tainting_of_phase phase
  exact tainting.searches_of_fromSurvey surveyed

theorem judged_searching (enough : 255 ≤ config.attemptLimit)
    (launched : launch config program drawn = .ok first)
    (here : first.afterTurns stepLimit turns = some session) :
    ∃ begun start executions, Since program first stepLimit turns session begun start executions ∧
      session.Judged (session.searching first start stepLimit turns) := by
  induction turns generalizing session with
  | zero =>
      obtain ⟨begun, start, executions, since⟩ := since_of_afterTurns launched here
      refine ⟨begun, start, executions, since, ?_⟩
      rw [afterTurns, Option.some.injEq] at here
      subst here
      obtain ⟨machine, baseInput, text, _, rfl⟩ := launch_eq_ok launched
      exact .of_tainting rfl (by simp [Engine.inform, Engine.note, Engine.initial])
  | succ turns ih =>
      obtain ⟨before, known, done⟩ := afterTurns_succ here
      obtain ⟨begun, start, executions, since, judged⟩ := ih known
      obtain ⟨begunNext, startNext, executionsNext, sinceNext⟩ := since_of_afterTurns launched here
      refine ⟨begunNext, startNext, executionsNext, sinceNext, ?_⟩
      have succeeds := since.inPhase.judged_next judged (since.searching_upheld enough launched)
        since.searching_surveyed (since.inPhase.moves (since.learns known) done)
      cases succeeds with
      | records tainting phaseNumber archived =>
          refine .of_tainting tainting fun branch member => ?_
          exact (archived branch member).extended here (Nat.le_of_eq phaseNumber.symm)
      | resolves recording judged =>
          have phaseNumber := Engine.phaseNumber_of_recording recording
          have same := sinceNext.start_eq launched since.reached (phaseNumber ▸ since.starts)
          rw [searching, recording, same]
          refine ⟨fun branch member => ?_, judged.current, judged.trying⟩
          exact (judged.archived branch member).extended here (Nat.le_of_eq phaseNumber.symm)
      | restarts tainting phaseNumber archived =>
          refine .of_tainting tainting fun branch member => ?_
          have past : first.Past stepLimit turns (before.engine.phaseNumber + 1) branch := by
            rcases archived branch member with ⟨precedes, outcome⟩ | ⟨old, searches, closed, rfl⟩
            · exact ⟨fun address single => Nat.lt_succ_of_lt (precedes address single), outcome⟩
            · have outcome : first.Searched stepLimit turns old :=
                since.searched launched known searches closed
              exact ⟨fun address single =>
                Nat.lt_succ_of_le (Nat.le_of_eq (searches address single).phase), outcome⟩
          exact past.extended here (Nat.le_of_eq phaseNumber.symm)

theorem turns_le_of_ended {last other : Session} {result : Except Fault Unit}
    (here : first.afterTurns stepLimit turns = some session)
    (ended : session.turn stepLimit = .ended last result)
    (there : first.afterTurns stepLimit others = some other) : others ≤ turns := by
  induction others generalizing other with
  | zero => exact Nat.zero_le _
  | succ others ih =>
      obtain ⟨before, known, done⟩ := afterTurns_succ there
      rcases Nat.lt_or_eq_of_le (ih known) with earlier | rfl
      · exact earlier
      · rw [here, Option.some.injEq] at known
        rw [← known, ended] at done
        simp at done

theorem searched_of_completed {last : Session} {branch : Branch}
    (enough : 255 ≤ config.attemptLimit) (launched : launch config program drawn = .ok first)
    (here : first.afterTurns stepLimit turns = some session)
    (ended : session.turn stepLimit = .ended last (.ok ()))
    (within : last.engine.budgetExhausted = false)
    (member : branch ∈ last.engine.archive ++ last.engine.branches.inTraceOrder) :
    first.Searched stepLimit turns branch := by
  obtain ⟨begun, start, executions, since, judged⟩ := judged_searching enough launched here
  have learns := since.learns here
  rcases turn_ended ended with ⟨_, _, failed⟩ | ⟨_, rfl, _, done⟩
  · simp at failed
  · rcases done rfl with stopped | ⟨proceeds, halted⟩
    · obtain ⟨records, closed⟩ := since.inPhase.judged_stopped learns judged
        (since.searching_upheld enough launched) since.searching_surveyed stopped within
      rcases List.mem_append.mp member with old | listed
      · exact (records.archived branch old).2
      · obtain ⟨position, found⟩ := Flow.Branches.exists_of_mem listed
        exact since.searched launched here (records.current found) (closed position branch found)
    · obtain ⟨same, running, _⟩ := since.inPhase.proceeds learns (Prod.ext rfl proceeds)
      rw [same, running] at halted
      simp at halted

/-- The search at a branch with a single byte is exhaustive, whatever the random seed. If a run completes
within its budget, the branch is resolved exactly if another value of this byte makes the state that its
phase started with follow the recorded addresses to the branch and then execute an instruction at another
address than the recorded one. Otherwise it is bypassed. -/
theorem singleByte_resolved_iff (enough : 255 ≤ config.attemptLimit) {machine : Machine}
    {last : Session} (loaded : Machine.load program = .ok machine)
    (ran : (Session.start config machine drawn).run stepLimit = (last, .ok ()))
    (within : last.engine.budgetExhausted = false) {branch : Branch}
    (member : branch ∈ last.engine.archive ++ last.engine.branches.inTraceOrder) {address : Nat}
    (single : branch.inputDependencies = {address}) :
    ∃ first begun start, launch config program drawn = .ok first ∧
      first.afterTurns stepLimit begun = some start ∧ start.StartsPhase branch.phase ∧
      (∀ {other : Nat} {also : Session}, first.afterTurns stepLimit other = some also →
        also.StartsPhase branch.phase → other = begun) ∧
      start.engine.input.contains address ∧
      ∀ {turn : Nat} {recorded : Session}, first.afterTurns stepLimit turn = some recorded →
        recorded.engine.phaseNumber = branch.phase →
        branch.position < recorded.engine.trace.size →
        (branch.isResolved ↔ ∃ value,
          start.engine.baseInput[address - start.engine.input.address]? ≠ some value ∧
          (start.machine.withByte address value).Departs start.engine.basePosition
            recorded.engine.trace branch.position) ∧
        (¬ branch.isResolved → branch.isBypassed) := by
  obtain ⟨first, turns, session, launched, here, ended⟩ := run_ended config drawn stepLimit loaded
  rw [ran] at ended
  have searched := searched_of_completed enough launched here ended within member
  obtain ⟨begun, start, reached, starts, inside, outcome⟩ := searched address single
  refine ⟨first, begun, start, launched, reached, starts,
    fun there startsToo => startsPhase_unique launched reached starts there startsToo, inside,
    fun {turn recorded} there number place => ?_⟩
  exact outcome turn recorded (turns_le_of_ended here ended there) there number place

def oneTest : Program where
  operations := #[.loadByte "a" 0, .compareImmediate "a" 0, .jumpIfEqual 4, .halt, .halt]
  inputAddress := 0
  input := [0]
  memorySize := 1

def resolvesTest (ended : Session × Except Fault Unit) : Bool :=
  ended.2.isOk && !ended.1.engine.budgetExhausted &&
    ended.1.engine.branches.inTraceOrder.any fun branch =>
      branch.phase = 0 && branch.position = 3 && branch.inputDependencies.toList = [0] &&
        branch.isResolved

theorem singleByte_resolved_iff_oneTest :
    ∃ (machine : Machine) (last start recorded : Session) (branch : Branch) (value : UInt8),
      Machine.load oneTest = .ok machine ∧
      (Session.start { Config.seeded 7 with phaseLimit := 1 } machine).run 100 = (last, .ok ()) ∧
      last.engine.budgetExhausted = false ∧ branch ∈ last.engine.branches.inTraceOrder ∧
      branch.inputDependencies = {0} ∧ branch.isResolved ∧ start.StartsPhase 0 ∧
      3 < recorded.engine.trace.size ∧ start.engine.baseInput[0]? ≠ some value ∧
      (start.machine.withByte 0 value).Departs start.engine.basePosition recorded.engine.trace 3 := by
  have runs : ((Machine.load oneTest).toOption.any fun machine =>
      resolvesTest ((Session.start { Config.seeded 7 with phaseLimit := 1 } machine).run 100)) = true := by
    decide +kernel
  have records : ((launch { Config.seeded 7 with phaseLimit := 1 } oneTest).toOption.any fun first =>
      (first.afterTurns 100 4).any fun session =>
        session.engine.phaseNumber = 0 && 3 < session.engine.trace.size) = true := by
    decide +kernel
  simp only [Option.any_eq_true, toOption_eq_some_iff, Bool.and_eq_true, decide_eq_true_eq]
    at runs records
  obtain ⟨machine, loaded, resolves⟩ := runs
  obtain ⟨first, launched, recorded, there, number, size⟩ := records
  generalize ran : (Session.start { Config.seeded 7 with phaseLimit := 1 } machine).run 100 = ended
    at resolves
  obtain ⟨last, result⟩ := ended
  cases result with
  | error fault => simp [resolvesTest, Except.isOk, Except.toBool] at resolves
  | ok done =>
      simp only [resolvesTest, Bool.and_eq_true, List.any_eq_true, decide_eq_true_eq,
        Bool.not_eq_true'] at resolves
      obtain ⟨⟨_, within⟩, branch, member, ⟨⟨phase, position⟩, dependencies⟩, resolved⟩ := resolves
      have single : branch.inputDependencies = {0} := by
        apply Std.ExtTreeSet.ext_mem
        intro address
        rw [← Std.ExtTreeSet.mem_toList, dependencies, List.mem_singleton, mem_singleton]
      obtain ⟨other, begun, start, launchedToo, _, starts, _, _, outcome⟩ :=
        singleByte_resolved_iff (by decide) loaded ran within (List.mem_append_right _ member) single
      rw [launched, Except.ok.injEq] at launchedToo
      subst launchedToo
      obtain ⟨value, differs, departs⟩ :=
        (outcome there (number.trans phase.symm) (position ▸ size)).1.mp resolved
      exact ⟨machine, last, start, recorded, branch, value, loaded, ran, within, member, single,
        resolved, phase ▸ starts, size, by simpa using differs, position ▸ departs⟩

end Session

end BranchSteer
