import BranchSteer.Proofs.Deciding
import BranchSteer.Proofs.Schedules

/-!
The search at a branch that depends on a single byte. Every other value of the byte is tried until one
makes the process leave the trace right behind the branch, as long as the attempts at a checkpoint are not
limited to fewer than there are values.
-/

namespace BranchSteer

open Engine (freshResolution movedResolution)

namespace Recording

def Leaves (recording : Recording) (origin : Machine) (address position : Nat) (value : UInt8) : Prop :=
  (origin.withInput recording.input recording.baseInput (recording.changed address value)).Departs
    recording.basePosition recording.trace position

def Departs (recording : Recording) (origin : Machine) (resolution : Resolution) : Prop :=
  (origin.withInput recording.input recording.baseInput resolution.attemptedInput).Departs
    recording.basePosition recording.trace resolution.branch

/-- What is known of a branch that depends on a single byte. -/
structure Searches (recording : Recording) (origin : Machine) (address : Nat) (branch : Branch) :
    Prop where
  inside : recording.input.contains address
  phase : branch.phase = recording.phaseNumber
  candidate : ∀ {id : Nat} {bytes : Std.ExtTreeSet Nat}, branch.candidates[id]? = some bytes →
    bytes = {address}
  resolved : branch.isResolved → ∃ value, recording.Differs address value ∧
    recording.Leaves origin address branch.position value
  bypassed : branch.isBypassed → branch.position < recording.trace.size → ∀ value,
    recording.Differs address value → ¬ recording.Leaves origin address branch.position value

/-- The attempts at a branch that depends on a single byte. All values but the ones that are left have
failed. -/
structure Trying (recording : Recording) (origin : Machine) (address position : Nat)
    (resolution : Resolution) (left : List UInt8) : Prop where
  branch : resolution.branch = position
  perturbed : resolution.perturbed = {address}
  released : ∀ other ∈ resolution.released, other = address
  count : resolution.attempts + resolution.schedule.length ≤ 255
  differs : ∀ value ∈ left, recording.Differs address value
  failed : ∀ value, recording.Differs address value →
    value ∈ left ∨ ¬ recording.Leaves origin address position value

end Recording

def searched (recording : Recording) (origin : Machine) (archived : Branch → Prop) : Judgement where
  archived := archived
  current branch := ∀ address, branch.inputDependencies = {address} →
    recording.Searches origin address branch
  ready branch resolution := ∀ address, branch.inputDependencies = {address} →
    recording.input.contains address ∧ resolution.schedule ≠ [] ∧
      recording.Trying origin address branch.position resolution resolution.schedule
  trying branch resolution := ∀ address, branch.inputDependencies = {address} →
    recording.input.contains address ∧ ∃ value,
      resolution.attemptedInput = recording.changed address value ∧
      recording.Trying origin address branch.position resolution (value :: resolution.schedule)

namespace Recording

variable {recording : Recording} {origin : Machine} {address : Nat} {branch : Branch}
  {resolution : Resolution} {value : UInt8}

theorem Trying.departs_iff {position : Nat} {left : List UInt8}
    (trying : recording.Trying origin address position resolution left)
    (attempted : resolution.attemptedInput = recording.changed address value) :
    recording.Departs origin resolution ↔ recording.Leaves origin address position value := by
  rw [Departs, Leaves, attempted, trying.branch]

theorem Trying.fails {position : Nat} {left : List UInt8}
    (trying : recording.Trying origin address position resolution (value :: left))
    (attempted : resolution.attemptedInput = recording.changed address value)
    (stays : ¬ recording.Departs origin resolution) :
    recording.Trying origin address position resolution left := by
  have failed := mt (trying.departs_iff attempted).mpr stays
  refine ⟨trying.branch, trying.perturbed, trying.released, trying.count,
    fun other member => trying.differs other (List.mem_cons_of_mem _ member), fun other differs => ?_⟩
  rcases trying.failed other differs with member | stayed
  · rcases List.mem_cons.mp member with rfl | later
    · exact Or.inr failed
    · exact Or.inl later
  · exact Or.inr stayed

theorem Trying.spent {position : Nat} {rest : List UInt8}
    (trying : recording.Trying origin address position resolution resolution.schedule)
    (next : resolution.schedule = value :: rest) (input : List UInt8) :
    recording.Trying origin address position
      { Engine.spent resolution with attemptedInput := input }
      (value :: (Engine.spent resolution).schedule) := by
  have count := trying.count
  have differs := trying.differs
  have failed := trying.failed
  rw [next] at count differs failed
  rw [List.length_cons] at count
  simp only [Engine.spent, next, List.tail_cons]
  refine ⟨trying.branch, trying.perturbed, trying.released, ?_, differs, failed⟩
  simp only
  omega

theorem Trying.exhausted {engine : Engine} {position : Nat} {left : List UInt8}
    (trying : recording.Trying origin address position resolution left)
    (enough : 255 ≤ engine.config.attemptLimit) :
    engine.isExhausted resolution ↔ resolution.schedule = [] := by
  have count := trying.count
  simp only [Engine.isExhausted, trying.perturbed, size_singleton, Bool.or_eq_true,
    decide_eq_true_eq, decide_true, Bool.true_and, List.isEmpty_iff]
  constructor
  · rintro (spent | empty)
    · exact List.eq_nil_of_length_eq_zero (by omega)
    · exact empty
  · exact Or.inr

theorem isOpen_of_single (single : branch.inputDependencies = {address}) :
    branch.isOpen ↔ branch.isUndecided := by
  have depends : branch.dependsOnInput := by
    simp [Branch.dependsOnInput, single]
  simp [Branch.isOpen, depends]

theorem Searches.candidateBytes (searches : recording.Searches origin address branch)
    {checkpoint : Nat} (latest : branch.latestCandidate? = some checkpoint) :
    branch.candidateBytes checkpoint = {address} := by
  rw [Branch.latestCandidate?_eq_maxKey?] at latest
  have found := Std.ExtTreeMap.getElem?_eq_some_getElem (Std.ExtTreeMap.maxKey?_mem latest)
  rw [Branch.candidateBytes, found, Option.getD_some, searches.candidate found]

theorem Searches.eq_of_mem (searches : recording.Searches origin address branch) {checkpoint : Nat}
    {other : Nat} (member : other ∈ branch.candidateBytes checkpoint) : other = address := by
  rw [Branch.candidateBytes] at member
  cases found : branch.candidates[checkpoint]? with
  | none => simp [found] at member
  | some bytes =>
      rw [found, Option.getD_some, searches.candidate found, mem_singleton] at member
      exact member

theorem Searches.released (searches : recording.Searches origin address branch) {position next : Nat}
    {left : List UInt8} (trying : recording.Trying origin address position resolution left) :
    ∀ other ∈ (movedResolution branch resolution next).released, other = address := by
  intro other member
  rw [movedResolution, Std.ExtTreeSet.mem_insertMany_list, List.contains_iff_mem,
    Std.ExtTreeSet.mem_toList] at member
  rcases member with given | own
  · exact trying.released other given
  · exact searches.eq_of_mem own

theorem Searches.withoutCandidate (searches : recording.Searches origin address branch) (id : Nat) :
    recording.Searches origin address (branch.withoutCandidate id) :=
  ⟨searches.inside, searches.phase,
    fun found => searches.candidate (Engine.getElem?_withoutCandidate found), searches.resolved,
    searches.bypassed⟩

theorem Searches.bypass (searches : recording.Searches origin address branch)
    (undecided : branch.isUndecided) (failed : ∀ value, recording.Differs address value →
      ¬ recording.Leaves origin address branch.position value) :
    recording.Searches origin address branch.bypass := by
  rw [Branch.isUndecided_iff] at undecided
  rw [Branch.bypass, if_neg (by simp [undecided])]
  exact ⟨searches.inside, searches.phase, searches.candidate, searches.resolved, fun _ _ => failed⟩

theorem Searches.resolve (searches : recording.Searches origin address branch)
    (undecided : branch.isUndecided) (differs : recording.Differs address value)
    (leaves : recording.Leaves origin address branch.position value) (input : List UInt8) :
    recording.Searches origin address (branch.resolve input) := by
  have retains := branch.retains_resolve input
  have candidates := branch.candidates_resolve input
  obtain ⟨_, unbypassed⟩ := Branch.resolved_resolve undecided input
  refine ⟨searches.inside, retains.phase.trans searches.phase, candidates ▸ searches.candidate,
    fun _ => ⟨value, differs, retains.position ▸ leaves⟩, ?_⟩
  simp [unbypassed]

theorem Searches.prepared {engine : Engine} (same : engine.recording = recording)
    (searches : recording.Searches origin address branch)
    (length : recording.baseInput.length = recording.input.length)
    (target : resolution.branch = branch.position)
    (latest : branch.latestCandidate? = some resolution.checkpoint)
    (released : ∀ other ∈ resolution.released, other = address) :
    (engine.prepare branch resolution).2.schedule ≠ [] ∧
      recording.Trying origin address branch.position (engine.prepare branch resolution).2
        (engine.prepare branch resolution).2.schedule := by
  subst same
  have inside : engine.input.contains address := searches.inside
  have shape : (engine.prepare branch resolution).2 = { resolution with
      perturbed := {address}
      schedule := (engine.makeSchedule {address}).1
      attempts := 0 } := by
    simp only [Engine.prepare,
      Engine.insertMany_released (searches.candidateBytes latest) released]
  have scheduled : ∀ value, engine.recording.Differs address value →
      value ∈ (engine.makeSchedule {address}).1 :=
    fun value => (Engine.mem_makeSchedule inside).mpr
  rw [shape]
  refine ⟨?_, target, rfl, released, ?_, fun value => (Engine.mem_makeSchedule inside).mp,
    fun value differs => Or.inl (scheduled value differs)⟩
  · -- One of two values differs from the one that the byte has.
    by_cases zero : engine.recording.Differs address 0
    · exact List.ne_nil_of_mem (scheduled 0 zero)
    · refine List.ne_nil_of_mem (scheduled 1 ?_)
      rw [Differs, Classical.not_not] at zero
      rw [Differs, zero]
      decide
  · rw [Nat.zero_add]
    exact Nat.le_of_eq (Engine.length_makeSchedule inside length)

end Recording

open Recording

variable {recording : Recording} {origin : Machine} {archived : Branch → Prop} {config : Config}

theorem searched_upheld (enough : 255 ≤ config.attemptLimit)
    (length : recording.baseInput.length = recording.input.length)
    (explored : ∀ branch, archived branch → archived branch.explore) :
    (searched recording origin archived).Upheld recording config (recording.Departs origin) := by
  constructor
  case explored =>
    intro branch searches address single
    have known := searches address single
    exact ⟨known.inside, known.phase, known.candidate, known.resolved, known.bypassed⟩
  case exploredLater => exact fun {branch} => explored branch
  case dropped => exact fun id searches address single => (searches address single).withoutCandidate id
  case begins =>
    intro engine branch position checkpoint same searches isOpen key latest address single
    have known := searches address single
    exact ⟨known.inside, known.prepared same length key.symm latest fun _ member => by
      simp [freshResolution] at member⟩
  case moves =>
    intro engine branch resolution next same searches isOpen trying latest address single
    have known := searches address single
    obtain ⟨inside, value, attempted, tries⟩ := trying address single
    exact ⟨inside, (known.withoutCandidate _).prepared same length tries.branch latest
      (known.released tries)⟩
  case again =>
    intro engine branch resolution same trying stays more address single
    obtain ⟨inside, value, attempted, tries⟩ := trying address single
    have left := tries.fails attempted stays
    exact ⟨inside, mt (tries.exhausted (same ▸ enough)).mpr more, left⟩
  case failed =>
    intro engine branch resolution same searches isOpen trying stays exhausted address single
    rw [(branch.withoutCandidate resolution.checkpoint).retains_bypass.inputDependencies] at single
    obtain ⟨inside, value, attempted, tries⟩ := trying address single
    have left := tries.fails attempted stays
    rw [(tries.exhausted (same ▸ enough)).mp exhausted] at left
    refine ((searches address single).withoutCandidate _).bypass
      ((isOpen_of_single single).mp isOpen) fun value differs => ?_
    exact (left.failed value differs).resolve_left List.not_mem_nil
  case flipped =>
    intro branch resolution searches isOpen trying leaves address single
    rw [(branch.retains_resolve _).inputDependencies] at single
    obtain ⟨inside, value, attempted, tries⟩ := trying address single
    exact (searches address single).resolve ((isOpen_of_single single).mp isOpen)
      (tries.differs value List.mem_cons_self) ((tries.departs_iff attempted).mp leaves) _
  case credited =>
    intro branch input searches closed undecided address single
    rw [(branch.retains_resolve _).inputDependencies] at single
    exact absurd ((isOpen_of_single single).mpr undecided) closed
  case perturbed =>
    intro engine branch resolution memory same ready written address single
    obtain ⟨inside, more, tries⟩ := ready address single
    obtain ⟨value, rest, next⟩ := List.exists_cons_of_ne_nil more
    subst same
    have held := written (Engine.value?_nextPerturbation tries.perturbed next _ _)
    have attempted := Engine.patchInput_singleton inside held
    rw [← tries.perturbed] at attempted
    exact ⟨inside, value, attempted, tries.spent next _⟩

theorem Engine.Tainting.searches_of_fromSurvey {engine : Engine} {executions : List Execution}
    (tainting : engine.Tainting executions) {position : Nat} {branch : Branch}
    (surveyed : FromSurvey engine.graph engine.branches engine.position position branch) :
    (searched engine.recording origin archived).current branch := by
  obtain ⟨_, recorded, old, _, known, _, attributes, becomes⟩ :=
    tainting.attributed_of_fromSurvey surveyed
  obtain ⟨observed, undecided, nothing, none⟩ := tainting.branch known
  have dependencies : branch.inputDependencies = old.inputDependencies := by
    rw [becomes.kept]
  have candidates : old.candidates = ∅ := by
    rw [attributes.1]
    exact none
  rw [Branch.isUndecided_iff] at undecided
  intro address single
  rw [single] at dependencies
  have only : ∀ other, other ∈ old.inputDependencies ↔ other = address := fun other => by
    rw [← dependencies, mem_singleton]
  refine ⟨?_, ?_, fun {id bytes} found => ?_, fun resolved => ?_, fun bypassed inside => ?_⟩
  · obtain ⟨vertex, imported, _⟩ := (attributes.2 address ((only address).mpr rfl)).resolve_left
      (by simp [nothing])
    have inside := (tainting.follows.imports imported).2.1
    rwa [tainting.sameInput] at inside
  · rw [becomes.kept, attributes.1]
    exact observed.phase
  · rcases becomes.part found with listed | ⟨nonempty, part⟩
    · simp [candidates] at listed
    · exact eq_singleton_of_part nonempty fun other member => (only other).mp (part other member)
  · rw [becomes.kept, attributes.1] at resolved
    simp [undecided] at resolved
  · rcases becomes.bypassed bypassed with already | last
    · rw [attributes.1] at already
      simp [undecided] at already
    · have place : branch.position = old.position := by
        rw [becomes.kept]
      have size : engine.position = engine.recording.trace.size := tainting.position
      omega

end BranchSteer
