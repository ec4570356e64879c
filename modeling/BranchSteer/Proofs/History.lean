import BranchSteer.Proofs.Keeping
import BranchSteer.Proofs.Moves

/-!
The records over any calls. A call replaces records by ones that are further, and adds records of the phase
that it finds. A phase starts with an input that the process holds then, and all its records were observed
with this input.
-/

namespace BranchSteer

theorem Flow.Branches.inTraceOrder_insert_last {branches : Flow.Branches} (keyed : Keyed branches)
    {new : Branch} (last : ∀ {position : Nat} {branch : Branch},
      branches[position]? = some branch → position < new.position) :
    inTraceOrder (branches.insert new.position new) = branches.inTraceOrder ++ [new] := by
  have keyedToo : Keyed (branches.insert new.position new) := keyed.insert rfl
  have increasing : (branches.inTraceOrder ++ [new]).Pairwise
      fun first second => first.position < second.position := by
    rw [List.pairwise_append]
    refine ⟨keyed.increasing, List.pairwise_singleton _ _, ?_⟩
    intro branch member other here
    rw [List.mem_singleton.mp here]
    exact last (keyed.getElem?_of_mem member)
  have nodup : (branches.inTraceOrder ++ [new]).Nodup := increasing.imp fun {first second} ordered same => by
    rw [same] at ordered
    exact Nat.lt_irrefl _ ordered
  refine List.Perm.eq_of_pairwise (fun first second _ _ less more => ?_) keyedToo.increasing increasing
    ((List.perm_ext_iff_of_nodup keyedToo.nodup nodup).mpr fun branch => ?_)
  · exact absurd (Nat.lt_trans less more) (Nat.lt_irrefl _)
  · rw [List.mem_append, List.mem_singleton]
    refine ⟨mem_insert, ?_⟩
    rintro (member | rfl)
    · have found := keyed.getElem?_of_mem member
      have different : ¬ new.position = branch.position :=
        fun same => Nat.lt_irrefl _ (same ▸ last found)
      have kept : (branches.insert new.position new)[branch.position]? = some branch := by
        simp only [Std.ExtTreeMap.getElem?_insert, Nat.compare_eq_eq, if_neg different, found]
      exact mem_of_getElem? kept
    · exact mem_of_getElem? Std.ExtTreeMap.getElem?_insert_self

theorem Checkpoint.read_rollback {checkpoint : Checkpoint} {memory : Memory} {input : InputBuffer}
    {seed : List UInt8} {random : Random} {processor : Processor} (length : seed.length = input.length)
    (done : (checkpoint.rollback memory input (.input seed) random).result = .ok processor) :
    (checkpoint.rollback memory input (.input seed) random).memory.read input.address input.length =
      .ok seed := by
  obtain ⟨size, fits, bytes⟩ := rollback_bytes done
  have inside : input.address + seed.length ≤
      (checkpoint.rollback memory input (.input seed) random).memory.size := by
    rw [size, length]
    exact fits ⟨input.address, input.length⟩ (by simp [Perturbation.ranges])
  rw [← length]
  refine Memory.read_eq_of_byte inside fun offset bound => ?_
  have within : input.contains (input.address + offset) := by
    rw [input.contains_iff]
    omega
  rw [bytes, Perturbation.value?_input length random within, Nat.add_sub_cancel_left,
    List.getElem?_eq_getElem bound, Option.getD_some]

namespace Branch

/-- A record that was observed with the input that its phase started with. -/
def ObservedIn (starts : List (Nat × List UInt8)) (record : Branch) : Prop :=
  ∃ input, starts[record.phase]? = some (record.phase, input) ∧
    record.inputLeadingTo record.taken = some input

variable {starts : List (Nat × List UInt8)} {old new : Branch}

theorem ObservedIn.forward (observed : old.ObservedIn starts) (forward : old.Forward new) :
    new.ObservedIn starts := by
  obtain ⟨input, started, known⟩ := observed
  rw [ObservedIn, forward.phase, forward.taken]
  exact ⟨input, started, forward.input known⟩

theorem ObservedIn.append (observed : old.ObservedIn starts) (more : List (Nat × List UInt8)) :
    old.ObservedIn (starts ++ more) := by
  obtain ⟨input, started, known⟩ := observed
  obtain ⟨bound, _⟩ := List.getElem?_eq_some_iff.mp started
  exact ⟨input, by rw [List.getElem?_append_left bound, started], known⟩

end Branch

namespace Engine

variable {engine middle after : Engine} {memory changed : Memory} {reaction : Reaction}

theorem read_rewind {id : Nat} {seed : List UInt8} {processor : Processor}
    (length : seed.length = engine.input.length)
    (done : engine.rewind memory id (.input seed) = ⟨after, changed, .ok (.rollback processor)⟩) :
    changed.read engine.input.address engine.input.length = .ok seed := by
  unfold rewind at done
  split at done
  · simp at done
  · split at done
    · simp at done
    · split at done
      · simp at done
      · simp only at done
        split at done
        · simp at done
        · split at done
          · simp at done
          · rename_i rolledBack
            simp only [Reaction.mk.injEq] at done
            rw [← done.2.1]
            exact Checkpoint.read_rollback length rolledBack

inductive Onward (engine : Engine) : Reaction → Prop
  | kept (after : Engine) (carries : engine.Carries after) (memory : Memory)
    (result : Except Fault Action) : Onward _ ⟨after, memory, result⟩
  | recorded (middle : Engine) (carries : engine.Carries middle) (tainting : middle.phase = .tainting)
    (last : ∀ {position : Nat} {branch : Branch}, middle.branches[position]? = some branch →
      position < middle.position)
    (address : Nat) (taken : Bool) (memory : Memory) (result : Except Fault Action) :
    Onward _ ⟨middle.recordBranch address taken, memory, result⟩
  | cleared (middle : Engine) (carries : engine.Carries middle) (memory : Memory)
    (result : Except Fault Action) : Onward _ ⟨middle.clearPhase, memory, result⟩
  | restarted (middle : Engine) (carries : engine.Carries middle) (seed : List UInt8) (text : String)
    (memory : Memory) (held : memory.read middle.input.address middle.input.length = .ok seed)
    (result : Except Fault Action) : Onward _ ⟨(middle.restarted seed).inform text, memory, result⟩

theorem Carries.onward (carries : engine.Carries middle) (onward : middle.Onward reaction) :
    engine.Onward reaction := by
  cases onward with
  | kept after further memory result => exact .kept _ (carries.trans further) _ _
  | recorded last further tainting fresh address taken memory result =>
      exact .recorded _ (carries.trans further) tainting fresh _ _ _ _
  | cleared last further memory result => exact .cleared _ (carries.trans further) _ _
  | restarted last further seed text memory held result =>
      exact .restarted _ (carries.trans further) _ _ _ held _

theorem carries_ended (sound : engine.Sound) (text : String) (exhausted : Bool) :
    engine.Carries ((engine.inform text).finish exhausted) :=
  (carries_note sound _).trans (carries_finish _ exhausted)

theorem rewind_carries (sound : engine.Sound) (rollbacking : engine.phase = .rollbacking)
    (memory : Memory) (id : Nat) (perturbation : Perturbation) :
    engine.Carries (engine.rewind memory id perturbation).engine := by
  have rewinds := engine.rewind_rewinds memory id perturbation
  generalize engine.rewind memory id perturbation = reaction at rewinds
  cases rewinds with
  | exhausted text => exact carries_ended sound text true
  | failed checkpoints random changed fault =>
      exact .of_frame rfl sound.started (fun tainting => ⟨tainting, Nat.le_refl _⟩) sound.active
  | returned checkpoints random position changed processor =>
      exact .of_frame rfl sound.started (fun tainting => by simp [rollbacking] at tainting)
        sound.active

theorem perturb_onward (sound : engine.Sound) (rollbacking : engine.phase = .rollbacking)
    {resolution : Resolution} (length : resolution.attemptedInput.length = engine.input.length)
    (memory : Memory) : engine.Onward (engine.perturb memory resolution) := by
  have begun := carries_active sound (some (spent resolution)) engine.random (by
    rintro _ ⟨⟩
    exact length)
  have rewound := rewind_carries (begun.sound sound) rollbacking memory resolution.checkpoint
    (nextPerturbation resolution)
  simp only [perturb]
  simp only [spent] at begun rewound
  generalize rewind _ _ _ _ = reaction at rewound ⊢
  have carries := begun.trans rewound
  split
  · refine .kept _ (carries.trans (carries_active (carries.sound sound) _ reaction.engine.random ?_)) _ _
    rintro _ ⟨⟩
    rw [length_patchInput, sound.length, carries.input]
  · exact .kept _ carries _ _

theorem explore_onward (sound : engine.Sound) (rollbacking : engine.phase = .rollbacking)
    {seed : List UInt8} (length : seed.length = engine.input.length) (memory : Memory) :
    engine.Onward (engine.explore memory seed) := by
  unfold explore
  split
  · exact .kept _ (carries_ended sound _ false) _ _
  · have carries := rewind_carries sound rollbacking memory 0 (.input seed)
    cases shape : engine.rewind memory 0 (.input seed) with
    | mk behind changed result =>
        rw [shape] at carries
        simp only
        split
        · have held := read_rewind length shape
          rw [← carries.input] at held
          exact .restarted behind carries seed _ changed held _
        · exact .kept behind carries changed result

theorem proceed_onward (sound : engine.Sound) (memory : Memory) (writes : List MemoryRange) :
    engine.Onward (engine.proceed memory writes) := by
  have logged : ∀ checkpoints : Array Checkpoint,
      engine.Carries { engine with checkpoints := checkpoints } := fun _ =>
    .of_frame rfl sound.started (fun tainting => ⟨tainting, Nat.le_refl _⟩) sound.active
  obtain ⟨checkpoints, ⟨_, done⟩ | ⟨access, failed⟩⟩ := engine.proceed_proceeded memory writes
  · rw [done]
    exact .kept _ (logged checkpoints) _ _
  · rw [failed]
    exact .kept _ (logged checkpoints) _ _

theorem enter_onward (sound : engine.Sound) (tainting : engine.phase = .tainting)
    (last : ∀ {position : Nat} {branch : Branch}, engine.branches[position]? = some branch →
      position < engine.position) (memory : Memory) (instruction : Instruction)
    (execution : Execution) : engine.Onward (engine.enter memory instruction execution) := by
  have logged : ∀ (checkpoints : Array Checkpoint) (graph : Flow.Graph),
      engine.Carries { engine with checkpoints := checkpoints, graph := graph } := fun _ _ =>
    .of_frame rfl sound.started (fun tainting => ⟨tainting, Nat.le_refl _⟩) sound.active
  unfold enter
  rw [logWrites_eq]
  cases logRanges memory execution.writes engine.checkpoints with
  | mk checkpoints failure =>
      cases failure with
      | some fault => exact .kept _ (logged checkpoints engine.graph) _ _
      | none =>
          have grown := logged checkpoints (engine.graph.propagate instruction execution engine.position)
          simp only
          split
          · exact .kept _ grown _ _
          · split
            · exact .kept _ grown _ _
            · exact .recorded _ grown tainting last _ _ _ _

theorem Suits.onward {decision : Decision} (sound : engine.Sound) (suits : engine.Suits decision)
    (memory : Memory) : engine.Onward (decision.carryOut memory) := by
  obtain ⟨carries, fits⟩ := suits
  have soundToo := carries.sound sound
  obtain ⟨decided, order⟩ := decision
  refine carries.onward ?_
  cases order with
  | proceed writes => exact proceed_onward soundToo memory writes
  | record instruction execution => exact enter_onward soundToo fits.1 fits.2 memory _ _
  | attempt resolution => exact perturb_onward soundToo fits.1 fits.2 memory
  | restore id => exact .kept _ (rewind_carries soundToo fits memory id .none) _ _
  | restart seed => exact explore_onward soundToo fits.1 fits.2 memory
  | stop => exact .kept _ (.refl soundToo) _ _
  | fail fault => exact .kept _ (.refl soundToo) _ _

theorem Sound.answer_onward (sound : engine.Sound) (call : Call) :
    engine.Onward (engine.answer call) := by
  obtain ⟨machine, request⟩ := call
  cases request with
  | input buffer =>
      simp only [answer]
      split
      · rename_i after done
        exact absurd (receiveInput_eq_ok done).1 sound.started
      · exact .kept _ (.refl sound) _ _
  | instruction instruction execution =>
      exact (decide_suits sound machine.processor instruction execution).onward sound machine.memory
  | exit => exact (decideExit_suits sound).onward sound machine.memory
  | clear => exact .cleared _ (.refl sound) _ _

def Extends (engine after : Engine) : Prop :=
  ∀ ⦃index : Nat⦄ ⦃record : Branch⦄, engine.history[index]? = some record →
    ∃ later, after.history[index]? = some later ∧ record.Forward later

theorem Extends.trans (one : engine.Extends middle) (two : middle.Extends after) :
    engine.Extends after := by
  intro index record found
  obtain ⟨between, there, first⟩ := one found
  obtain ⟨later, thereToo, second⟩ := two there
  exact ⟨later, thereToo, first.trans second⟩

theorem extends_of_forall₂ {size : Nat} {images added : List Branch}
    (each : List.Forall₂ (Branch.Progress size) engine.history images)
    (grown : after.history = images ++ added) : engine.Extends after := by
  intro index record found
  obtain ⟨later, there, progress⟩ := exists_getElem?_of_forall₂ each found
  obtain ⟨bound, _⟩ := List.getElem?_eq_some_iff.mp there
  exact ⟨later, by rw [grown, List.getElem?_append_left bound, there], progress.toForward⟩

theorem Carries.extends (carries : engine.Carries after) (sound : engine.Sound) :
    engine.Extends after :=
  extends_of_forall₂ (carries.history sound.keyed) (List.append_nil _).symm

/-- The tainting phase that starts in a call, if one does, with the input that the buffer holds then. -/
def start? (engine : Engine) (reaction : Reaction) : Option (Nat × List UInt8) :=
  let after := reaction.engine
  if after.phase = .tainting ∧
      ¬ (engine.phase = .tainting ∧ after.phaseNumber = engine.phaseNumber) then
    (reaction.memory.read after.input.address after.input.length).toOption.map
      fun input => (after.phaseNumber, input)
  else none

structure Documented (engine : Engine) (starts : List (Nat × List UInt8)) : Prop extends Sound engine where
  count : starts.length = engine.phaseNumber + 1
  current : starts[engine.phaseNumber]? = some (engine.phaseNumber, engine.baseInput)
  observed : ∀ record ∈ engine.history, record.ObservedIn starts

variable {starts : List (Nat × List UInt8)}

theorem observed_of_progress {size : Nat} {olds news : List Branch}
    (observed : ∀ record ∈ olds, record.ObservedIn starts)
    (each : List.Forall₂ (Branch.Progress size) olds news) :
    ∀ record ∈ news, record.ObservedIn starts := by
  intro record member
  obtain ⟨old, listed, progress⟩ := exists_of_mem_forall₂ each member
  exact (observed old listed).forward progress.toForward

theorem Carries.documented (carries : engine.Carries after) (documented : engine.Documented starts) :
    after.Documented starts := by
  refine ⟨carries.sound documented.toSound, ?_, ?_,
    observed_of_progress documented.observed (carries.history documented.keyed)⟩
  · rw [carries.phaseNumber, documented.count]
  · rw [carries.phaseNumber, carries.baseInput, documented.current]

theorem Carries.start? (carries : engine.Carries after) {reaction : Reaction}
    (phase : reaction.engine.phase = after.phase)
    (phaseNumber : reaction.engine.phaseNumber = after.phaseNumber) :
    engine.start? reaction = none := by
  apply if_neg
  rintro ⟨tainting, other⟩
  exact other ⟨(carries.tainting (phase.symm.trans tainting)).1,
    phaseNumber.trans carries.phaseNumber⟩

theorem Documented.recordBranch (documented : engine.Documented starts)
    (last : ∀ {position : Nat} {branch : Branch}, engine.branches[position]? = some branch →
      position < engine.position) (address : Nat) (taken : Bool) :
    (engine.recordBranch address taken).Documented starts ∧
      engine.Extends (engine.recordBranch address taken) := by
  generalize record : (Branch.create engine.phaseNumber address engine.position taken).remember taken
    engine.baseInput = new
  have position : new.position = engine.position := by
    rw [← record]
    cases taken <;> rfl
  have fresh : ¬ new.isResolved ∧ new.flippingInput = none := by
    rw [← record]
    cases taken <;> exact ⟨Bool.false_ne_true, rfl⟩
  have known : new.phase = engine.phaseNumber ∧
      new.inputLeadingTo new.taken = some engine.baseInput := by
    rw [← record]
    cases taken <;> exact ⟨rfl, rfl⟩
  have shape : engine.recordBranch address taken = engine.setBranch new := by
    rw [← record]
    rfl
  have grown : (engine.setBranch new).history = engine.history ++ [new] := by
    rw [← position] at last
    simp only [history, setBranch, Flow.Branches.inTraceOrder_insert_last documented.keyed last,
      List.append_assoc]
  rw [shape]
  constructor
  · refine ⟨⟨documented.started, documented.keyed.insert rfl, ?_, documented.length, documented.active,
      ?_⟩, documented.count, documented.current, ?_⟩
    · intro _ place branch found
      simp only [setBranch, Std.ExtTreeMap.getElem?_insert, Nat.compare_eq_eq] at found
      split at found
      · rename_i here
        exact Nat.le_of_eq (here.symm.trans position)
      · exact Nat.le_of_lt (last found)
    · rw [grown, List.forall_mem_append, List.forall_mem_singleton]
      exact ⟨documented.records, fun both => fresh.1 both.1, fun resolved => absurd resolved fresh.1,
        by simp [fresh.2]⟩
    · rw [grown, List.forall_mem_append, List.forall_mem_singleton]
      exact ⟨documented.observed, _, known.1 ▸ documented.current, known.2⟩
  · exact extends_of_forall₂ (forall₂_progress_refl 0 _) grown

theorem forall₂_clearPhase (engine : Engine) (size : Nat) :
    List.Forall₂ (Branch.Progress size) engine.history engine.clearPhase.history := by
  have grown : engine.clearPhase.history = engine.archive ++
      engine.branches.inTraceOrder.map fun branch => { branch with candidates := ∅ } := by
    simp [history, clearPhase, inTraceOrder_empty]
  rw [grown]
  refine List.rel_append (forall₂_progress_refl size _) ?_
  rw [List.forall₂_map_right_iff, List.forall₂_same]
  intro branch _
  exact Branch.progress_of_frame rfl

theorem Sound.clearPhase (sound : engine.Sound) : engine.clearPhase.Sound := by
  refine ⟨sound.started, ?_, ?_, sound.length, by simp [Engine.clearPhase], ?_⟩
  · intro position branch found
    simp [Engine.clearPhase] at found
  · intro _ position branch found
    simp [Engine.clearPhase] at found
  · intro record member
    obtain ⟨old, listed, progress⟩ :=
      exists_of_mem_forall₂ (engine.forall₂_clearPhase engine.input.length) member
    exact progress.known (sound.records old listed)

theorem extends_clearPhase (engine : Engine) : engine.Extends engine.clearPhase :=
  extends_of_forall₂ (engine.forall₂_clearPhase 0) (List.append_nil _).symm

theorem Documented.clearPhase (documented : engine.Documented starts) :
    engine.clearPhase.Documented starts :=
  ⟨documented.toSound.clearPhase, documented.count, documented.current,
    observed_of_progress documented.observed (engine.forall₂_clearPhase 0)⟩

theorem Documented.restarted (documented : engine.Documented starts) {seed : List UInt8}
    (length : seed.length = engine.input.length) (text : String) :
    ((engine.restarted seed).inform text).Documented (starts ++ [(engine.phaseNumber + 1, seed)]) := by
  have cleared := documented.clearPhase
  refine ⟨⟨by simp [Engine.restarted, inform, note], cleared.keyed, ?_, length, cleared.active,
    cleared.records⟩, ?_, ?_, ?_⟩
  · intro _ position branch found
    simp [Engine.restarted, inform, note, Engine.clearPhase] at found
  · rw [List.length_append, documented.count]
    rfl
  · have next : (starts ++ [(engine.phaseNumber + 1, seed)])[engine.phaseNumber + 1]? =
        some (engine.phaseNumber + 1, seed) := by
      rw [← documented.count, List.getElem?_concat_length]
    exact next
  · intro record member
    exact (cleared.observed record member).append _

theorem Onward.documented (onward : engine.Onward reaction) (documented : engine.Documented starts) :
    reaction.engine.Documented (starts ++ (engine.start? reaction).toList) ∧
      engine.Extends reaction.engine := by
  cases onward with
  | kept after carries memory result =>
      rw [carries.start? rfl rfl, Option.toList_none, List.append_nil]
      exact ⟨carries.documented documented, carries.extends documented.toSound⟩
  | recorded middle carries tainting last address taken memory result =>
      rw [carries.start? rfl rfl, Option.toList_none, List.append_nil]
      obtain ⟨recorded, further⟩ := (carries.documented documented).recordBranch last address taken
      exact ⟨recorded, (carries.extends documented.toSound).trans further⟩
  | cleared middle carries memory result =>
      rw [carries.start? rfl rfl, Option.toList_none, List.append_nil]
      exact ⟨(carries.documented documented).clearPhase,
        (carries.extends documented.toSound).trans (extends_clearPhase middle)⟩
  | restarted middle carries seed text memory held result =>
      have begins : engine.start? ⟨(middle.restarted seed).inform text, memory, result⟩ =
          some (middle.phaseNumber + 1, seed) := by
        have later : middle.phaseNumber + 1 ≠ engine.phaseNumber := by
          rw [carries.phaseNumber]
          omega
        simp [Engine.start?, Engine.restarted, inform, note, Engine.clearPhase, later, held,
          Except.toOption]
      have length : seed.length = middle.input.length := by
        rw [← ((Memory.read_eq_ok_iff _ _ _ _).mp held).2]
        simp
      rw [begins]
      exact ⟨(carries.documented documented).restarted length text,
        (carries.extends documented.toSound).trans (extends_clearPhase middle)⟩

structure Blank (engine : Engine) : Prop where
  phase : engine.phase = .capturing
  phaseNumber : engine.phaseNumber = 0
  branches : engine.branches = ∅
  active : engine.active = none
  archive : engine.archive = []

theorem Blank.history (blank : engine.Blank) : engine.history = [] := by
  rw [Engine.history, blank.archive, blank.branches, inTraceOrder_empty, List.append_nil]

theorem Blank.clearPhase (blank : engine.Blank) : engine.clearPhase.Blank := by
  refine ⟨blank.phase, blank.phaseNumber, rfl, rfl, ?_⟩
  simp [Engine.clearPhase, blank.archive, blank.branches, inTraceOrder_empty]

theorem Blank.start? (blank : after.Blank) (engine : Engine) (memory : Memory)
    (result : Except Fault Action) : engine.start? ⟨after, memory, result⟩ = none := by
  simp [Engine.start?, blank.phase]

theorem read_receiveInput {buffer : InputBuffer}
    (done : engine.receiveInput memory buffer = .ok after) :
    memory.read buffer.address buffer.length = .ok after.baseInput := by
  unfold receiveInput at done
  split at done
  · simp at done
  · split at done
    · simp at done
    · split at done
      · simp at done
      · rename_i bytes read
        rw [read, ← Except.ok.inj done]
        rfl

theorem Blank.receiveInput (blank : engine.Blank) {buffer : InputBuffer}
    (done : engine.receiveInput memory buffer = .ok after) (result : Except Fault Action) :
    after.Documented (engine.start? ⟨after, memory, result⟩).toList := by
  have read := read_receiveInput done
  obtain ⟨_, bytes, log, length, rfl⟩ := receiveInput_eq_ok done
  have begins : engine.start? ⟨{ engine with
      baseInput := bytes
      input := buffer
      graph := .empty buffer
      phase := .tainting
      log := log }, memory, result⟩ = some (0, bytes) := by
    simp [Engine.start?, blank.phase, blank.phaseNumber, read, Except.toOption]
  have history := blank.history
  rw [Engine.history] at history
  rw [begins]
  refine ⟨⟨by simp, ?_, ?_, length, by simp [blank.active], ?_⟩, ?_, ?_, ?_⟩
  · intro position branch found
    simp [blank.branches] at found
  · intro _ position branch found
    simp [blank.branches] at found
  · simp [Engine.history, history]
  · simp [blank.phaseNumber]
  · simp [blank.phaseNumber]
  · simp [Engine.history, history]

inductive Chronicled (engine : Engine) (starts : List (Nat × List UInt8)) : Prop
  | waiting (blank : engine.Blank) (nothing : starts = [])
  | started (documented : engine.Documented starts)

theorem Blank.answer (blank : engine.Blank) (call : Call) :
    (engine.answer call).engine.Chronicled
      (engine.start? (engine.answer call)).toList := by
  have waits : ∀ {after : Engine} {memory : Memory} {result : Except Fault Action}, after.Blank →
      after.Chronicled (engine.start? ⟨after, memory, result⟩).toList := by
    intro after memory result same
    exact .waiting same (by rw [same.start?, Option.toList_none])
  obtain ⟨machine, request⟩ := call
  cases request with
  | input buffer =>
      simp only [Engine.answer]
      split
      · rename_i after done
        exact .started (blank.receiveInput done _)
      · exact waits blank
  | instruction instruction execution =>
      simp only [Engine.answer, beforeInstruction, Engine.decide, blank.phase, Decision.carryOut, proceed,
        logWrites]
      exact waits blank
  | exit =>
      simp only [Engine.answer, beforeExit, Engine.decideExit, blank.phase, Decision.carryOut]
      exact waits blank
  | clear => exact waits blank.clearPhase

theorem Chronicled.answer (chronicled : engine.Chronicled starts) (call : Call) :
    (engine.answer call).engine.Chronicled
        (starts ++ (engine.start? (engine.answer call)).toList) ∧
      engine.Extends (engine.answer call).engine := by
  cases chronicled with
  | waiting blank nothing =>
      rw [nothing]
      refine ⟨blank.answer call, ?_⟩
      intro index record found
      simp [blank.history] at found
  | started documented =>
      obtain ⟨further, extended⟩ := (documented.toSound.answer_onward call).documented documented
      exact ⟨.started further, extended⟩

def behind (engine : Engine) : List Call → Engine
  | [] => engine
  | call :: rest => (engine.answer call).engine.behind rest

def phaseStarts (engine : Engine) : List Call → List (Nat × List UInt8)
  | [] => []
  | call :: rest => (engine.start? (engine.answer call)).toList ++
      (engine.answer call).engine.phaseStarts rest

theorem Chronicled.behind (chronicled : engine.Chronicled starts) (calls : List Call) :
    (engine.behind calls).Chronicled (starts ++ engine.phaseStarts calls) ∧
      engine.Extends (engine.behind calls) := by
  induction calls generalizing engine starts with
  | nil =>
      rw [phaseStarts, List.append_nil]
      exact ⟨chronicled, fun index record found => ⟨record, found, .refl record⟩⟩
  | cons call rest ih =>
      obtain ⟨first, extended⟩ := chronicled.answer call
      obtain ⟨last, further⟩ := ih first
      rw [phaseStarts, ← List.append_assoc]
      exact ⟨last, extended.trans further⟩

theorem chronicled_initial (config : Config) (random : Random) :
    (initial config random).Chronicled [] :=
  .waiting ⟨rfl, rfl, rfl, rfl, rfl⟩ rfl

theorem Chronicled.known (chronicled : engine.Chronicled starts) {record : Branch}
    (member : record ∈ engine.history) : record.Known engine.input.length := by
  cases chronicled with
  | waiting blank nothing =>
      rw [blank.history] at member
      simp at member
  | started documented => exact documented.records record member

theorem behind_of_afterCalls {calls : List Call} (reached : engine.afterCalls calls = some after) :
    engine.behind calls = after := by
  induction calls generalizing engine with
  | nil => exact Option.some.inj reached
  | cons call rest ih =>
      obtain ⟨middle, done, onward⟩ := afterCalls_cons.mp reached
      obtain ⟨memory, action, answered⟩ := afterCall_eq_some done
      rw [behind, answered]
      exact ih onward

theorem exclusive_of_afterCalls {config : Config} {random : Random} {calls : List Call}
    (reached : (initial config random).afterCalls calls = some engine) {record : Branch}
    (member : record ∈ engine.history) : ¬ (record.isResolved ∧ record.isBypassed) := by
  have chronicled := ((chronicled_initial config random).behind calls).1
  rw [behind_of_afterCalls reached] at chronicled
  exact (chronicled.known member).exclusive

/-- Records only move forward, whatever the engine is asked. Each of them was observed with the input of its
phase, and knows an input for its other outcome if it is flipped. No later call removes a record or takes
back what is known of it. -/
theorem records_moveForward (config : Config) (random : Random) (calls further : List Call) :
    let engine := (initial config random).behind calls
    (∀ record ∈ engine.history,
      ¬ (record.isResolved ∧ record.isBypassed) ∧
      record.ObservedIn ((initial config random).phaseStarts calls) ∧
      (record.isResolved → ∃ input, record.flippingInput = some input ∧
        input.length = engine.input.length)) ∧
    engine.Extends (engine.behind further) := by
  intro engine
  obtain ⟨chronicled, -⟩ := (chronicled_initial config random).behind calls
  rw [List.nil_append] at chronicled
  refine ⟨fun record member => ?_, (chronicled.behind further).2⟩
  have known := chronicled.known member
  refine ⟨known.exclusive, ?_, fun resolved => ?_⟩
  · cases chronicled with
    | waiting blank nothing =>
        rw [show engine.history = [] from blank.history] at member
        simp at member
    | started documented => exact documented.observed record member
  · obtain ⟨input, found⟩ := Option.isSome_iff_exists.mp (known.flips resolved)
    exact ⟨input, found, known.sized found⟩

example :
    let calls := [.blank (.input ⟨16, 2⟩)] ++ comparison false 108 ++ [.blank .exit] ++ comparison false 200
    ((initial .default (.ofSeed 7)).behind calls).history.map Branch.isResolved = [true] ∧
      ((initial .default (.ofSeed 7)).phaseStarts calls).map Prod.fst = [0, 1] := by
  decide +kernel

end Engine

end BranchSteer
