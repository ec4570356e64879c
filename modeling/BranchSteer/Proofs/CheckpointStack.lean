import BranchSteer.Engine.Resolving
import BranchSteer.Proofs.Rollback

/-!
The checkpoints of a phase as a stack of logs: the armed ones come first, and whatever a later one has
logged, every earlier one has logged too. So a rollback to one of them leaves all earlier ones with
the memory that they recall.
-/

namespace BranchSteer

structure LoggedAll (memory : Memory) (addresses : List Nat) (before after : Array Checkpoint) :
    Prop where
  size : after.size = before.size
  each : ∀ {id : Nat} {checkpoint : Checkpoint}, before[id]? = some checkpoint →
    ∃ tracked, after[id]? = some tracked ∧
      Checkpoint.Logged memory addresses checkpoint tracked

theorem exists_getElem?_of_size {before after : Array α} (size : after.size = before.size)
    {id : Nat} {entry : α} (found : after[id]? = some entry) :
    ∃ old, before[id]? = some old := by
  obtain ⟨bound, _⟩ := Array.getElem?_eq_some_iff.mp found
  exact ⟨before[id], Array.getElem?_eq_getElem (by omega)⟩

theorem LoggedAll.origin {memory : Memory} {addresses : List Nat} {before after : Array Checkpoint}
    (logged : LoggedAll memory addresses before after) {id : Nat} {tracked : Checkpoint}
    (found : after[id]? = some tracked) :
    ∃ checkpoint, before[id]? = some checkpoint ∧
      Checkpoint.Logged memory addresses checkpoint tracked := by
  obtain ⟨checkpoint, old⟩ := exists_getElem?_of_size logged.size found
  obtain ⟨other, same, relation⟩ := logged.each old
  rw [found, Option.some.injEq] at same
  exact ⟨checkpoint, old, same ▸ relation⟩

theorem LoggedAll.refl (memory : Memory) (checkpoints : Array Checkpoint) :
    LoggedAll memory [] checkpoints checkpoints :=
  ⟨rfl, fun {_ checkpoint} found => ⟨checkpoint, found, Checkpoint.Logged.refl memory checkpoint⟩⟩

theorem LoggedAll.trans {memory : Memory} {first second : List Nat}
    {before middle after : Array Checkpoint} (one : LoggedAll memory first before middle)
    (two : LoggedAll memory second middle after) :
    LoggedAll memory (first ++ second) before after := by
  refine ⟨by rw [two.size, one.size], fun found => ?_⟩
  obtain ⟨next, foundNext, logsNext⟩ := one.each found
  obtain ⟨last, foundLast, logsLast⟩ := two.each foundNext
  exact ⟨last, foundLast, logsNext.trans logsLast⟩

namespace Checkpoint

theorem hasLogged_iff (checkpoint : Checkpoint) (access : MemoryRange) :
    checkpoint.hasLogged access ↔ ∀ address ∈ access.addresses, address ∈ checkpoint.writeLog := by
  simp only [hasLogged, MemoryRange.all_eq_all_addresses, List.all_eq_true,
    ← Std.ExtTreeMap.mem_iff_contains]

theorem logged_of_not_misses (checkpoint : Checkpoint) (memory : Memory) {access : MemoryRange}
    (complete : ¬ checkpoint.misses access) :
    Logged memory access.addresses checkpoint checkpoint := by
  refine ⟨rfl, rfl, rfl, rfl, ?_, fun _ => Or.inl⟩
  intro address
  by_cases here : checkpoint.armed ∧ address ∈ access.addresses
  · have known : checkpoint.hasLogged access := by
      simpa [misses, here.1] using complete
    have member := (checkpoint.hasLogged_iff access).mp known address here.2
    simp [Std.ExtTreeMap.getElem?_eq_some_getElem member]
  · simp [here]

theorem logged_of_disarmed {checkpoint : Checkpoint} (memory : Memory) (addresses : List Nat)
    (disarmed : ¬ checkpoint.armed) : Logged memory addresses checkpoint checkpoint := by
  refine ⟨rfl, rfl, rfl, rfl, ?_, fun _ => Or.inl⟩
  simp [disarmed]

theorem logArmed_loggedAll {memory : Memory} {access : MemoryRange}
    {checkpoints tracked : Array Checkpoint}
    (done : logArmed memory access checkpoints = (tracked, none)) :
    LoggedAll memory access.addresses checkpoints tracked := by
  unfold logArmed at done
  split at done
  · split at done
    · simp at done
    · rename_i values readable
      simp only [Prod.mk.injEq, and_true] at done
      subst tracked
      refine ⟨by simp, fun {id checkpoint} found => ?_⟩
      simp only [Array.getElem?_map, found, Option.map_some, Option.some.injEq]
      refine ⟨_, rfl, ?_⟩
      split
      · rename_i armed
        exact logValues_logged armed readable
      · rename_i disarmed
        exact logged_of_disarmed memory access.addresses disarmed
  · rename_i complete
    simp only [Prod.mk.injEq, and_true] at done
    subst tracked
    refine ⟨rfl, fun {id checkpoint} found => ⟨checkpoint, found, ?_⟩⟩
    apply logged_of_not_misses
    intro missing
    obtain ⟨bound, same⟩ := Array.getElem?_eq_some_iff.mp found
    exact complete (Array.any_eq_true.mpr ⟨id, bound, same ▸ missing⟩)

theorem logArmed_error {memory : Memory} {access : MemoryRange}
    {checkpoints tracked : Array Checkpoint} {fault : Fault}
    (failed : logArmed memory access checkpoints = (tracked, some fault)) :
    fault = .readOutOfBounds access ∧ memory.size < access.address + access.length := by
  unfold logArmed at failed
  split at failed
  · split at failed
    · rename_i unreadable
      simp only [Prod.mk.injEq, Option.some.injEq] at failed
      exact failed.2 ▸ Memory.read_eq_error unreadable
    · simp at failed
  · simp at failed

end Checkpoint

namespace Engine

theorem logRanges_loggedAll {memory : Memory} {ranges : List MemoryRange}
    {checkpoints tracked : Array Checkpoint}
    (done : logRanges memory ranges checkpoints = (tracked, none)) :
    LoggedAll memory (ranges.flatMap MemoryRange.addresses) checkpoints tracked := by
  induction ranges generalizing checkpoints with
  | nil =>
      simp only [logRanges, Prod.mk.injEq, and_true] at done
      exact done ▸ LoggedAll.refl memory checkpoints
  | cons access rest ih =>
      simp only [logRanges] at done
      split at done
      · rename_i next first
        simpa using (Checkpoint.logArmed_loggedAll first).trans (ih done)
      · simp at done

theorem logRanges_error {memory : Memory} {ranges : List MemoryRange}
    {checkpoints tracked : Array Checkpoint} {fault : Fault}
    (failed : logRanges memory ranges checkpoints = (tracked, some fault)) :
    ∃ access ∈ ranges, fault = .readOutOfBounds access ∧
      memory.size < access.address + access.length := by
  induction ranges generalizing checkpoints with
  | nil => simp [logRanges] at failed
  | cons access rest ih =>
      simp only [logRanges] at failed
      split at failed
      · obtain ⟨other, member, cause⟩ := ih failed
        exact ⟨other, List.mem_cons_of_mem _ member, cause⟩
      · rename_i unreadable
        simp only [Prod.mk.injEq, Option.some.injEq] at failed
        exact ⟨access, List.mem_cons_self, failed.2 ▸ Checkpoint.logArmed_error unreadable⟩

theorem logWrites_eq (engine : Engine) (memory : Memory) (writes : List MemoryRange) :
    engine.logWrites memory writes =
      ({ engine with checkpoints := (logRanges memory writes engine.checkpoints).1 },
        (logRanges memory writes engine.checkpoints).2) := by
  induction writes generalizing engine with
  | nil => rfl
  | cons access rest ih =>
      simp only [logWrites, logRanges]
      cases first : Checkpoint.logArmed memory access engine.checkpoints with
      | mk tracked failure =>
          cases failure with
          | none => simp only [ih]
          | some fault => rfl

end Engine

/-- The armed checkpoints come before all others, and the others have logged nothing. What a checkpoint has
logged, every earlier one has logged too. -/
structure Layered (checkpoints : Array Checkpoint) : Prop where
  armed : ∀ {lower upper : Nat} {first second : Checkpoint}, lower ≤ upper →
    checkpoints[lower]? = some first → checkpoints[upper]? = some second →
      second.armed → first.armed
  disarmed : ∀ {id : Nat} {checkpoint : Checkpoint}, checkpoints[id]? = some checkpoint →
    ¬ checkpoint.armed → checkpoint.writeLog = ∅
  nested : ∀ {lower upper : Nat} {first second : Checkpoint}, lower ≤ upper →
    checkpoints[lower]? = some first → checkpoints[upper]? = some second →
      ∀ address ∈ second.writeLog, address ∈ first.writeLog

def armAt (position : Nat) (checkpoints : Array Checkpoint) : Array Checkpoint :=
  checkpoints.map fun checkpoint =>
    if checkpoint.position = position then checkpoint.arm else checkpoint

namespace Layered

theorem empty : Layered #[] := by
  constructor <;> simp

theorem push {checkpoints : Array Checkpoint} (layered : Layered checkpoints)
    (armed : ∀ {id : Nat} {checkpoint : Checkpoint},
      checkpoints[id]? = some checkpoint → checkpoint.armed)
    (position : Nat) (processor : Processor) (inputBytes : Std.ExtTreeSet Nat) :
    Layered (checkpoints.push (.create position processor inputBytes)) := by
  constructor
  · intro lower upper first second _ low _ _
    rcases of_getElem?_push low with known | ⟨_, rfl⟩
    · exact armed known
    · rfl
  · intro id checkpoint found disarmed
    rcases of_getElem?_push found with known | ⟨_, rfl⟩
    · exact layered.disarmed known disarmed
    · rfl
  · intro lower upper first second ordered low high address member
    rcases of_getElem?_push high with known | ⟨_, rfl⟩
    · rcases of_getElem?_push low with knownLow | ⟨last, _⟩
      · exact layered.nested ordered knownLow known address member
      · obtain ⟨bound, _⟩ := Array.getElem?_eq_some_iff.mp known
        omega
    · simp [Checkpoint.create] at member

theorem loggedAll {before after : Array Checkpoint} {memory : Memory} {addresses : List Nat}
    (layered : Layered before) (logged : LoggedAll memory addresses before after) :
    Layered after := by
  constructor
  · intro lower upper first second ordered low high armed
    obtain ⟨oldLow, foundLow, logsLow⟩ := logged.origin low
    obtain ⟨oldHigh, foundHigh, logsHigh⟩ := logged.origin high
    rw [logsLow.armed]
    exact layered.armed ordered foundLow foundHigh (logsHigh.armed ▸ armed)
  · intro id checkpoint found disarmed
    obtain ⟨old, foundOld, logs⟩ := logged.origin found
    rw [logs.armed] at disarmed
    apply Std.ExtTreeMap.ext_getElem?
    intro address
    simp [logs.writeLog, disarmed, layered.disarmed foundOld disarmed]
  · intro lower upper first second ordered low high address member
    obtain ⟨oldLow, foundLow, logsLow⟩ := logged.origin low
    obtain ⟨oldHigh, foundHigh, logsHigh⟩ := logged.origin high
    rw [logsHigh.mem_iff] at member
    rw [logsLow.mem_iff]
    rcases member with known | ⟨armed, within⟩
    · exact Or.inl (layered.nested ordered foundLow foundHigh address known)
    · exact Or.inr ⟨layered.armed ordered foundLow foundHigh armed, within⟩

end Layered

theorem getElem?_armAt {checkpoints : Array Checkpoint} {position id : Nat} {checkpoint : Checkpoint}
    (found : (armAt position checkpoints)[id]? = some checkpoint) :
    ∃ before, checkpoints[id]? = some before ∧ checkpoint.position = before.position ∧
      checkpoint.writeLog = before.writeLog ∧
      checkpoint.armed = (before.armed || before.position = position) := by
  rw [armAt, Array.getElem?_map, Option.map_eq_some_iff] at found
  obtain ⟨before, known, same⟩ := found
  subst same
  refine ⟨before, known, ?_⟩
  split <;> simp [Checkpoint.arm, *]

theorem Layered.arming {checkpoints : Array Checkpoint} {position : Nat}
    (layered : Layered checkpoints)
    (increasing : ∀ {lower upper : Nat} {first second : Checkpoint}, lower < upper →
      checkpoints[lower]? = some first → checkpoints[upper]? = some second →
        first.position < second.position)
    (armed : ∀ {id : Nat} {checkpoint : Checkpoint}, checkpoints[id]? = some checkpoint →
      checkpoint.position < position → checkpoint.armed) :
    Layered (armAt position checkpoints) := by
  constructor
  · intro lower upper first second ordered low high isArmed
    obtain ⟨oldLow, foundLow, _, _, armedLow⟩ := getElem?_armAt low
    obtain ⟨oldHigh, foundHigh, _, _, armedHigh⟩ := getElem?_armAt high
    rw [armedHigh, Bool.or_eq_true, decide_eq_true_eq] at isArmed
    rw [armedLow, Bool.or_eq_true, decide_eq_true_eq]
    rcases isArmed with before | here
    · exact Or.inl (layered.armed ordered foundLow foundHigh before)
    · rcases Nat.lt_or_eq_of_le ordered with below | same
      · exact Or.inl (armed foundLow (by have := increasing below foundLow foundHigh; omega))
      · subst same
        rw [foundLow, Option.some.injEq] at foundHigh
        exact Or.inr (foundHigh ▸ here)
  · intro id checkpoint found disarmed
    obtain ⟨before, known, _, same, isArmed⟩ := getElem?_armAt found
    rw [same]
    apply layered.disarmed known
    intro beforeArmed
    simp [isArmed, beforeArmed] at disarmed
  · intro lower upper first second ordered low high
    obtain ⟨oldLow, foundLow, _, sameLow, _⟩ := getElem?_armAt low
    obtain ⟨oldHigh, foundHigh, _, sameHigh, _⟩ := getElem?_armAt high
    rw [sameLow, sameHigh]
    exact layered.nested ordered foundLow foundHigh

structure Stack (checkpoints : Array Checkpoint) (size : Nat) : Prop where
  armed : ∀ {lower upper : Nat} {first second : Checkpoint}, lower ≤ upper →
    checkpoints[lower]? = some first → checkpoints[upper]? = some second →
      second.armed → first.armed
  disarmed : ∀ {id : Nat} {checkpoint : Checkpoint}, checkpoints[id]? = some checkpoint →
    ¬ checkpoint.armed → checkpoint.writeLog = ∅
  nested : ∀ {lower upper : Nat} {first second : Checkpoint}, lower ≤ upper →
    checkpoints[lower]? = some first → checkpoints[upper]? = some second →
      ∀ address ∈ second.writeLog, address ∈ first.writeLog
  inside : ∀ {id : Nat} {checkpoint : Checkpoint}, checkpoints[id]? = some checkpoint →
    ∀ address ∈ checkpoint.writeLog, address < size

namespace Stack

variable {checkpoints : Array Checkpoint} {size : Nat}

theorem layered (stack : Stack checkpoints size) : Layered checkpoints :=
  ⟨stack.armed, stack.disarmed, stack.nested⟩

theorem of_layered (layered : Layered checkpoints)
    (inside : ∀ {id : Nat} {checkpoint : Checkpoint}, checkpoints[id]? = some checkpoint →
      ∀ address ∈ checkpoint.writeLog, address < size) : Stack checkpoints size :=
  ⟨layered.armed, layered.disarmed, layered.nested, inside⟩

theorem empty (size : Nat) : Stack #[] size := of_layered .empty (by simp)

theorem push (stack : Stack checkpoints size)
    (armed : ∀ {id : Nat} {checkpoint : Checkpoint},
      checkpoints[id]? = some checkpoint → checkpoint.armed)
    (position : Nat) (processor : Processor) (inputBytes : Std.ExtTreeSet Nat) :
    Stack (checkpoints.push (.create position processor inputBytes)) size := by
  refine of_layered (stack.layered.push armed position processor inputBytes) ?_
  intro id checkpoint found address member
  rcases of_getElem?_push found with known | ⟨_, rfl⟩
  · exact stack.inside known address member
  · simp [Checkpoint.create] at member

theorem loggedAll {before after : Array Checkpoint} {memory : Memory} {addresses : List Nat}
    (stack : Stack before memory.size) (logged : LoggedAll memory addresses before after) :
    Stack after memory.size := by
  refine of_layered (stack.layered.loggedAll logged) ?_
  intro id checkpoint found address member
  obtain ⟨old, foundOld, logs⟩ := logged.origin found
  rcases logs.inside address member with known | bound
  · exact stack.inside foundOld address known
  · exact bound

theorem arming {position : Nat} (stack : Stack checkpoints size)
    (increasing : ∀ {lower upper : Nat} {first second : Checkpoint}, lower < upper →
      checkpoints[lower]? = some first → checkpoints[upper]? = some second →
        first.position < second.position)
    (armed : ∀ {id : Nat} {checkpoint : Checkpoint}, checkpoints[id]? = some checkpoint →
      checkpoint.position < position → checkpoint.armed) :
    Stack (checkpoints.map fun checkpoint =>
      if checkpoint.position = position then checkpoint.arm else checkpoint) size := by
  refine of_layered (stack.layered.arming increasing armed) ?_
  intro id checkpoint found
  obtain ⟨before, known, _, same, _⟩ := getElem?_armAt found
  rw [same]
  exact stack.inside known

end Stack

/-- The checkpoints behind a rollback to one of them, whatever the memory holds: the earlier ones have logged
some addresses, the target is armed, and the later ones are disarmed. -/
structure Reverted (memory : Memory) (addresses : List Nat) (id : Nat)
    (before after : Array Checkpoint) : Prop where
  size : after.size = before.size
  earlier : ∀ {index : Nat} {checkpoint : Checkpoint}, index < id →
    before[index]? = some checkpoint → ∃ tracked, after[index]? = some tracked ∧
      Checkpoint.Logged memory addresses checkpoint tracked
  target : ∀ {checkpoint : Checkpoint}, before[id]? = some checkpoint →
    ∃ rolled, after[id]? = some rolled ∧ rolled.armed ∧ rolled.position = checkpoint.position ∧
      rolled.processor = checkpoint.processor ∧ rolled.inputBytes = checkpoint.inputBytes
  later : ∀ {index : Nat} {checkpoint : Checkpoint}, id < index →
    before[index]? = some checkpoint → after[index]? = some checkpoint.disarm

namespace Reverted

variable {memory : Memory} {addresses : List Nat} {id : Nat} {before after : Array Checkpoint}

theorem origin (reverted : Reverted memory addresses id before after) {index : Nat}
    {checkpoint : Checkpoint} (found : after[index]? = some checkpoint) :
    ∃ old, before[index]? = some old ∧ checkpoint.position = old.position ∧
      checkpoint.processor = old.processor ∧ checkpoint.inputBytes = old.inputBytes := by
  obtain ⟨old, known⟩ := exists_getElem?_of_size reverted.size found
  refine ⟨old, known, ?_⟩
  rcases Nat.lt_trichotomy index id with below | same | above
  · obtain ⟨tracked, here, logs⟩ := reverted.earlier below known
    rw [found, Option.some.injEq] at here
    exact here ▸ ⟨logs.position, logs.processor, logs.inputBytes⟩
  · subst same
    obtain ⟨rolled, here, _, point⟩ := reverted.target known
    rw [found, Option.some.injEq] at here
    exact here ▸ point
  · rw [reverted.later above known, Option.some.injEq] at found
    exact found ▸ ⟨rfl, rfl, rfl⟩

theorem armed_iff (reverted : Reverted memory addresses id before after)
    (armed : ∀ (lower : Nat) (checkpoint : Checkpoint), lower ≤ id →
      before[lower]? = some checkpoint → checkpoint.armed)
    {index : Nat} {checkpoint : Checkpoint} (found : after[index]? = some checkpoint) :
    checkpoint.armed ↔ index ≤ id := by
  obtain ⟨old, known⟩ := exists_getElem?_of_size reverted.size found
  rcases Nat.lt_trichotomy index id with below | same | above
  · obtain ⟨tracked, same, logs⟩ := reverted.earlier below known
    rw [found, Option.some.injEq] at same
    rw [same, logs.armed]
    exact iff_of_true (armed index old (Nat.le_of_lt below) known) (Nat.le_of_lt below)
  · subst same
    obtain ⟨rolled, same, isArmed, _⟩ := reverted.target known
    rw [found, Option.some.injEq] at same
    exact iff_of_true (same ▸ isArmed) (Nat.le_refl index)
  · rw [reverted.later above known, Option.some.injEq] at found
    subst found
    exact iff_of_false Bool.false_ne_true (by omega)

theorem layered (reverted : Reverted memory addresses id before after) (layered : Layered before)
    {target : Checkpoint} (here : before[id]? = some target) (armed : target.armed)
    (restarts : ∀ {rolled : Checkpoint}, after[id]? = some rolled →
      ∀ address ∈ rolled.writeLog, address ∈ addresses) : Layered after := by
  have isArmed := fun {index checkpoint} (found : after[index]? = some checkpoint) =>
    reverted.armed_iff (fun _ _ upTo known => layered.armed upTo known here armed) found
  constructor
  · intro lower upper first second ordered low high secondArmed
    rw [isArmed low]
    rw [isArmed high] at secondArmed
    omega
  · intro index checkpoint found disarmed
    rw [isArmed found] at disarmed
    obtain ⟨old, known⟩ := exists_getElem?_of_size reverted.size found
    rw [reverted.later (by omega) known, Option.some.injEq] at found
    exact found ▸ rfl
  · intro lower upper first second ordered low high address member
    obtain ⟨oldLow, knownLow⟩ := exists_getElem?_of_size reverted.size low
    obtain ⟨oldHigh, knownHigh⟩ := exists_getElem?_of_size reverted.size high
    rcases Nat.lt_or_ge id upper with above | upTo
    · rw [reverted.later above knownHigh, Option.some.injEq] at high
      subst high
      simp [Checkpoint.disarm] at member
    rcases Nat.lt_or_eq_of_le (Nat.le_trans ordered upTo) with below | same
    · obtain ⟨tracked, same, logs⟩ := reverted.earlier below knownLow
      rw [low, Option.some.injEq] at same
      rw [same, logs.mem_iff]
      have lowArmed := layered.armed (Nat.le_of_lt below) knownLow here armed
      rcases Nat.lt_or_eq_of_le upTo with belowToo | same
      · obtain ⟨other, there, logsToo⟩ := reverted.earlier belowToo knownHigh
        rw [high, Option.some.injEq] at there
        rw [there, logsToo.mem_iff] at member
        exact member.imp (layered.nested ordered knownLow knownHigh address)
          fun fresh => ⟨lowArmed, fresh.2⟩
      · subst same
        exact Or.inr ⟨lowArmed, restarts high address member⟩
    · have equal : lower = upper := by omega
      subst equal
      rw [low, Option.some.injEq] at high
      exact high ▸ member

end Reverted

structure Rewound (input : InputBuffer) (perturbation : Perturbation) (random : Random)
    (memory : Memory) (id : Nat) (before after : Array Checkpoint) (rollback : Rollback) :
    Prop where
  size : after.size = before.size
  earlier : ∀ {index : Nat} {checkpoint : Checkpoint}, index < id →
    before[index]? = some checkpoint → ∃ tracked, after[index]? = some tracked ∧
      Checkpoint.Logged memory ((perturbation.ranges input).flatMap MemoryRange.addresses)
        checkpoint tracked
  target : ∀ {checkpoint : Checkpoint}, before[id]? = some checkpoint →
    Checkpoint.RolledBack checkpoint memory input perturbation random rollback ∧
      after[id]? = some rollback.checkpoint
  later : ∀ {index : Nat} {checkpoint : Checkpoint}, id < index →
    before[index]? = some checkpoint → after[index]? = some checkpoint.disarm

theorem getElem?_push_append (earlier later : Array α) (entry : α) (index : Nat) :
    (earlier.push entry ++ later)[index]? =
      if index < earlier.size then earlier[index]?
      else if index = earlier.size then some entry
      else later[index - (earlier.size + 1)]? := by
  rw [Array.getElem?_append, Array.size_push, Array.getElem?_push]
  by_cases before : index < earlier.size
  · have different : index ≠ earlier.size := by omega
    have inside : index < earlier.size + 1 := by omega
    simp [before, inside, different]
  · by_cases same : index = earlier.size
    · simp [same]
    · have behind : ¬ index < earlier.size + 1 := by omega
      simp [before, same, behind]

theorem size_of_logged_take {memory : Memory} {addresses : List Nat}
    {checkpoints earlier : Array Checkpoint} {id : Nat} {checkpoint : Checkpoint}
    (logged : LoggedAll memory addresses (checkpoints.take id) earlier)
    (found : checkpoints[id]? = some checkpoint) : earlier.size = id := by
  obtain ⟨bound, _⟩ := Array.getElem?_eq_some_iff.mp found
  rw [logged.size, Array.take_eq_extract, Array.size_extract]
  omega

theorem getElem?_rewound {checkpoints earlier : Array Checkpoint} {target : Checkpoint} {id : Nat}
    (size : earlier.size = id) (index : Nat) :
    (earlier.push target ++ (checkpoints.drop (id + 1)).map Checkpoint.disarm)[index]? =
      if index < id then earlier[index]?
      else if index = id then some target
      else checkpoints[index]?.map Checkpoint.disarm := by
  rw [getElem?_push_append, size]
  split
  · rfl
  · split
    · rfl
    · have place : id + 1 + (index - (id + 1)) = index := by omega
      rw [Array.getElem?_map, Array.drop_eq_extract, Array.getElem?_extract, place]
      split
      · rfl
      · rw [Array.getElem?_eq_none (by omega)]

theorem reverted_of_logged {memory : Memory} {addresses : List Nat}
    {checkpoints earlier : Array Checkpoint} {id : Nat} {old target : Checkpoint}
    (logged : LoggedAll memory addresses (checkpoints.take id) earlier)
    (found : checkpoints[id]? = some old) (armed : target.armed)
    (position : target.position = old.position) (processor : target.processor = old.processor)
    (inputBytes : target.inputBytes = old.inputBytes) :
    Reverted memory addresses id checkpoints
      (earlier.push target ++ (checkpoints.drop (id + 1)).map Checkpoint.disarm) := by
  have size := size_of_logged_take logged found
  obtain ⟨bound, _⟩ := Array.getElem?_eq_some_iff.mp found
  constructor
  · simp only [Array.size_append, Array.size_push, size, Array.size_map, Array.drop_eq_extract,
      Array.size_extract]
    omega
  · intro index checkpoint below known
    have taken : (checkpoints.take id)[index]? = some checkpoint := by
      simp only [Array.take_eq_extract, Array.getElem?_extract, Nat.zero_add, known]
      exact if_pos (by omega)
    obtain ⟨tracked, here, relation⟩ := logged.each taken
    exact ⟨tracked, by rw [getElem?_rewound size, if_pos below, here], relation⟩
  · intro checkpoint known
    rw [found, Option.some.injEq] at known
    refine ⟨target, ?_, armed, known ▸ position, known ▸ processor, known ▸ inputBytes⟩
    rw [getElem?_rewound size, if_neg (Nat.lt_irrefl id), if_pos rfl]
  · intro index checkpoint above known
    rw [getElem?_rewound size, if_neg (by omega), if_neg (by omega), known, Option.map_some]

namespace Engine

theorem rewind_exhausted {engine : Engine} (exhausted : engine.config.rollbackLimit ≤ engine.rollbacks)
    (memory : Memory) (id : Nat) (perturbation : Perturbation) :
    engine.rewind memory id perturbation =
      ⟨(engine.inform ("Rollback budget of " ++ toString engine.config.rollbackLimit ++
        " exhausted")).finish true, memory, .ok .stop⟩ := by
  simp only [rewind, exhausted, if_true]

theorem rewind_rewound {engine : Engine} {memory : Memory} {id : Nat} {perturbation : Perturbation}
    {target : Checkpoint} (budget : engine.rollbacks < engine.config.rollbackLimit)
    (small : memory.size < addressSpace) (stack : Stack engine.checkpoints memory.size)
    (fits : perturbation.Fits engine.input memory.size)
    (found : engine.checkpoints[id]? = some target) (armed : target.armed) :
    ∃ checkpoints rollback,
      Rewound engine.input perturbation engine.random memory id engine.checkpoints checkpoints
        rollback ∧
      engine.rewind memory id perturbation =
        ⟨{ engine with
            checkpoints := checkpoints
            random := rollback.random
            position := Position.previous target.position
            rollbacks := engine.rollbacks + 1
            rollbacksInPhase := engine.rollbacksInPhase + 1 },
          rollback.memory, .ok (.rollback target.processor)⟩ := by
  have rolled : Checkpoint.RolledBack target memory engine.input perturbation engine.random
      (target.rollback memory engine.input perturbation engine.random) :=
    Checkpoint.rollback_rolledBack small (stack.inside found) fits engine.random
  cases logs : logRanges memory (perturbation.ranges engine.input) (engine.checkpoints.take id) with
  | mk earlier failure =>
      cases failure with
      | some fault =>
          obtain ⟨access, member, _, outside⟩ := logRanges_error logs
          have inside := fits access member
          omega
      | none =>
          have logged := logRanges_loggedAll logs
          have reverted := reverted_of_logged logged found rolled.armed rolled.position
            rolled.processor rolled.inputBytes
          refine ⟨_, target.rollback memory engine.input perturbation engine.random,
            ⟨reverted.size, reverted.earlier, fun known => ?_, reverted.later⟩, ?_⟩
          · rw [found, Option.some.injEq] at known
            subst known
            refine ⟨rolled, ?_⟩
            rw [getElem?_rewound (size_of_logged_take logged found), if_neg (Nat.lt_irrefl id),
              if_pos rfl]
          · simp only [rewind, Nat.not_le.mpr budget, if_false, found, armed, Bool.not_true,
              Bool.false_eq_true, logs, rolled.result]

end Engine

namespace Rewound

variable {input : InputBuffer} {perturbation : Perturbation} {random : Random} {memory : Memory}
  {id : Nat} {before after : Array Checkpoint} {rollback : Rollback}

theorem reverted (rewound : Rewound input perturbation random memory id before after rollback) :
    Reverted memory ((perturbation.ranges input).flatMap MemoryRange.addresses) id before after := by
  refine ⟨rewound.size, rewound.earlier, fun known => ?_, rewound.later⟩
  obtain ⟨rolled, here⟩ := rewound.target known
  exact ⟨_, here, rolled.armed, rolled.position, rolled.processor, rolled.inputBytes⟩

theorem origin (rewound : Rewound input perturbation random memory id before after rollback)
    {index : Nat} {checkpoint : Checkpoint} (found : after[index]? = some checkpoint) :
    ∃ old, before[index]? = some old ∧ checkpoint.position = old.position ∧
      checkpoint.processor = old.processor ∧ checkpoint.inputBytes = old.inputBytes :=
  rewound.reverted.origin found

theorem armed_iff (rewound : Rewound input perturbation random memory id before after rollback)
    {bytes : Nat} (stack : Stack before bytes) {target : Checkpoint}
    (here : before[id]? = some target) (armed : target.armed) {index : Nat} {checkpoint : Checkpoint}
    (found : after[index]? = some checkpoint) : checkpoint.armed ↔ index ≤ id :=
  rewound.reverted.armed_iff (fun _ _ upTo known => stack.armed upTo known here armed) found

theorem recalledByte_eq (rewound : Rewound input perturbation random memory id before after rollback)
    (small : memory.size < addressSpace) (stack : Stack before memory.size)
    (fits : perturbation.Fits input memory.size)
    {target : Checkpoint} (here : before[id]? = some target) (armed : target.armed)
    {index : Nat} (upTo : index ≤ id) {old checkpoint : Checkpoint}
    (known : before[index]? = some old) (found : after[index]? = some checkpoint) (address : Nat) :
    checkpoint.recalledByte rollback.memory address = old.recalledByte memory address := by
  obtain ⟨rolled, rolledHere⟩ := rewound.target here
  rcases Nat.lt_or_eq_of_le upTo with below | same
  · obtain ⟨tracked, same, logs⟩ := rewound.earlier below known
    rw [found, Option.some.injEq] at same
    subst same
    rw [← logs.recalledByte_eq]
    apply Checkpoint.recalledByte_of_agree
    -- What the earlier checkpoint did not log is neither perturbed nor logged by the target.
    intro unlogged
    rw [logs.mem_iff, not_or] at unlogged
    have isArmed : old.armed := stack.armed upTo known here armed
    have unperturbed : perturbation.value? input random address = none := by
      have absent := fun member => unlogged.2 ⟨isArmed, member⟩
      rw [Perturbation.mem_ranges_iff small fits random] at absent
      simpa using absent
    have unrecalled := mt (stack.nested upTo known here address) unlogged.1
    rw [rolled.byte, unperturbed, Option.getD_none, Checkpoint.recalledByte,
      Std.ExtTreeMap.getElem?_eq_none unrecalled, Option.getD_none]
  · subst same
    rw [here, Option.some.injEq] at known
    rw [found, Option.some.injEq] at rolledHere
    rw [← known, rolledHere, rolled.recalledByte_eq]

theorem stack (rewound : Rewound input perturbation random memory id before after rollback)
    (small : memory.size < addressSpace) (stack : Stack before memory.size)
    (fits : perturbation.Fits input memory.size)
    {target : Checkpoint} (here : before[id]? = some target) (armed : target.armed) :
    Stack after memory.size := by
  refine .of_layered (rewound.reverted.layered stack.layered here armed ?_) ?_
  · intro checkpoint found address member
    obtain ⟨rolled, same⟩ := rewound.target here
    rw [found, Option.some.injEq] at same
    rw [same, Std.ExtTreeMap.mem_iff_isSome_getElem?, rolled.writeLog] at member
    rw [Perturbation.mem_ranges_iff small fits random]
    by_cases perturbed : (perturbation.value? input random address).isSome
    · exact perturbed
    · simp [perturbed] at member
  · intro index checkpoint found address member
    obtain ⟨old, known⟩ := exists_getElem?_of_size rewound.size found
    rcases Nat.lt_trichotomy index id with below | same | above
    · obtain ⟨tracked, same, logs⟩ := rewound.earlier below known
      rw [found, Option.some.injEq] at same
      rw [same] at member
      rcases logs.inside address member with before | bound
      · exact stack.inside known address before
      · exact bound
    · subst same
      obtain ⟨rolled, same⟩ := rewound.target known
      rw [found, Option.some.injEq] at same
      exact rolled.inside address (same ▸ member)
    · rw [rewound.later above known, Option.some.injEq] at found
      subst found
      simp [Checkpoint.disarm] at member

end Rewound

end BranchSteer
