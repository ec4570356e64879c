import BranchSteer.Proofs.Rollback

/-!
A checkpoint as an undo log. Whoever writes to the memory announces the bytes before, and may take the
process back to the checkpoint at any time. However often that happens, a rollback leads to the memory
that the checkpoint was created in, under the writes of its perturbation and of no earlier one.
-/

namespace BranchSteer

namespace Memory

theorem byte_write_of_notMem {memory written : Memory} {address : Nat} {values : List UInt8}
    (wrote : memory.write address values = .ok written) {other : Nat}
    (outside : other ∉ List.range' address values.length) :
    written.byte other = memory.byte other := by
  obtain ⟨_, rfl⟩ := (write_eq_ok_iff memory written address values).mp wrote
  rw [List.mem_range'_1] at outside
  rw [byte_setBytes]
  split
  · rw [List.getElem?_eq_none (by omega), Option.getD_none]
  · rfl

end Memory

namespace Checkpoint

theorem rollback_isOk_iff {checkpoint : Checkpoint} {memory : Memory} {input : InputBuffer}
    {perturbation : Perturbation} (small : memory.size < addressSpace)
    (inside : ∀ address ∈ checkpoint.writeLog, address < memory.size) (random : Random) :
    (∃ processor, (checkpoint.rollback memory input perturbation random).result = .ok processor) ↔
      perturbation.Fits input memory.size := by
  refine ⟨?_, fun fits => ⟨_, (rollback_rolledBack small inside fits random).result⟩⟩
  rintro ⟨processor, succeeds⟩
  exact (rollback_bytes succeeds).2.1

end Checkpoint

inductive TrackedAct
  | log (access : MemoryRange)
  | write (address : Nat) (values : List UInt8)
  | rollback (input : InputBuffer) (perturbation : Perturbation) (random : Random)

structure Tracking where
  checkpoint : Checkpoint
  memory : Memory
  covered : List MemoryRange

namespace Tracking

def start (position : Nat) (processor : Processor) (inputBytes : Std.ExtTreeSet Nat)
    (memory : Memory) : Tracking := ⟨.create position processor inputBytes, memory, []⟩

def coveredAddresses (tracking : Tracking) : List Nat :=
  tracking.covered.flatMap MemoryRange.addresses

/-- Logging may fail, which changes nothing. Writes and rollbacks have to succeed, and every byte of a
write has to be covered. -/
def perform (tracking : Tracking) : TrackedAct → Option Tracking
  | .log access =>
    match tracking.checkpoint.logRange tracking.memory access with
    | .error _ => some tracking
    | .ok tracked =>
      some { tracking with checkpoint := tracked, covered := access :: tracking.covered }
  | .write address values =>
    if (List.range' address values.length).all tracking.coveredAddresses.contains then
      match tracking.memory.write address values with
      | .error _ => none
      | .ok written => some { tracking with memory := written }
    else none
  | .rollback input perturbation random =>
    let rollback := tracking.checkpoint.rollback tracking.memory input perturbation random
    match rollback.result with
    | .error _ => none
    | .ok _ => some ⟨rollback.checkpoint, rollback.memory, []⟩

def performAll (tracking : Tracking) : List TrackedAct → Option Tracking
  | [] => some tracking
  | act :: rest => (tracking.perform act).bind (performAll · rest)

theorem performAll_concat (tracking : Tracking) (acts : List TrackedAct) (act : TrackedAct) :
    tracking.performAll (acts ++ [act]) =
      (tracking.performAll acts).bind fun next => next.perform act := by
  induction acts generalizing tracking with
  | nil => simp [performAll]
  | cons first rest ih =>
      cases here : tracking.perform first with
      | none => simp [performAll, here]
      | some next => simpa [performAll, here] using ih next

structure Undoes (origin : Memory) (tracking : Tracking) : Prop where
  size : tracking.memory.size = origin.size
  armed : tracking.checkpoint.armed
  inside : ∀ address ∈ tracking.checkpoint.writeLog, address < tracking.memory.size
  recalled : ∀ address,
    tracking.checkpoint.recalledByte tracking.memory address = origin.byte address
  covered : ∀ address ∈ tracking.coveredAddresses, address ∈ tracking.checkpoint.writeLog

/-- A rollback leaves nothing but the perturbation, and a log of just the bytes that it overwrote. -/
structure Restores (origin : Memory) (input : InputBuffer) (perturbation : Perturbation)
    (random : Random) (tracking : Tracking) : Prop where
  size : tracking.memory.size = origin.size
  perturbed : ∀ address ∈ (perturbation.ranges input).flatMap MemoryRange.addresses,
    perturbation.value? input random address = some (tracking.memory.byte address)
  restored : ∀ address ∉ (perturbation.ranges input).flatMap MemoryRange.addresses,
    tracking.memory.byte address = origin.byte address
  logged : ∀ address ∈ (perturbation.ranges input).flatMap MemoryRange.addresses,
    tracking.checkpoint.writeLog[address]? = some (origin.byte address)
  unlogged : ∀ address ∉ (perturbation.ranges input).flatMap MemoryRange.addresses,
    tracking.checkpoint.writeLog[address]? = none
  given : ∀ bytes, perturbation = .input bytes → ∀ offset < input.length,
    tracking.memory.byte (input.address + offset) = bytes[offset]?.getD 0

variable {origin : Memory} {tracking next : Tracking}

theorem start_undoes (position : Nat) (processor : Processor) (inputBytes : Std.ExtTreeSet Nat)
    (origin : Memory) : Undoes origin (start position processor inputBytes origin) := by
  constructor
  · rfl
  · rfl
  · simp [start, Checkpoint.create]
  · simp [start, Checkpoint.create, Checkpoint.recalledByte]
  · simp [start, coveredAddresses]

theorem Undoes.log (undoes : Undoes origin tracking) {access : MemoryRange} {tracked : Checkpoint}
    (done : tracking.checkpoint.logRange tracking.memory access = .ok tracked) :
    Undoes origin
      { tracking with checkpoint := tracked, covered := access :: tracking.covered } := by
  have logged := Checkpoint.logRange_logged undoes.armed done
  refine ⟨undoes.size, logged.armed.trans undoes.armed, fun address member => ?_,
    fun address => ?_, fun address member => ?_⟩
  · exact (logged.inside address member).elim (undoes.inside address) id
  · exact (logged.recalledByte_eq address).trans (undoes.recalled address)
  · rw [coveredAddresses, List.flatMap_cons, List.mem_append] at member
    rw [logged.mem_iff]
    rcases member with here | before
    · exact Or.inr ⟨undoes.armed, here⟩
    · exact Or.inl (undoes.covered address before)

theorem Undoes.write (undoes : Undoes origin tracking) {address : Nat} {values : List UInt8}
    {written : Memory} (wrote : tracking.memory.write address values = .ok written)
    (covered : ∀ other ∈ List.range' address values.length, other ∈ tracking.coveredAddresses) :
    Undoes origin { tracking with memory := written } := by
  have size : written.size = tracking.memory.size := by
    obtain ⟨_, rfl⟩ := (Memory.write_eq_ok_iff _ _ _ _).mp wrote
    exact Memory.size_setBytes _ _ _
  refine ⟨size.trans undoes.size, undoes.armed, fun other member => ?_, fun other => ?_,
    undoes.covered⟩
  · exact size.symm ▸ undoes.inside other member
  · rw [← undoes.recalled other]
    apply Checkpoint.recalledByte_of_agree
    -- What is not logged is not covered, so this write spares it.
    intro unlogged
    exact Memory.byte_write_of_notMem wrote fun within =>
      unlogged (undoes.covered other (covered other within))

theorem Undoes.rolledBack (small : origin.size < addressSpace) (undoes : Undoes origin tracking)
    {input : InputBuffer} {perturbation : Perturbation} {random : Random}
    (performed : tracking.perform (.rollback input perturbation random) = some next) :
    perturbation.Fits input tracking.memory.size ∧ next.covered = [] ∧
      ∃ rollback, next.checkpoint = rollback.checkpoint ∧ next.memory = rollback.memory ∧
        Checkpoint.RolledBack tracking.checkpoint tracking.memory input perturbation random
          rollback := by
  rw [← undoes.size] at small
  simp only [perform] at performed
  split at performed
  · cases performed
  · rename_i processor succeeds
    have fits := (Checkpoint.rollback_isOk_iff small undoes.inside random).mp ⟨_, succeeds⟩
    have rolled := Checkpoint.rollback_rolledBack small undoes.inside fits random
    obtain rfl := Option.some.inj performed
    exact ⟨fits, rfl, _, rfl, rfl, rolled⟩

theorem Undoes.rollback (small : origin.size < addressSpace) (undoes : Undoes origin tracking)
    {input : InputBuffer} {perturbation : Perturbation} {random : Random}
    (performed : tracking.perform (.rollback input perturbation random) = some next) :
    Undoes origin next := by
  obtain ⟨_, covered, rollback, checkpoint, memory, rolled⟩ := undoes.rolledBack small performed
  refine ⟨?_, ?_, ?_, ?_, ?_⟩
  · rw [memory, rolled.size, undoes.size]
  · rw [checkpoint, rolled.armed]
  · rw [checkpoint, memory, rolled.size]
    exact rolled.inside
  · intro address
    rw [checkpoint, memory, rolled.recalledByte_eq, undoes.recalled]
  · simp [coveredAddresses, covered]

theorem Undoes.perform (small : origin.size < addressSpace) (undoes : Undoes origin tracking)
    {act : TrackedAct} (performed : tracking.perform act = some next) : Undoes origin next := by
  cases act with
  | log access =>
      simp only [Tracking.perform] at performed
      split at performed
      · exact Option.some.inj performed ▸ undoes
      · rename_i done
        exact Option.some.inj performed ▸ undoes.log done
  | write address values =>
      simp only [Tracking.perform] at performed
      split at performed
      · rename_i covered
        split at performed
        · cases performed
        · rename_i wrote
          refine Option.some.inj performed ▸ undoes.write wrote fun other within => ?_
          simpa using List.all_eq_true.mp covered other within
      · cases performed
  | rollback input perturbation random => exact undoes.rollback small performed

theorem Undoes.performAll (small : origin.size < addressSpace) (undoes : Undoes origin tracking)
    {acts : List TrackedAct} (performed : tracking.performAll acts = some next) :
    Undoes origin next := by
  induction acts generalizing tracking with
  | nil => exact Option.some.inj performed ▸ undoes
  | cons act rest ih =>
      obtain ⟨middle, first, others⟩ := Option.bind_eq_some_iff.mp performed
      exact ih (undoes.perform small first) others

theorem Undoes.restores (small : origin.size < addressSpace) (undoes : Undoes origin tracking)
    {input : InputBuffer} {perturbation : Perturbation} {random : Random}
    (performed : tracking.perform (.rollback input perturbation random) = some next) :
    Restores origin input perturbation random next := by
  obtain ⟨fits, _, rollback, checkpoint, memory, rolled⟩ := undoes.rolledBack small performed
  have smallToo : tracking.memory.size < addressSpace := undoes.size.symm ▸ small
  have written := Perturbation.mem_ranges_iff smallToo fits random
  have size : next.memory.size = origin.size := by rw [memory, rolled.size, undoes.size]
  have perturbed : ∀ address ∈ (perturbation.ranges input).flatMap MemoryRange.addresses,
      perturbation.value? input random address = some (next.memory.byte address) := by
    intro address member
    obtain ⟨value, known⟩ := Option.isSome_iff_exists.mp ((written address).mp member)
    rw [memory, rolled.byte, known, Option.getD_some]
  have spared : ∀ address ∉ (perturbation.ranges input).flatMap MemoryRange.addresses,
      perturbation.value? input random address = none := by
    intro address absent
    simpa using mt (written address).mpr absent
  refine ⟨size, perturbed, fun address absent => ?_, fun address member => ?_,
    fun address absent => ?_, ?_⟩
  · rw [memory, rolled.byte, spared address absent, Option.getD_none, undoes.recalled]
  · rw [checkpoint, rolled.writeLog, if_pos ((written address).mp member), undoes.recalled]
  · simp [checkpoint, rolled.writeLog, spared address absent]
  · rintro bytes rfl offset bound
    have within : input.contains (input.address + offset) := by
      rw [input.contains_iff]
      omega
    have known := perturbed (input.address + offset) ((written _).mpr (by
      rwa [Perturbation.isSome_value?_input]))
    rw [Perturbation.value?, if_pos within, Nat.add_sub_cancel_left, Option.some.injEq] at known
    exact known.symm

/-- Whatever was logged, written and rolled back before, a rollback leads to the memory that the
checkpoint was created in, under the perturbation. -/
theorem performAll_restores (position : Nat) (processor : Processor)
    (inputBytes : Std.ExtTreeSet Nat) (small : origin.size < addressSpace) (acts : List TrackedAct)
    {input : InputBuffer} {perturbation : Perturbation} {random : Random}
    (performed : (start position processor inputBytes origin).performAll
      (acts ++ [.rollback input perturbation random]) = some next) :
    Restores origin input perturbation random next := by
  rw [performAll_concat] at performed
  obtain ⟨before, earlier, last⟩ := Option.bind_eq_some_iff.mp performed
  have undoes := (start_undoes position processor inputBytes origin).performAll small earlier
  exact undoes.restores small last

def rewrites : List TrackedAct :=
  [.log ⟨2, 3⟩, .log ⟨7, 2⟩, .write 2 [1, 2, 3], .log ⟨1, 4⟩, .write 1 [4, 5, 6, 7],
    .rollback ⟨3, 3⟩ (.input [8, 9]) (Random.ofSeed 0), .log ⟨4, 2⟩,
    .write 4 [10, 11]]

theorem performAll_rewrites_restores :
    ∃ next, (start 0 ⟨codeBase, ∅⟩ ∅ (Memory.zero 8)).performAll
        (rewrites ++ [.rollback ⟨6, 2⟩ (.input [12]) (Random.ofSeed 0)]) = some next ∧
      Restores (Memory.zero 8) ⟨6, 2⟩ (.input [12]) (Random.ofSeed 0) next := by
  have performs : ((start 0 ⟨codeBase, ∅⟩ ∅ (Memory.zero 8)).performAll
      (rewrites ++ [.rollback ⟨6, 2⟩ (.input [12]) (Random.ofSeed 0)])).isSome := by
    decide +kernel
  obtain ⟨next, performed⟩ := Option.isSome_iff_exists.mp performs
  exact ⟨next, performed, performAll_restores 0 ⟨codeBase, ∅⟩ ∅ (by decide) rewrites performed⟩

end Tracking

end BranchSteer
