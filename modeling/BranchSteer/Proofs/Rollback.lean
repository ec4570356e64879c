import BranchSteer.Proofs.WriteLog

/-!
What a perturbation writes, and what a rollback leaves behind: the recalled memory under the writes of
the perturbation, and a log that recalls the same as before.
-/

namespace BranchSteer

theorem Random.length_bytes (count : Nat) (random : Random) :
    (random.bytes count).1.length = count := by
  induction count generalizing random with
  | zero => rfl
  | succ count ih => simp [Random.bytes, ih]

namespace InputBuffer

theorem contains_iff (input : InputBuffer) (address : Nat) :
    input.contains address ↔
      input.address ≤ address ∧ address < input.address + input.length := by
  simp only [contains, Bool.and_eq_true, decide_eq_true_eq]
  omega

end InputBuffer

namespace Memory

theorem inside_of_writeAll {memory written : Memory} {entries : List (Nat × List UInt8)}
    (wrote : memory.writeAll entries = (written, none)) :
    ∀ entry ∈ entries, entry.1 + entry.2.length ≤ memory.size := by
  induction entries generalizing memory with
  | nil => simp
  | cons entry rest ih =>
      obtain ⟨address, values⟩ := entry
      rw [writeAll] at wrote
      cases first : memory.write address values with
      | error fault => simp [first] at wrote
      | ok next =>
          obtain ⟨bound, rfl⟩ := (write_eq_ok_iff memory next address values).mp first
          rw [first] at wrote
          simpa [List.forall_mem_cons, bound] using ih wrote

theorem writeAll_lookup (memory : Memory) (entries : List (Nat × UInt8))
    (inside : ∀ entry ∈ entries, entry.1 < memory.size)
    (distinct : entries.Pairwise fun first second => first.1 ≠ second.1) :
    ∃ written, memory.writeAll (entries.map fun entry => (entry.1, [entry.2])) = (written, none) ∧
      written.size = memory.size ∧
      ∀ address, written.byte address = (entries.lookup address).getD (memory.byte address) := by
  obtain ⟨written, all, size, inner, outer⟩ := memory.writeAll_bytes entries inside distinct
  refine ⟨written, all, size, ?_⟩
  intro address
  cases found : entries.lookup address with
  | some value =>
      obtain ⟨front, back, shape, _⟩ := List.lookup_eq_some_iff.mp found
      exact inner (address, value) (by simp [shape])
  | none =>
      rw [List.lookup_eq_none_iff] at found
      exact outer address fun entry member same => by simpa [same] using found entry member

theorem read_eq_of_byte {memory : Memory} {address : Nat} {values : List UInt8}
    (inside : address + values.length ≤ memory.size)
    (bytes : ∀ (offset : Nat) (bound : offset < values.length),
      memory.byte (address + offset) = values[offset]) :
    memory.read address values.length = .ok values := by
  rw [read_eq_ok_iff]
  refine ⟨inside, List.ext_getElem (by simp) fun offset _ bound => ?_⟩
  simpa using bytes offset bound

end Memory

theorem map_lookup_zip {keys : List Nat} {values : List UInt8} (distinct : keys.Nodup)
    (length : values.length = keys.length) :
    (keys.map fun key => (keys.zip values).lookup key) = values.map some := by
  induction keys generalizing values with
  | nil => simp [List.length_eq_zero_iff.mp length]
  | cons key rest ih =>
      obtain ⟨value, others, rfl⟩ := List.exists_cons_of_length_eq_add_one length
      obtain ⟨fresh, distinct⟩ := List.nodup_cons.mp distinct
      have behind : ∀ other ∈ rest, ((key, value) :: rest.zip others).lookup other =
          (rest.zip others).lookup other := by
        intro other member
        have differs : (other == key) = false := beq_false_of_ne fun same => fresh (same ▸ member)
        simp only [List.lookup_cons, differs]
      rw [List.zip_cons_cons, List.map_cons, List.map_cons, List.lookup_cons_self,
        List.map_congr_left behind, ih distinct (by simpa using length)]

namespace Perturbation

/-- The value that a perturbation gives to an address. Bytes that an input lacks are zero, and random
values are drawn for the addresses from the lowest to the highest. -/
def value? (input : InputBuffer) (random : Random) (perturbation : Perturbation) (address : Nat) :
    Option UInt8 :=
  match perturbation with
  | .none => Option.none
  | .input bytes =>
    if input.contains address then some (bytes[address - input.address]?.getD 0) else Option.none
  | .randomize addresses =>
    (addresses.toList.zip (random.bytes addresses.size).1).lookup address
  | .assign values => values[address]?

def Fits (input : InputBuffer) (size : Nat) (perturbation : Perturbation) : Prop :=
  ∀ access ∈ perturbation.ranges input, access.address + access.length ≤ size

theorem length_fitted (length : Nat) (bytes : List UInt8) :
    (fitted length bytes).length = length := by
  simp only [fitted, List.length_append, List.length_take, List.length_replicate]
  omega

theorem getElem?_fitted {length offset : Nat} (bound : offset < length) (bytes : List UInt8) :
    (fitted length bytes)[offset]? = some (bytes[offset]?.getD 0) := by
  unfold fitted
  by_cases given : offset < bytes.length
  · rw [List.getElem?_append_left (by rw [List.length_take]; omega), List.getElem?_take_of_lt bound,
      List.getElem?_eq_getElem given, Option.getD_some]
  · have missing : offset - (bytes.take length).length < length - bytes.length := by
      rw [List.length_take]
      omega
    rw [List.getElem?_append_right (by rw [List.length_take]; omega),
      List.getElem?_replicate_of_lt missing, List.getElem?_eq_none (by omega), Option.getD_none]

theorem isSome_value?_input (input : InputBuffer) (random : Random) (bytes : List UInt8)
    (address : Nat) :
    (value? input random (.input bytes) address).isSome ↔ input.contains address := by
  by_cases inside : input.contains address <;> simp [value?, inside]

theorem value?_input {input : InputBuffer} {bytes : List UInt8} (length : bytes.length = input.length)
    (random : Random) {address : Nat} (inside : input.contains address) :
    value? input random (.input bytes) address = bytes[address - input.address]? := by
  have bounds := (input.contains_iff address).mp inside
  have given : address - input.address < bytes.length := by omega
  rw [value?, if_pos inside, List.getElem?_eq_getElem given, Option.getD_some]

theorem drawn_keys (addresses : Std.ExtTreeSet Nat) (random : Random) :
    (addresses.toList.zip (random.bytes addresses.size).1).map Prod.fst = addresses.toList := by
  apply List.map_fst_zip
  simp [Random.length_bytes]

theorem isSome_value?_randomize (input : InputBuffer) (random : Random)
    (addresses : Std.ExtTreeSet Nat) (address : Nat) :
    (value? input random (.randomize addresses) address).isSome ↔ address ∈ addresses := by
  have keys := List.mem_map (f := Prod.fst) (b := address)
    (l := addresses.toList.zip (random.bytes addresses.size).1)
  rw [drawn_keys, Std.ExtTreeSet.mem_toList] at keys
  rw [value?, List.lookup_isSome_iff, keys]
  simp only [beq_iff_eq, eq_comm (a := address)]

theorem map_value?_randomize (input : InputBuffer) (random : Random)
    (addresses : Std.ExtTreeSet Nat) :
    addresses.toList.map (value? input random (.randomize addresses)) =
      (random.bytes addresses.size).1.map some := by
  refine map_lookup_zip ?_ ?_
  · exact Std.ExtTreeSet.distinct_toList.imp fun different same =>
      different (Nat.compare_eq_eq.mpr same)
  · rw [Random.length_bytes, Std.ExtTreeSet.length_toList]

theorem isSome_value?_assign (input : InputBuffer) (random : Random)
    (values : Std.ExtTreeMap Nat UInt8) (address : Nat) :
    (value? input random (.assign values) address).isSome ↔ address ∈ values := by
  rw [value?, Std.ExtTreeMap.mem_iff_isSome_getElem?]

theorem singletons_addresses {addresses : List Nat} {size : Nat} (small : size < addressSpace)
    (inside : ∀ access ∈ addresses.map fun address => (⟨address, 1⟩ : MemoryRange),
      access.address + access.length ≤ size) (address : Nat) :
    address ∈ (addresses.map fun other => (⟨other, 1⟩ : MemoryRange)).flatMap
      MemoryRange.addresses ↔ address ∈ addresses := by
  simp only [List.mem_flatMap, List.mem_map]
  constructor
  · rintro ⟨access, ⟨other, member, rfl⟩, within⟩
    rw [MemoryRange.mem_addresses_of_le (inside _ (List.mem_map_of_mem member)) small] at within
    have same : address = other := by simp only at within; omega
    exact same ▸ member
  · intro member
    refine ⟨⟨address, 1⟩, ⟨address, member, rfl⟩, ?_⟩
    rw [MemoryRange.mem_addresses_of_le (inside _ (List.mem_map_of_mem member)) small]
    exact ⟨Nat.le_refl _, Nat.lt_succ_self _⟩

theorem mem_ranges_iff {input : InputBuffer} {size : Nat} {perturbation : Perturbation}
    (small : size < addressSpace) (fits : perturbation.Fits input size) (random : Random)
    (address : Nat) :
    address ∈ (perturbation.ranges input).flatMap MemoryRange.addresses ↔
      (perturbation.value? input random address).isSome := by
  cases perturbation with
  | none => simp [ranges, value?]
  | input bytes =>
      rw [isSome_value?_input, input.contains_iff, ranges, List.flatMap_singleton]
      exact MemoryRange.mem_addresses_of_le (fits _ (by simp [ranges])) small address
  | randomize addresses =>
      rw [isSome_value?_randomize, ranges, singletons_addresses small fits,
        Std.ExtTreeSet.mem_toList]
  | assign values =>
      rw [isSome_value?_assign, ranges, singletons_addresses small fits,
        Std.ExtTreeMap.mem_keys]

theorem writeAll_drawn (memory : Memory) (random : Random) (addresses : List Nat) :
    memory.writeAll ((addresses.zip (random.bytes addresses.length).1).map fun entry =>
        (entry.1, [entry.2])) =
      ((drawAll memory random addresses).memory, (drawAll memory random addresses).fault) := by
  induction addresses generalizing memory random with
  | nil => rfl
  | cons address rest ih =>
      simp only [List.length_cons, Random.bytes, List.zip_cons_cons, List.map_cons, Memory.writeAll,
        drawAll]
      cases memory.write address [random.byte.1] with
      | error fault => rfl
      | ok written => exact ih written random.byte.2

def entries (input : InputBuffer) (random : Random) : Perturbation → List (Nat × List UInt8)
  | .none => []
  | .input bytes => [(input.address, fitted input.length bytes)]
  | .randomize addresses =>
    (addresses.toList.zip (random.bytes addresses.size).1).map fun entry => (entry.1, [entry.2])
  | .assign values => values.toList.map fun entry => (entry.1, [entry.2])

theorem writeAll_entries (perturbation : Perturbation) (input : InputBuffer) (memory : Memory)
    (random : Random) :
    memory.writeAll (perturbation.entries input random) =
      ((perturbation.apply input memory random).memory,
        (perturbation.apply input memory random).fault) := by
  cases perturbation with
  | none => rfl
  | input bytes => rfl
  | randomize addresses =>
      rw [entries, ← Std.ExtTreeSet.length_toList]
      exact writeAll_drawn memory random addresses.toList
  | assign values => rfl

theorem fits_of_apply {input : InputBuffer} {memory : Memory} {random : Random}
    {perturbation : Perturbation} (done : (perturbation.apply input memory random).fault = .none) :
    perturbation.Fits input memory.size := by
  have wrote := perturbation.writeAll_entries input memory random
  rw [done] at wrote
  have inside := Memory.inside_of_writeAll wrote
  intro access member
  cases perturbation with
  | none => simp [ranges] at member
  | input bytes =>
      rw [ranges, List.mem_singleton] at member
      simpa [member, length_fitted] using inside _ (List.mem_singleton_self _)
  | randomize addresses =>
      rw [ranges, List.mem_map] at member
      obtain ⟨address, known, rfl⟩ := member
      rw [← drawn_keys addresses random, List.mem_map] at known
      obtain ⟨entry, drawn, rfl⟩ := known
      exact inside (entry.1, [entry.2]) (List.mem_map_of_mem drawn)
  | assign values =>
      rw [ranges, List.mem_map] at member
      obtain ⟨address, known, rfl⟩ := member
      rw [Std.ExtTreeMap.mem_keys] at known
      refine inside (address, [values[address]]) (List.mem_map.mpr ⟨(address, values[address]), ?_, rfl⟩)
      exact Std.ExtTreeMap.mem_toList_iff_getElem?_eq_some.mpr
        (Std.ExtTreeMap.getElem?_eq_some_getElem known)

theorem apply_bytes {memory : Memory} {input : InputBuffer} {perturbation : Perturbation}
    (fits : perturbation.Fits input memory.size) (random : Random) :
    ∃ written further, perturbation.apply input memory random = ⟨written, further, .none⟩ ∧
      written.size = memory.size ∧
      ∀ address, written.byte address =
        (perturbation.value? input random address).getD (memory.byte address) := by
  suffices writes : ∃ written, memory.writeAll (perturbation.entries input random) =
      (written, .none) ∧ written.size = memory.size ∧ ∀ address, written.byte address =
        (perturbation.value? input random address).getD (memory.byte address) by
    obtain ⟨written, all, size, bytes⟩ := writes
    rw [writeAll_entries, Prod.mk.injEq] at all
    refine ⟨written, (perturbation.apply input memory random).random, ?_, size, bytes⟩
    rw [← all.1, ← all.2]
  cases perturbation with
  | none => exact ⟨memory, rfl, rfl, fun _ => rfl⟩
  | input bytes =>
      have bound : input.address + (fitted input.length bytes).length ≤ memory.size := by
        rw [length_fitted]
        exact fits ⟨input.address, input.length⟩ (by simp [ranges])
      refine ⟨memory.setBytes input.address (fitted input.length bytes), ?_, by simp, ?_⟩
      · simp only [entries, Memory.writeAll, (Memory.write_eq_ok_iff memory _ _ _).mpr ⟨bound, rfl⟩]
      · intro address
        rw [Memory.byte_setBytes, value?]
        by_cases inside : input.contains address
        · obtain ⟨below, upTo⟩ := (input.contains_iff address).mp inside
          rw [if_pos below, if_pos inside, getElem?_fitted (by omega), Option.getD_some]
        · have outside := mt (input.contains_iff address).mpr inside
          simp only [inside, Bool.false_eq_true, if_false, Option.getD_none, ite_eq_right_iff]
          intro above
          rw [List.getElem?_eq_none (by rw [length_fitted]; omega), Option.getD_none]
  | randomize addresses =>
      have keys := drawn_keys addresses random
      have inside : ∀ entry ∈ addresses.toList.zip (random.bytes addresses.size).1,
          entry.1 < memory.size := by
        intro entry member
        have known : entry.1 ∈ addresses.toList := keys ▸ List.mem_map_of_mem member
        exact fits ⟨entry.1, 1⟩ (by simpa [ranges] using known)
      have distinct : (addresses.toList.zip (random.bytes addresses.size).1).Pairwise
          fun first second => first.1 ≠ second.1 := by
        rw [← List.pairwise_map (f := Prod.fst) (R := fun first second => first ≠ second), keys]
        exact Std.ExtTreeSet.distinct_toList.imp fun different same =>
          different (Nat.compare_eq_eq.mpr same)
      exact memory.writeAll_lookup _ inside distinct
  | assign values =>
      have inside : ∀ entry ∈ values.toList, entry.1 < memory.size := by
        intro entry member
        have known := Std.ExtTreeMap.mem_toList_iff_getElem?_eq_some.mp member
        exact fits ⟨entry.1, 1⟩ (by
          simp only [ranges, List.mem_map, Std.ExtTreeMap.mem_keys]
          exact ⟨entry.1, Std.ExtTreeMap.mem_iff_isSome_getElem?.mpr (by simp [known]), rfl⟩)
      have distinct : values.toList.Pairwise fun first second => first.1 ≠ second.1 :=
        Std.ExtTreeMap.distinct_keys_toList.imp fun different same =>
          different (Nat.compare_eq_eq.mpr same)
      obtain ⟨written, all, size, inner, outer⟩ := memory.writeAll_bytes _ inside distinct
      refine ⟨written, all, size, ?_⟩
      intro address
      rw [value?]
      cases found : values[address]? with
      | some value =>
          exact inner (address, value) (Std.ExtTreeMap.mem_toList_iff_getElem?_eq_some.mpr found)
      | none =>
          apply outer
          rintro ⟨other, value⟩ member rfl
          simp [Std.ExtTreeMap.mem_toList_iff_getElem?_eq_some.mp member] at found

end Perturbation

namespace Checkpoint

/-- A rollback gives back the registers and the recalled memory under the perturbation, and goes on to
recall what it recalled before. -/
structure RolledBack (before : Checkpoint) (memory : Memory) (input : InputBuffer)
    (perturbation : Perturbation) (random : Random) (after : Rollback) : Prop where
  result : after.result = .ok before.processor
  size : after.memory.size = memory.size
  byte : ∀ address, after.memory.byte address =
    (perturbation.value? input random address).getD (before.recalledByte memory address)
  position : after.checkpoint.position = before.position
  processor : after.checkpoint.processor = before.processor
  inputBytes : after.checkpoint.inputBytes = before.inputBytes
  armed : after.checkpoint.armed = true
  writeLog : ∀ address : Nat, after.checkpoint.writeLog[address]? =
    if (perturbation.value? input random address).isSome then
      some (before.recalledByte memory address)
    else none
  inside : ∀ address ∈ after.checkpoint.writeLog, address < memory.size

theorem rollback_rolledBack {checkpoint : Checkpoint} {memory : Memory} {input : InputBuffer}
    {perturbation : Perturbation} (small : memory.size < addressSpace)
    (inside : ∀ address ∈ checkpoint.writeLog, address < memory.size)
    (fits : perturbation.Fits input memory.size) (random : Random) :
    RolledBack checkpoint memory input perturbation random
      (checkpoint.rollback memory input perturbation random) := by
  obtain ⟨restored, undone, restoredSize, restoredByte⟩ := checkpoint.undo_eq memory inside
  rw [← restoredSize] at fits small
  obtain ⟨tracked, logged⟩ := ({ checkpoint with writeLog := ∅ } : Checkpoint).arm
    |>.logRanges_isOk fits
  have tracks := logRanges_logged rfl logged
  obtain ⟨written, further, wrote, writtenSize, writtenByte⟩ :=
    Perturbation.apply_bytes fits random
  have outcome : checkpoint.rollback memory input perturbation random =
      ⟨tracked, written, further, .ok checkpoint.processor⟩ := by
    simp only [rollback, undone, logged, wrote]
  rw [outcome]
  constructor
  · rfl
  · rw [writtenSize, restoredSize]
  · intro address
    rw [writtenByte, restoredByte]
  · exact tracks.position
  · exact tracks.processor
  · exact tracks.inputBytes
  · exact tracks.armed
  · intro address
    rw [tracks.writeLog, ← restoredByte]
    by_cases changed : (perturbation.value? input random address).isSome
    · simp [arm, changed, (Perturbation.mem_ranges_iff small fits random address).mpr changed]
    · simp [arm, changed, mt (Perturbation.mem_ranges_iff small fits random address).mp changed]
  · intro address member
    rw [← restoredSize]
    simpa [arm] using tracks.inside address member

/-- A rollback that does not fail leads to the recalled memory under the perturbation, whatever the log and
the memory hold. -/
theorem rollback_bytes {checkpoint : Checkpoint} {memory : Memory} {input : InputBuffer}
    {perturbation : Perturbation} {random : Random} {processor : Processor}
    (done : (checkpoint.rollback memory input perturbation random).result = .ok processor) :
    (checkpoint.rollback memory input perturbation random).memory.size = memory.size ∧
      perturbation.Fits input memory.size ∧
      ∀ address, (checkpoint.rollback memory input perturbation random).memory.byte address =
        (perturbation.value? input random address).getD (checkpoint.recalledByte memory address) := by
  unfold rollback at done ⊢
  cases undone : undo checkpoint.writeLog memory with
  | mk restored failure =>
      cases failure with
      | some fault => simp [undone] at done
      | none =>
          have inside : ∀ address ∈ checkpoint.writeLog, address < memory.size := by
            intro address known
            have entry := Std.ExtTreeMap.mem_toList_iff_getElem?_eq_some.mpr
              (Std.ExtTreeMap.getElem?_eq_some_getElem known)
            exact Memory.inside_of_writeAll undone (address, [checkpoint.writeLog[address]])
              (List.mem_map_of_mem entry)
          obtain ⟨also, same, restoredSize, restoredByte⟩ := checkpoint.undo_eq memory inside
          obtain rfl : restored = also := (Prod.mk.inj (undone.symm.trans same)).1
          simp only [undone] at done ⊢
          split at done
          · simp at done
          · split at done
            · simp at done
            · rename_i applied
              have fits := Perturbation.fits_of_apply (congrArg Perturbed.fault applied)
              obtain ⟨written, further, shape, size, bytes⟩ := Perturbation.apply_bytes fits random
              obtain ⟨rfl, rfl, _⟩ := Perturbed.mk.inj (applied.symm.trans shape)
              refine ⟨size.trans restoredSize, restoredSize ▸ fits, fun address => ?_⟩
              rw [bytes, restoredByte]

theorem RolledBack.recalledByte_eq {before : Checkpoint} {memory : Memory} {input : InputBuffer}
    {perturbation : Perturbation} {random : Random} {after : Rollback}
    (rolled : RolledBack before memory input perturbation random after) (address : Nat) :
    after.checkpoint.recalledByte after.memory address = before.recalledByte memory address := by
  unfold recalledByte
  rw [rolled.writeLog, rolled.byte]
  cases changed : perturbation.value? input random address with
  | none => simp [recalledByte]
  | some value => simp [recalledByte]

end Checkpoint

end BranchSteer
