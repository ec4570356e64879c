import BranchSteer.Checkpoint

/-!
What the log of a checkpoint tells about the memory. A checkpoint recalls a byte as its log has it, and
as the memory has it if the log does not know it. Logging never changes what is recalled, a write to
logged addresses does not either, and a rollback turns the memory into what the checkpoint recalls,
apart from the perturbation.
-/

namespace BranchSteer

theorem of_getElem?_concat {α : Type} {items : List α} {last item : α} {index : Nat}
    (found : (items ++ [last])[index]? = some item) :
    items[index]? = some item ∨ index = items.length ∧ item = last := by
  rcases Nat.lt_trichotomy index items.length with below | rfl | above
  · exact Or.inl (by rwa [List.getElem?_append_left below] at found)
  · exact Or.inr ⟨rfl, by simpa using found.symm⟩
  · rw [List.getElem?_eq_none (by simp; omega)] at found
    cases found

theorem of_getElem?_push {α : Type} {items : Array α} {last item : α} {index : Nat}
    (found : (items.push last)[index]? = some item) :
    items[index]? = some item ∨ index = items.size ∧ item = last := by
  rw [Array.getElem?_push] at found
  split at found
  · rename_i here
    exact Or.inr ⟨here, (Option.some.inj found).symm⟩
  · exact Or.inl found

namespace MemoryRange

theorem mem_addresses (access : MemoryRange) (address : Nat) :
    address ∈ access.addresses ↔ access.address ≤ address ∧ address < access.stop := by
  simp only [addresses, rangeAddresses, stop, List.mem_range'_1]
  omega

theorem mem_addresses_of_le {access : MemoryRange} {size : Nat}
    (inside : access.address + access.length ≤ size) (small : size < addressSpace) (address : Nat) :
    address ∈ access.addresses ↔
      access.address ≤ address ∧ address < access.address + access.length := by
  rw [mem_addresses, stop, rangeStop]
  omega

theorem lt_of_mem_addresses {access : MemoryRange} {address : Nat}
    (member : address ∈ access.addresses) : address < access.address + access.length := by
  rw [mem_addresses, stop, rangeStop] at member
  omega

theorem zip_range'_map (value : Nat → UInt8) (start shorter longer : Nat)
    (bound : shorter ≤ longer) :
    (List.range' start shorter).zip ((List.range' start longer).map value) =
      (List.range' start shorter).map fun address => (address, value address) := by
  induction shorter generalizing start longer with
  | zero => simp
  | succ shorter ih =>
      cases longer with
      | zero => omega
      | succ longer => simp [List.range'_succ, ih (start + 1) longer (by omega)]

theorem zip_addresses (access : MemoryRange) (value : Nat → UInt8) :
    access.addresses.zip ((List.range' access.address access.length).map value) =
      access.addresses.map fun address => (address, value address) := by
  apply zip_range'_map
  simp only [rangeStop]
  omega

end MemoryRange

namespace Execution

def Reads (execution : Execution) (address : Nat) : Prop :=
  address ∈ execution.reads.flatMap MemoryRange.addresses

def Writes (execution : Execution) (address : Nat) : Prop :=
  address ∈ execution.writes.flatMap MemoryRange.addresses

def Touches (execution : Execution) (address : Nat) : Prop :=
  execution.Reads address ∨ execution.Writes address

end Execution

namespace Memory

theorem read_eq_ok_iff (memory : Memory) (address length : Nat) (values : List UInt8) :
    memory.read address length = .ok values ↔
      address + length ≤ memory.size ∧
        (List.range' address length).map memory.byte = values := by
  unfold read
  split <;> simp [*]

theorem read_eq_error {memory : Memory} {address length : Nat} {fault : Fault}
    (failed : memory.read address length = .error fault) :
    fault = .readOutOfBounds ⟨address, length⟩ ∧ memory.size < address + length := by
  unfold read at failed
  split at failed
  · simp at failed
  · simp only [Except.error.injEq] at failed
    exact ⟨failed.symm, by omega⟩

theorem writeAll_bytes (memory : Memory) (entries : List (Nat × UInt8))
    (inside : ∀ entry ∈ entries, entry.1 < memory.size)
    (distinct : entries.Pairwise fun first second => first.1 ≠ second.1) :
    ∃ written, memory.writeAll (entries.map fun entry => (entry.1, [entry.2])) = (written, none) ∧
      written.size = memory.size ∧
      (∀ entry ∈ entries, written.byte entry.1 = entry.2) ∧
      ∀ address, (∀ entry ∈ entries, entry.1 ≠ address) →
        written.byte address = memory.byte address := by
  induction entries generalizing memory with
  | nil => exact ⟨memory, by simp [writeAll]⟩
  | cons entry rest ih =>
      obtain ⟨address, value⟩ := entry
      simp only [List.pairwise_cons, List.forall_mem_cons] at distinct inside
      obtain ⟨written, all, size, inner, outer⟩ := ih (memory.setBytes address [value])
        (by simpa using inside.2) distinct.2
      have here : memory.write address [value] = .ok (memory.setBytes address [value]) := by
        rw [write_eq_ok_iff]
        exact ⟨by simp only [List.length_singleton]; omega, rfl⟩
      have first : written.byte address = value := by
        rw [outer address fun other member => (distinct.1 other member).symm]
        simp [byte_setBytes]
      refine ⟨written, ?_, by simpa using size, ?_, ?_⟩
      · simp only [List.map_cons, writeAll, here, all]
      · simpa using ⟨first, fun other otherValue member => inner (other, otherValue) member⟩
      · intro other absent
        simp only [List.forall_mem_cons] at absent
        rw [outer other absent.2, byte_setBytes]
        have different : other - address ≠ 0 ∨ other < address := by omega
        split
        · rw [List.getElem?_eq_none (by simp only [List.length_singleton]; omega)]
          rfl
        · rfl

end Memory

namespace Checkpoint

def recalledByte (checkpoint : Checkpoint) (memory : Memory) (address : Nat) : UInt8 :=
  checkpoint.writeLog[address]?.getD (memory.byte address)

theorem getElem?_logFirst (log : WriteLog) (addresses : List Nat) (value : Nat → UInt8)
    (address : Nat) :
    (logFirst log (addresses.map fun other => (other, value other)))[address]? =
      log[address]?.or (if address ∈ addresses then some (value address) else none) := by
  induction addresses generalizing log with
  | nil => simp [logFirst]
  | cons first rest ih =>
      simp only [List.map_cons, logFirst, ih, Std.ExtTreeMap.getElem?_insertIfNew,
        List.mem_cons, Nat.compare_eq_eq]
      by_cases same : first = address
      · subst same
        by_cases known : first ∈ log
        · simp [known]
        · simp [known]
      · have other : address ≠ first := fun equal => same equal.symm
        simp [same, other]

/-- The bytes at some addresses were logged, as far as they were not logged before. Only an armed
checkpoint logs. -/
structure Logged (memory : Memory) (addresses : List Nat) (before after : Checkpoint) : Prop where
  position : after.position = before.position
  processor : after.processor = before.processor
  inputBytes : after.inputBytes = before.inputBytes
  armed : after.armed = before.armed
  writeLog : ∀ address : Nat, after.writeLog[address]? = before.writeLog[address]?.or
    (if before.armed ∧ address ∈ addresses then some (memory.byte address) else none)
  inside : ∀ address ∈ after.writeLog, address ∈ before.writeLog ∨ address < memory.size

theorem Logged.refl (memory : Memory) (checkpoint : Checkpoint) :
    Logged memory [] checkpoint checkpoint := by
  constructor <;> simp +contextual

theorem Logged.trans {memory : Memory} {first second : List Nat} {before middle after : Checkpoint}
    (one : Logged memory first before middle) (two : Logged memory second middle after) :
    Logged memory (first ++ second) before after := by
  constructor
  · rw [two.position, one.position]
  · rw [two.processor, one.processor]
  · rw [two.inputBytes, one.inputBytes]
  · rw [two.armed, one.armed]
  · intro address
    simp only [two.writeLog, one.writeLog, one.armed, List.mem_append]
    by_cases here : before.armed ∧ address ∈ first
    · simp [here]
    · by_cases armed : before.armed <;> simp_all
  · intro address member
    rcases two.inside address member with known | bound
    · exact one.inside address known
    · exact Or.inr bound

theorem Logged.mem_iff {memory : Memory} {addresses : List Nat} {before after : Checkpoint}
    (logged : Logged memory addresses before after) (address : Nat) :
    address ∈ after.writeLog ↔
      address ∈ before.writeLog ∨ (before.armed ∧ address ∈ addresses) := by
  rw [Std.ExtTreeMap.mem_iff_isSome_getElem?, Std.ExtTreeMap.mem_iff_isSome_getElem?,
    logged.writeLog, Option.isSome_or, Bool.or_eq_true]
  by_cases here : before.armed ∧ address ∈ addresses <;> simp [here]

theorem Logged.recalledByte_eq {memory : Memory} {addresses : List Nat}
    {before after : Checkpoint} (logged : Logged memory addresses before after) (address : Nat) :
    after.recalledByte memory address = before.recalledByte memory address := by
  unfold recalledByte
  rw [logged.writeLog]
  cases before.writeLog[address]? with
  | some value => simp
  | none =>
      by_cases here : before.armed ∧ address ∈ addresses <;> simp [here]

theorem recalledByte_of_agree {checkpoint : Checkpoint} {memory written : Memory} {address : Nat}
    (agree : address ∉ checkpoint.writeLog → written.byte address = memory.byte address) :
    checkpoint.recalledByte written address = checkpoint.recalledByte memory address := by
  unfold recalledByte
  by_cases known : address ∈ checkpoint.writeLog
  · simp [Std.ExtTreeMap.getElem?_eq_some_getElem known]
  · simp [Std.ExtTreeMap.getElem?_eq_none known, agree known]

theorem logValues_logged {checkpoint : Checkpoint} {memory : Memory} {access : MemoryRange}
    {values : List UInt8} (armed : checkpoint.armed)
    (readable : memory.read access.address access.length = .ok values) :
    Logged memory access.addresses checkpoint
      (checkpoint.logValues (access.addresses.zip values)) := by
  rw [Memory.read_eq_ok_iff] at readable
  rw [← readable.2, MemoryRange.zip_addresses]
  have found := getElem?_logFirst checkpoint.writeLog access.addresses memory.byte
  refine ⟨rfl, rfl, rfl, rfl, ?_, ?_⟩
  · intro address
    simpa [logValues, armed] using found address
  · intro address member
    rw [Std.ExtTreeMap.mem_iff_isSome_getElem?, logValues, found, Option.isSome_or,
      Bool.or_eq_true, ← Std.ExtTreeMap.mem_iff_isSome_getElem?] at member
    refine member.imp id fun fresh => ?_
    have within : address ∈ access.addresses := by
      by_cases here : address ∈ access.addresses
      · exact here
      · simp [here] at fresh
    have bound := MemoryRange.lt_of_mem_addresses within
    omega

theorem logRange_logged {checkpoint tracked : Checkpoint} {memory : Memory} {access : MemoryRange}
    (armed : checkpoint.armed) (done : checkpoint.logRange memory access = .ok tracked) :
    Logged memory access.addresses checkpoint tracked := by
  unfold logRange at done
  split at done
  · rename_i known
    simp only [Except.ok.injEq] at done
    subst tracked
    refine ⟨rfl, rfl, rfl, rfl, ?_, fun _ => Or.inl⟩
    intro address
    rw [hasLogged, MemoryRange.all_eq_all_addresses, List.all_eq_true] at known
    by_cases member : address ∈ access.addresses
    · have found : address ∈ checkpoint.writeLog :=
        Std.ExtTreeMap.mem_iff_contains.mpr (known address member)
      simp [Std.ExtTreeMap.getElem?_eq_some_getElem found]
    · simp [member]
  · split at done
    · simp at done
    · rename_i values readable
      simp only [Except.ok.injEq] at done
      subst tracked
      exact logValues_logged armed readable

theorem logRange_isOk (checkpoint : Checkpoint) {memory : Memory} {access : MemoryRange}
    (inside : access.address + access.length ≤ memory.size) :
    ∃ tracked, checkpoint.logRange memory access = .ok tracked := by
  unfold logRange
  split
  · exact ⟨_, rfl⟩
  · rw [(Memory.read_eq_ok_iff memory _ _ _).mpr ⟨inside, rfl⟩]
    exact ⟨_, rfl⟩

theorem logRanges_logged {checkpoint tracked : Checkpoint} {memory : Memory}
    {ranges : List MemoryRange} (armed : checkpoint.armed)
    (done : checkpoint.logRanges memory ranges = (tracked, none)) :
    Logged memory (ranges.flatMap MemoryRange.addresses) checkpoint tracked := by
  induction ranges generalizing checkpoint with
  | nil =>
      simp only [logRanges, Prod.mk.injEq, and_true] at done
      exact done ▸ Logged.refl memory checkpoint
  | cons access rest ih =>
      simp only [logRanges] at done
      split at done
      · simp at done
      · rename_i next first
        have one := logRange_logged armed first
        simpa using one.trans (ih (one.armed ▸ armed) done)

theorem logRanges_isOk (checkpoint : Checkpoint) {memory : Memory} {ranges : List MemoryRange}
    (inside : ∀ access ∈ ranges, access.address + access.length ≤ memory.size) :
    ∃ tracked, checkpoint.logRanges memory ranges = (tracked, none) := by
  induction ranges generalizing checkpoint with
  | nil => exact ⟨checkpoint, rfl⟩
  | cons access rest ih =>
      simp only [List.forall_mem_cons] at inside
      obtain ⟨next, first⟩ := checkpoint.logRange_isOk inside.1
      obtain ⟨tracked, others⟩ := ih next inside.2
      exact ⟨tracked, by simp only [logRanges, first, others]⟩

theorem undo_eq (checkpoint : Checkpoint) (memory : Memory)
    (inside : ∀ address ∈ checkpoint.writeLog, address < memory.size) :
    ∃ restored, undo checkpoint.writeLog memory = (restored, none) ∧
      restored.size = memory.size ∧
      ∀ address, restored.byte address = checkpoint.recalledByte memory address := by
  have within : ∀ entry ∈ checkpoint.writeLog.toList, entry.1 < memory.size := by
    intro entry member
    apply inside
    rw [Std.ExtTreeMap.mem_iff_isSome_getElem?,
      Std.ExtTreeMap.mem_toList_iff_getElem?_eq_some.mp member]
    rfl
  have distinct : checkpoint.writeLog.toList.Pairwise fun first second =>
      first.1 ≠ second.1 := by
    refine Std.ExtTreeMap.distinct_keys_toList.imp fun different same => ?_
    exact different (Nat.compare_eq_eq.mpr same)
  obtain ⟨restored, all, size, inner, outer⟩ := memory.writeAll_bytes _ within distinct
  refine ⟨restored, all, size, ?_⟩
  intro address
  unfold recalledByte
  cases found : checkpoint.writeLog[address]? with
  | some value =>
      exact inner (address, value) (Std.ExtTreeMap.mem_toList_iff_getElem?_eq_some.mpr found)
  | none =>
      apply outer
      rintro ⟨other, value⟩ member same
      have here := Std.ExtTreeMap.mem_toList_iff_getElem?_eq_some.mp member
      simp only at same
      subst same
      simp [here] at found

end Checkpoint

end BranchSteer
