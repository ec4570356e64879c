import BranchSteer.Fault
import Std.Data.ExtTreeMap

/-!
The memory of the observed process: `size` bytes that are zero until they are written.

Only bytes other than zero are stored, so memories of one size are equal as soon as they agree on every
byte (`Memory.ext_byte`).
-/

namespace BranchSteer

structure Memory where
  size : Nat
  bytes : Std.ExtTreeMap Nat UInt8
  stored_ne_zero : ∀ address : Nat, bytes[address]? ≠ some 0

namespace Memory

def zero (size : Nat) : Memory := ⟨size, ∅, by simp⟩

def byte (memory : Memory) (address : Nat) : UInt8 := memory.bytes[address]?.getD 0

def setByte (memory : Memory) (address : Nat) (value : UInt8) : Memory :=
  if isZero : value = 0 then
    { memory with
      bytes := memory.bytes.erase address
      stored_ne_zero := by
        intro other
        have stored := memory.stored_ne_zero other
        simp only [Std.ExtTreeMap.getElem?_erase]
        split
        · simp
        · exact stored }
  else
    { memory with
      bytes := memory.bytes.insert address value
      stored_ne_zero := by
        intro other
        have stored := memory.stored_ne_zero other
        simp only [Std.ExtTreeMap.getElem?_insert]
        split
        · simpa using isZero
        · exact stored }

def setBytes (memory : Memory) (address : Nat) : List UInt8 → Memory
  | [] => memory
  | value :: rest => (memory.setByte address value).setBytes (address + 1) rest

/-- Fails unless the whole range lies inside the memory. An empty range may start at its end. -/
def read (memory : Memory) (address : Nat) (length : Nat) : Except Fault (List UInt8) :=
  if address + length ≤ memory.size then
    .ok ((List.range' address length).map memory.byte)
  else .error (.readOutOfBounds ⟨address, length⟩)

def write (memory : Memory) (address : Nat) (values : List UInt8) : Except Fault Memory :=
  if address + values.length ≤ memory.size then .ok (memory.setBytes address values)
  else .error (.writeOutOfBounds ⟨address, values.length⟩)

/-- Writes several ranges one after the other, up to the first that does not lie inside the memory. -/
def writeAll (memory : Memory) : List (Nat × List UInt8) → Memory × Option Fault
  | [] => (memory, none)
  | (address, values) :: rest =>
    match memory.write address values with
    | .ok written => written.writeAll rest
    | .error fault => (memory, some fault)

@[simp] theorem size_setByte (memory : Memory) (address : Nat) (value : UInt8) :
    (memory.setByte address value).size = memory.size := by
  unfold setByte
  split <;> rfl

theorem byte_setByte (memory : Memory) (address other : Nat) (value : UInt8) :
    (memory.setByte address value).byte other =
      if other = address then value else memory.byte other := by
  unfold setByte byte
  by_cases same : other = address
  · by_cases isZero : value = 0 <;> simp [isZero, same]
  · have different : ¬address = other := fun equal => same equal.symm
    by_cases isZero : value = 0 <;>
      simp [isZero, same, different, Std.ExtTreeMap.getElem?_erase, Std.ExtTreeMap.getElem?_insert]

@[simp] theorem size_setBytes (memory : Memory) (address : Nat) (values : List UInt8) :
    (memory.setBytes address values).size = memory.size := by
  induction values generalizing memory address with
  | nil => rfl
  | cons value rest ih => simp [setBytes, ih]

theorem byte_setBytes (memory : Memory) (address other : Nat) (values : List UInt8) :
    (memory.setBytes address values).byte other =
      if address ≤ other then values[other - address]?.getD (memory.byte other)
      else memory.byte other := by
  induction values generalizing memory address with
  | nil => simp [setBytes]
  | cons value rest ih =>
    rw [setBytes, ih, byte_setByte]
    by_cases same : other = address
    · subst same
      have before : ¬ other + 1 ≤ other := by omega
      simp [before]
    · by_cases above : address ≤ other
      · have behind : address + 1 ≤ other := by omega
        have offset : other - address = (other - (address + 1)) + 1 := by omega
        simp [same, above, behind, offset]
      · have behind : ¬ address + 1 ≤ other := by omega
        simp [same, above, behind]

theorem write_eq_ok_iff (memory written : Memory) (address : Nat) (values : List UInt8) :
    memory.write address values = .ok written ↔
      address + values.length ≤ memory.size ∧ memory.setBytes address values = written := by
  unfold write
  split <;> simp [*]

theorem ext_byte {left right : Memory} (sameSize : left.size = right.size)
    (sameBytes : ∀ address, left.byte address = right.byte address) : left = right := by
  have sameStored : left.bytes = right.bytes := by
    apply Std.ExtTreeMap.ext_getElem?
    intro address
    have here := sameBytes address
    have leftStored := left.stored_ne_zero address
    have rightStored := right.stored_ne_zero address
    unfold byte at here
    cases leftFound : left.bytes[address]? <;> cases rightFound : right.bytes[address]? <;>
      simp_all
  cases left
  cases right
  simp_all

end Memory

end BranchSteer
