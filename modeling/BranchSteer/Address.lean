/-!
Addresses, memory ranges and their written form. Addresses are the numbers below `addressSpace`; a range
may be described past their end, where `MemoryRange.end?` reports it and the enumeration is cut off.
-/

namespace BranchSteer

def addressSpace : Nat := 0x10000000000000000

def hexadecimal (value : Nat) : String := "0x" ++ String.ofList (Nat.toDigits 16 value)

def byteDigits (byte : UInt8) : List Char :=
  [Nat.digitChar (byte.toNat / 16), Nat.digitChar (byte.toNat % 16)]

def hexText (bytes : List UInt8) : String := String.ofList (bytes.flatMap byteDigits)

/-- The address behind a range, or `none` if the range leaves the address space. -/
def rangeEnd? (address : Nat) (length : Nat) : Option Nat :=
  if address + length < addressSpace then some (address + length) else none

def rangeStop (address : Nat) (length : Nat) : Nat :=
  min (address + length) (addressSpace - 1)

def rangeAddresses (address : Nat) (length : Nat) : List Nat :=
  List.range' address (rangeStop address length - address)

structure MemoryRange where
  address : Nat
  length : Nat
deriving DecidableEq, Repr

namespace MemoryRange

def end? (access : MemoryRange) : Option Nat := rangeEnd? access.address access.length

def stop (access : MemoryRange) : Nat := rangeStop access.address access.length

def addresses (access : MemoryRange) : List Nat :=
  rangeAddresses access.address access.length

/-- Whether a test holds of every address. The search ends at the first one that fails, so that a range
may be far larger than what is looked at. -/
def all (access : MemoryRange) (test : Nat → Bool) : Bool :=
  (access.stop - access.address).all fun offset _ => test (access.address + offset)

theorem all_eq_all_addresses (access : MemoryRange) (test : Nat → Bool) :
    access.all test = access.addresses.all test := by
  unfold all addresses rangeAddresses stop
  induction rangeStop access.address access.length - access.address with
  | zero => simp
  | succ count ih => simp [List.range'_1_concat, ih]

end MemoryRange

structure InputBuffer where
  address : Nat
  length : Nat
deriving DecidableEq, Repr

namespace InputBuffer

def empty : InputBuffer := ⟨0, 0⟩

def contains (input : InputBuffer) (address : Nat) : Bool :=
  input.address ≤ address && address - input.address < input.length

def end? (input : InputBuffer) : Option Nat := rangeEnd? input.address input.length

def stop (input : InputBuffer) : Nat := rangeStop input.address input.length

def addresses (input : InputBuffer) : List Nat := rangeAddresses input.address input.length

def index? (input : InputBuffer) (address : Nat) : Option Nat :=
  if input.contains address then some (address - input.address) else none

end InputBuffer

end BranchSteer
