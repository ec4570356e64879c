import BranchSteer.Machine
import BranchSteer.Random.Generator

/-!
Checkpoints: a register state and a log that undoes every memory write since the checkpoint was armed.

The log keeps the first value it sees of each address, so undoing it leads back to the memory that the
checkpoint was created in. That holds as long as `logRange` comes before every write.
-/

namespace BranchSteer

abbrev WriteLog := Std.ExtTreeMap Nat UInt8

inductive Perturbation
  | none
  | input (bytes : List UInt8)
  | randomize (addresses : Std.ExtTreeSet Nat)
  | assign (values : Std.ExtTreeMap Nat UInt8)

namespace Perturbation

def ranges (input : InputBuffer) : Perturbation → List MemoryRange
  | .none => []
  | .input _ => [⟨input.address, input.length⟩]
  | .randomize addresses => addresses.toList.map fun address => ⟨address, 1⟩
  | .assign values => values.keys.map fun address => ⟨address, 1⟩

def fitted (length : Nat) (bytes : List UInt8) : List UInt8 :=
  bytes.take length ++ List.replicate (length - bytes.length) 0

end Perturbation

structure Perturbed where
  memory : Memory
  random : Random
  fault : Option Fault

namespace Perturbation

/-- Draws a byte for each address right before it is written, up to the first that lies outside of the
memory. -/
def drawAll (memory : Memory) (random : Random) : List Nat → Perturbed
  | [] => ⟨memory, random, .none⟩
  | address :: rest =>
    let (byte, random) := random.byte
    match memory.write address [byte] with
    | .error fault => ⟨memory, random, some fault⟩
    | .ok written => drawAll written random rest

def apply (input : InputBuffer) (memory : Memory) (random : Random) : Perturbation → Perturbed
  | .none => ⟨memory, random, .none⟩
  | .input bytes =>
    let (written, fault) := memory.writeAll [(input.address, fitted input.length bytes)]
    ⟨written, random, fault⟩
  | .randomize addresses => drawAll memory random addresses.toList
  | .assign values =>
    let (written, fault) := memory.writeAll (values.toList.map fun entry => (entry.1, [entry.2]))
    ⟨written, random, fault⟩

end Perturbation

/-- A point to which the observed process can be taken back. `inputBytes` are the bytes of the input
that its instruction reads. -/
structure Checkpoint where
  position : Nat
  processor : Processor
  inputBytes : Std.ExtTreeSet Nat
  writeLog : WriteLog
  armed : Bool

structure Rollback where
  checkpoint : Checkpoint
  memory : Memory
  random : Random
  result : Except Fault Processor

namespace Checkpoint

def create (position : Nat) (processor : Processor) (inputBytes : Std.ExtTreeSet Nat) :
    Checkpoint := ⟨position, processor, inputBytes, ∅, true⟩

def address (checkpoint : Checkpoint) : Nat := checkpoint.processor.instructionPointer

def arm (checkpoint : Checkpoint) : Checkpoint := { checkpoint with armed := true }

/-- Stops tracking, which is right where execution was taken back behind the checkpoint. -/
def disarm (checkpoint : Checkpoint) : Checkpoint :=
  { checkpoint with armed := false, writeLog := ∅ }

def logFirst (log : WriteLog) : List (Nat × UInt8) → WriteLog
  | [] => log
  | (address, value) :: rest => logFirst (log.insertIfNew address value) rest

def hasLogged (checkpoint : Checkpoint) (access : MemoryRange) : Bool :=
  access.all checkpoint.writeLog.contains

def logValues (checkpoint : Checkpoint) (values : List (Nat × UInt8)) : Checkpoint :=
  { checkpoint with writeLog := logFirst checkpoint.writeLog values }

def logRange (checkpoint : Checkpoint) (memory : Memory) (access : MemoryRange) :
    Except Fault Checkpoint :=
  if checkpoint.hasLogged access then .ok checkpoint
  else
    match memory.read access.address access.length with
    | .error fault => .error fault
    | .ok values => .ok (checkpoint.logValues (access.addresses.zip values))

def logRanges (checkpoint : Checkpoint) (memory : Memory) :
    List MemoryRange → Checkpoint × Option Fault
  | [] => (checkpoint, none)
  | access :: rest =>
    match checkpoint.logRange memory access with
    | .error fault => (checkpoint, some fault)
    | .ok tracked => tracked.logRanges memory rest

def misses (checkpoint : Checkpoint) (access : MemoryRange) : Bool :=
  checkpoint.armed && !checkpoint.hasLogged access

/-- Tracks a write in those of the checkpoints that are armed. Either all of them log it or the range
cannot be read and nothing changes. -/
def logArmed (memory : Memory) (access : MemoryRange) (checkpoints : Array Checkpoint) :
    Array Checkpoint × Option Fault :=
  if checkpoints.any (·.misses access) then
    match memory.read access.address access.length with
    | .error fault => (checkpoints, some fault)
    | .ok values =>
      let logged := access.addresses.zip values
      (checkpoints.map fun checkpoint =>
        if checkpoint.armed then checkpoint.logValues logged else checkpoint, none)
  else (checkpoints, none)

def undo (log : WriteLog) (memory : Memory) : Memory × Option Fault :=
  memory.writeAll (log.toList.map fun entry => (entry.1, [entry.2]))

/-- Undoes the logged writes and applies a perturbation of the input. The log restarts with the bytes
that the perturbation overwrites. -/
def rollback (checkpoint : Checkpoint) (memory : Memory) (input : InputBuffer)
    (perturbation : Perturbation) (random : Random) : Rollback :=
  let cleared := { checkpoint with writeLog := ∅ }
  match undo checkpoint.writeLog memory with
  | (restored, some fault) => ⟨cleared, restored, random, .error (.during .restoringLog fault)⟩
  | (restored, none) =>
    match cleared.arm.logRanges restored (perturbation.ranges input) with
    | (tracked, some fault) => ⟨tracked, restored, random, .error fault⟩
    | (tracked, none) =>
      match perturbation.apply input restored random with
      | ⟨perturbed, random, some fault⟩ => ⟨tracked, perturbed, random, .error fault⟩
      | ⟨perturbed, random, none⟩ => ⟨tracked, perturbed, random, .ok checkpoint.processor⟩

end Checkpoint

end BranchSteer
