import BranchSteer.Address
import BranchSteer.Position

/-!
The causes for which a run stops with an error, and their wording.

A `Violation` tells that position, registers and memory of the observed process no longer agree with
the recorded trace. All other faults come from the program, its input or the limits of the run.
Checkpoints are named by their place among those of the current phase, in order of their creation.
-/

namespace BranchSteer

inductive Violation
  | uncovered (position : Nat) (address : Nat)
  | divergence (position : Nat) (expected found : Nat)
  | earlyExit (position : Nat)
  | pastTrace (position : Nat)
  | brokenTrace (address : Nat) (position : Nat)
  | noCheckpoint (checkpoint : Nat)
  | disarmed (checkpoint : Nat)
deriving DecidableEq, Repr

def Violation.message : Violation → String
  | .uncovered position address =>
    "input byte " ++ hexadecimal address ++ " of the branch at position " ++ toString position ++
      " is not covered by any checkpoint"
  | .divergence position expected found =>
    "re-execution diverged at position " ++ toString position ++ ": expected " ++
      hexadecimal expected ++ ", found " ++ hexadecimal found
  | .earlyExit position =>
    "the program exited at position " ++ toString position ++
      " while forwarding along the recorded trace"
  | .pastTrace position =>
    "re-execution ran past the end of the recorded trace at position " ++ toString position
  | .brokenTrace address position =>
    "missing edge in the backward trace from input byte " ++ hexadecimal address ++
      " to position " ++ toString position
  | .noCheckpoint checkpoint =>
    "checkpoint " ++ toString checkpoint ++ " does not exist in the current phase"
  | .disarmed checkpoint => "checkpoint " ++ toString checkpoint ++ " is not armed"

inductive Activity
  | loadingInput
  | readingInput
  | restoringLog
deriving DecidableEq, Repr

def Activity.message : Activity → String
  | .loadingInput => "The input buffer does not fit into memory"
  | .readingInput => "Reading the input buffer failed"
  | .restoringLog => "Restoring the write log failed"

inductive Fault
  | violation (cause : Violation)
  | readOutOfBounds (access : MemoryRange)
  | writeOutOfBounds (access : MemoryRange)
  | invalidInstructionPointer (address : Nat)
  | noOperation (address : Nat)
  | inputAlreadyDelivered
  | inputWrapsAround (input : InputBuffer)
  | accessWrapsAround (access : MemoryRange)
  | missingOutcome (address : Nat)
  | noDependencies (position : Nat)
  | noCandidate (position : Nat)
  | noActiveBranch
  | stepLimitReached (limit : Nat)
  | during (activity : Activity) (cause : Fault)
deriving DecidableEq, Repr

namespace Fault

private def bytesAt (length : Nat) (address : Nat) : String :=
  toString length ++ " bytes at " ++ hexadecimal address

/-- The wording of the outermost activity, or of the fault itself outside of any. -/
def headline : Fault → String
  | .violation cause => cause.message
  | .readOutOfBounds access =>
    "Read of " ++ bytesAt access.length access.address ++ " out of bounds"
  | .writeOutOfBounds access =>
    "Write of " ++ bytesAt access.length access.address ++ " out of bounds"
  | .invalidInstructionPointer address => "Invalid instruction pointer " ++ hexadecimal address
  | .noOperation address => "No operation at " ++ hexadecimal address
  | .inputAlreadyDelivered => "The input buffer was already delivered"
  | .inputWrapsAround input =>
    "The input buffer of " ++ bytesAt input.length input.address ++
      " wraps around the address space"
  | .accessWrapsAround access =>
    "Memory access of " ++ bytesAt access.length access.address ++
      " wraps around the address space"
  | .missingOutcome address =>
    "Missing branch outcome for the conditional branch at " ++ hexadecimal address
  | .noDependencies position =>
    "Branch at position " ++ toString position ++ " has no input dependencies"
  | .noCandidate position =>
    "No candidate checkpoint for the branch at position " ++ toString position
  | .noActiveBranch => "No branch is being resolved"
  | .stepLimitReached limit =>
    "Step limit of " ++ toString limit ++ " executed instructions reached"
  | .during activity _ => activity.message

def message : Fault → String
  | .during activity cause => activity.message ++ ": " ++ cause.message
  | fault => fault.headline

def violation? : Fault → Option Violation
  | .violation cause => some cause
  | .during _ cause => cause.violation?
  | _ => none

end Fault

end BranchSteer
