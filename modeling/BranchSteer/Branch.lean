import BranchSteer.Checkpoint
import BranchSteer.Report.Basic

/-!
Records of executed conditional branches, and the choice of the checkpoints from which a branch may be
flipped.

Each input byte that a branch depends on belongs to the first checkpoint that reads it. The resolver
visits these candidates from the latest to the earliest.
-/

namespace BranchSteer

structure Branch where
  phase : Nat
  address : Nat
  position : Nat
  taken : Bool
  isResolved : Bool
  isBypassed : Bool
  explored : Bool
  inputDependencies : Std.ExtTreeSet Nat
  otherDependencies : Std.ExtTreeSet Nat
  traces : Std.ExtTreeMap Nat (List Nat)
  candidates : Std.ExtTreeMap Nat (Std.ExtTreeSet Nat)
  takenInput : Option (List UInt8)
  notTakenInput : Option (List UInt8)

namespace Branch

def create (phase : Nat) (address : Nat) (position : Nat) (taken : Bool) : Branch where
  phase := phase
  address := address
  position := position
  taken := taken
  isResolved := false
  isBypassed := false
  explored := false
  inputDependencies := ∅
  otherDependencies := ∅
  traces := ∅
  candidates := ∅
  takenInput := none
  notTakenInput := none

def dependsOnInput (branch : Branch) : Bool := !branch.inputDependencies.isEmpty

def isUndecided (branch : Branch) : Bool := !branch.isResolved && !branch.isBypassed

def isOpen (branch : Branch) : Bool := branch.dependsOnInput && branch.isUndecided

def inputLeadingTo (branch : Branch) (outcome : Bool) : Option (List UInt8) :=
  if outcome then branch.takenInput else branch.notTakenInput

def remember (branch : Branch) (outcome : Bool) (input : List UInt8) : Branch :=
  if outcome then { branch with takenInput := branch.takenInput.or (some input) }
  else { branch with notTakenInput := branch.notTakenInput.or (some input) }

def flippingInput (branch : Branch) : Option (List UInt8) := branch.inputLeadingTo !branch.taken

def resolve (branch : Branch) (input : List UInt8) : Branch :=
  if branch.isBypassed then branch
  else { branch.remember (!branch.taken) input with isResolved := true }

def bypass (branch : Branch) : Branch :=
  if branch.isResolved then branch else { branch with isBypassed := true }

def explore (branch : Branch) : Branch := { branch with explored := true }

/-- Adds an input byte and the positions that lead from it to the branch. The first of several traces
is kept. -/
def dependOn (branch : Branch) (address : Nat) (trace : List Nat) : Branch :=
  { branch with
    inputDependencies := branch.inputDependencies.insert address
    traces := branch.traces.insertIfNew address trace }

def latestCandidate? (branch : Branch) : Option Nat := branch.candidates.keys.getLast?

def withoutCandidate (branch : Branch) (checkpoint : Nat) : Branch :=
  { branch with candidates := branch.candidates.erase checkpoint }

def candidateBytes (branch : Branch) (checkpoint : Nat) : Std.ExtTreeSet Nat :=
  branch.candidates[checkpoint]?.getD ∅

/-- Hands the uncovered bytes out to the first checkpoints that read them, as long as there are any,
and tells which bytes no checkpoint reads. -/
def distribute (uncovered : Std.ExtTreeSet Nat)
    (candidates : Std.ExtTreeMap Nat (Std.ExtTreeSet Nat)) (id : Nat) :
    List Checkpoint → Std.ExtTreeSet Nat × Std.ExtTreeMap Nat (Std.ExtTreeSet Nat)
  | [] => (uncovered, candidates)
  | checkpoint :: rest =>
    let covered := uncovered ∩ checkpoint.inputBytes
    if uncovered.isEmpty then (uncovered, candidates)
    else if covered.isEmpty then distribute uncovered candidates (id + 1) rest
    else
      distribute (uncovered \ checkpoint.inputBytes) (candidates.insert id covered) (id + 1) rest

def chooseCandidates (branch : Branch) (checkpoints : List Checkpoint) :
    Branch × Except Fault Nat :=
  let (uncovered, candidates) := distribute branch.inputDependencies ∅ 0 checkpoints
  let selected := { branch with candidates := candidates }
  match uncovered.toList.head? with
  | some address =>
    (selected, .error (.violation (.uncovered branch.position address)))
  | none =>
    match selected.latestCandidate? with
    | some checkpoint => (selected, .ok checkpoint)
    | none => (selected, .error (.noDependencies branch.position))

def summary (branch : Branch) : BranchSummary where
  phase := branch.phase
  address := branch.address
  position := branch.position
  taken := branch.taken
  resolved := branch.isResolved
  bypassed := branch.isBypassed
  inputDependencies := branch.inputDependencies.toList
  otherDependencies := branch.otherDependencies.toList
  takenInput := branch.takenInput
  notTakenInput := branch.notTakenInput

def text (branch : Branch) : String :=
  "branch " ++ hexadecimal branch.address ++ " @ " ++ toString branch.position ++ " (" ++
    outcomeText branch.taken ++ ")"

@[simp] theorem isUndecided_iff (branch : Branch) :
    branch.isUndecided ↔ branch.isResolved = false ∧ branch.isBypassed = false := by
  simp [isUndecided]

end Branch

end BranchSteer
