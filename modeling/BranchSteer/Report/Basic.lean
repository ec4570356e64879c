import BranchSteer.Address
import BranchSteer.Position

/-!
What a run tells about its phases and about the inputs that it found for each branch, and the text of
both.
-/

namespace BranchSteer

structure PhaseSummary where
  phase : Nat
  instructions : Nat
  checkpoints : Nat
  branches : Nat
  dependentBranches : Nat
  resolved : Nat
  bypassed : Nat
  rollbacks : Nat
deriving DecidableEq, Repr

/-- What is known of one branch. A resolved branch has an input for each outcome. -/
structure BranchSummary where
  phase : Nat
  address : Nat
  position : Nat
  taken : Bool
  resolved : Bool
  bypassed : Bool
  inputDependencies : List Nat
  otherDependencies : List Nat
  takenInput : Option (List UInt8)
  notTakenInput : Option (List UInt8)
deriving DecidableEq, Repr

structure Report where
  phases : List PhaseSummary
  branches : List BranchSummary
  rollbacks : Nat
  budgetExhausted : Bool
deriving DecidableEq, Repr

def outcomeText (taken : Bool) : String := if taken then "taken" else "not taken"

def PhaseSummary.text (summary : PhaseSummary) : String :=
  "Phase " ++ toString summary.phase ++ ": " ++
    toString summary.instructions ++ " instructions, " ++
    toString summary.checkpoints ++ " checkpoints, " ++
    toString summary.branches ++ " branches (" ++
    toString summary.dependentBranches ++ " input dependent), " ++
    toString summary.resolved ++ " resolved, " ++
    toString summary.bypassed ++ " bypassed, " ++
    toString summary.rollbacks ++ " rollbacks"

namespace BranchSummary

def flippingInput (branch : BranchSummary) : Option (List UInt8) :=
  if branch.taken then branch.notTakenInput else branch.takenInput

def stateText (branch : BranchSummary) : String :=
  if branch.resolved then "resolved" else if branch.bypassed then "bypassed" else "unresolved"

private def inputText (label : String) : Option (List UInt8) → String
  | some bytes => ", " ++ label ++ " by " ++ hexText bytes
  | none => ""

def text (branch : BranchSummary) : String :=
  "[" ++ branch.stateText ++ "] branch " ++ hexadecimal branch.address ++ " @ " ++
    toString branch.position ++ " (phase " ++ toString branch.phase ++ ", " ++
    outcomeText branch.taken ++ ") depends on [" ++
    ", ".intercalate (branch.inputDependencies.map hexadecimal) ++ "]" ++
    (if branch.otherDependencies.isEmpty then ""
      else " (+" ++ toString branch.otherDependencies.length ++ " other addresses)") ++
    inputText "taken" branch.takenInput ++ inputText "not taken" branch.notTakenInput

end BranchSummary

namespace Report

def resolved (report : Report) : List BranchSummary := report.branches.filter (·.resolved)

def bypassed (report : Report) : List BranchSummary := report.branches.filter (·.bypassed)

def branch? (report : Report) (address : Nat) (position : Nat) :
    Option BranchSummary :=
  report.branches.find? fun branch => branch.address = address && branch.position = position

def summary (report : Report) : String :=
  toString report.phases.length ++ " phases, " ++
    toString report.branches.length ++ " input dependent branches, " ++
    toString report.resolved.length ++ " resolved, " ++
    toString report.bypassed.length ++ " bypassed, " ++
    toString report.rollbacks ++ " rollbacks" ++
    (if report.budgetExhausted then " (rollback budget exhausted)" else "")

def text (report : Report) : String :=
  String.join ((report.phases.map PhaseSummary.text ++ report.branches.map BranchSummary.text ++
    [report.summary]).map (· ++ "\n"))

end Report

end BranchSteer
