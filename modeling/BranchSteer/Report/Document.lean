import BranchSteer.Report.Basic
import BranchSteer.Json.Document
import BranchSteer.Json.Decode

/-!
The JSON form of a report. Only the inputs found for a branch may be missing from it.
-/

namespace BranchSteer

namespace Json

def ofList (encode : α → Json) (values : List α) : Json := .array (values.map encode)

def ofBytes (bytes : List UInt8) : Json := ofList (fun byte => .ofNat byte.toNat) bytes

def ofInput : Option (List UInt8) → Json
  | some bytes => ofBytes bytes
  | none => .null

end Json

namespace PhaseSummary

def toJson (summary : PhaseSummary) : Json :=
  .ofFields [
    ("phase", .ofNat summary.phase),
    ("traced_instructions", .ofNat summary.instructions),
    ("checkpoints", .ofNat summary.checkpoints),
    ("branches", .ofNat summary.branches),
    ("input_dependent_branches", .ofNat summary.dependentBranches),
    ("resolved", .ofNat summary.resolved),
    ("bypassed", .ofNat summary.bypassed),
    ("rollbacks", .ofNat summary.rollbacks)]

def ofJson? (document : Json) : Option PhaseSummary := do
  let fields ← document.fields?
  let count name := Json.required? fields name Json.word?
  return {
    phase := ← count "phase"
    instructions := ← count "traced_instructions"
    checkpoints := ← count "checkpoints"
    branches := ← count "branches"
    dependentBranches := ← count "input_dependent_branches"
    resolved := ← count "resolved"
    bypassed := ← count "bypassed"
    rollbacks := ← count "rollbacks" }

end PhaseSummary

namespace BranchSummary

def toJson (branch : BranchSummary) : Json :=
  .ofFields [
    ("phase", .ofNat branch.phase),
    ("address", .ofNat branch.address),
    ("position", .ofNat branch.position),
    ("taken", .bool branch.taken),
    ("resolved", .bool branch.resolved),
    ("bypassed", .bool branch.bypassed),
    ("dep_input_addrs", .ofList .ofNat branch.inputDependencies),
    ("dep_other_addrs", .ofList .ofNat branch.otherDependencies),
    ("taken_input", .ofInput branch.takenInput),
    ("not_taken_input", .ofInput branch.notTakenInput)]

def ofJson? (document : Json) : Option BranchSummary := do
  let fields ← document.fields?
  let number name := Json.required? fields name Json.word?
  let flag name := Json.required? fields name Json.bool?
  let addresses name := Json.required? fields name (Json.listOf? Json.word?)
  let input name :=
    Json.defaulted? fields name none (Json.optional? (Json.listOf? Json.uint8?))
  return {
    phase := ← number "phase"
    address := ← number "address"
    position := ← number "position"
    taken := ← flag "taken"
    resolved := ← flag "resolved"
    bypassed := ← flag "bypassed"
    inputDependencies := ← addresses "dep_input_addrs"
    otherDependencies := ← addresses "dep_other_addrs"
    takenInput := ← input "taken_input"
    notTakenInput := ← input "not_taken_input" }

end BranchSummary

namespace Report

def toJson (report : Report) : Json :=
  .ofFields [
    ("phases", .ofList PhaseSummary.toJson report.phases),
    ("branches", .ofList BranchSummary.toJson report.branches),
    ("total_rollbacks", .ofNat report.rollbacks),
    ("budget_exhausted", .bool report.budgetExhausted)]

def ofJson? (document : Json) : Option Report := do
  let fields ← document.fields?
  return {
    phases := ← Json.required? fields "phases" (Json.listOf? PhaseSummary.ofJson?)
    branches := ← Json.required? fields "branches" (Json.listOf? BranchSummary.ofJson?)
    rollbacks := ← Json.required? fields "total_rollbacks" Json.word?
    budgetExhausted := ← Json.required? fields "budget_exhausted" Json.bool? }

def parse? (text : String) : Option Report := (Json.parse? text).bind ofJson?

def rendered (report : Report) (asJson : Bool) : String :=
  if asJson then report.toJson.pretty else report.text

end Report

end BranchSteer
