import BranchSteer.Engine.State
import BranchSteer.Json.Document
import BranchSteer.Json.Decode

/-!
The JSON form of the configuration. The limit of phases and the seed may be missing from it.
-/

namespace BranchSteer.Config

def toJson (config : Config) : Json :=
  .ofFields [
    ("max_trace_length", .ofNat config.traceLimit),
    ("max_attempts_per_checkpoint", .ofNat config.attemptLimit),
    ("max_total_rollbacks", .ofNat config.rollbackLimit),
    ("stop_at_syscall", .bool config.endAtSyscall),
    ("max_phases", .ofNat config.phaseLimit),
    ("rng_seed", match config.seed with
      | some seed => .ofNat seed.toNat
      | none => .null)]

def ofJson? (document : Json) : Option Config := do
  let fields ← document.fields?
  return {
    traceLimit := ← Json.required? fields "max_trace_length" Json.word?
    attemptLimit :=
      ← Json.required? fields "max_attempts_per_checkpoint" (Json.natBelow? 0x100000000)
    rollbackLimit := ← Json.required? fields "max_total_rollbacks" Json.word?
    endAtSyscall := ← Json.required? fields "stop_at_syscall" Json.bool?
    phaseLimit := ← Json.defaulted? fields "max_phases" 0 Json.word?
    seed := ← Json.defaulted? fields "rng_seed" none (Json.optional? Json.uint64?) }

def parse? (text : String) : Option Config := (Json.parse? text).bind ofJson?

def parseFailure : String := "Parsing of the configuration file failed"

/-- Reads a document all of which must be regular, and in which a repeated member counts with its last
value. A text that is no such document gives `none`, one that is no configuration gives
`some none`. -/
def parseInstalled? (text : String) : Option (Option Config) :=
  match Json.parse? text with
  | some document =>
    if document.isRegular 127 then some (ofJson? document.withoutRepetitions) else none
  | none => none

end BranchSteer.Config
