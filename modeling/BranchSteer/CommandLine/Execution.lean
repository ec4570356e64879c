import BranchSteer.CommandLine.Arguments
import BranchSteer.CommandLine.Path
import BranchSteer.Engine.Settings
import BranchSteer.Flow.Dot
import BranchSteer.Program.Description
import BranchSteer.Report.Document
import BranchSteer.Session

/-!
A run from the command line as a function of its arguments and of the files that it finds.

The configuration comes before the program. A run that ends with a fault still shows its log and its
report.
-/

namespace BranchSteer.CommandLine

/-- The world that a run finds: files, the standard configuration if one is installed, where it can
write, and a seed for the generator of runs that name none. -/
structure Environment where
  status : String → PathStatus
  installed : Option String
  writable : String → Bool
  entropy : UInt64

structure Outcome where
  exitCode : Nat
  output : String
  error : String
  files : List (String × String)

namespace Outcome

def failure (error : String) : Outcome := ⟨1, "", error, []⟩

end Outcome

namespace Environment

def checkFile (environment : Environment) (path : String) : Except String Unit :=
  match environment.status path with
  | .file _ => .ok ()
  | .noFile => .error (path ++ " is not a file.")
  | .unreachable obstacle => .error obstacle.message

def content (environment : Environment) (path : String) : String :=
  match environment.status path with
  | .file content => content
  | _ => ""

/-- The configuration of a run. An installed one that is no document counts as absent. -/
def configuration (environment : Environment) (arguments : Arguments) : Option Config :=
  let loaded :=
    match arguments.config with
    | some path => Config.parse? (environment.content path)
    | none =>
      match environment.installed.bind Config.parseInstalled? with
      | some config => config
      | none => some Config.default
  loaded.map fun config => { config with seed := arguments.seed.or config.seed }

end Environment

def faultMessage (fault : Fault) : LogEntry :=
  .error ((if fault.violation?.isSome then "Invariant violation" else "Run aborted") ++ ": " ++
    fault.message)

def logLines (quiet : Bool) (messages : List LogEntry) (fault : Option Fault) : List String :=
  if quiet then []
  else
    let kept := LogEntry.deduplicated messages ++ (fault.map faultMessage).toList
    (kept ++ LogEntry.debugTotals kept).map LogEntry.line

def errorLine (message : String) : String := "Error: " ++ message

/-- Shows a finished run. The graph is written first, then comes the log, then the report. -/
def present (environment : Environment) (arguments : Arguments) (session : Session)
    (fault : Option Fault) : Outcome :=
  let graphFile := arguments.dot.toList.map fun path => (path, session.engine.graph.dot)
  match graphFile.find? fun file => !environment.writable file.1 with
  | some (path, _) => .failure (errorLine ("Writing to " ++ path ++ " failed"))
  | none =>
    let lines := logLines arguments.quiet session.engine.log.toList fault
    let log := String.join (lines.map (· ++ "\n"))
    let report := session.engine.report.rendered arguments.json
    let exitCode := if fault.isSome then 1 else 0
    let error := (fault.map fun fault => errorLine fault.headline).getD ""
    match arguments.out with
    | none => ⟨exitCode, log ++ report, error, graphFile⟩
    | some path =>
      if environment.writable path then ⟨exitCode, log, error, graphFile ++ [(path, report)]⟩
      else
        ⟨1, log, errorLine ("Writing to output path " ++ path ++ " failed"), graphFile⟩

def runProgram (environment : Environment) (arguments : Arguments) : Outcome :=
  match environment.configuration arguments with
  | none => .failure (errorLine Config.parseFailure)
  | some config =>
    match Program.parse? (environment.content arguments.program) with
    | none => .failure (errorLine Program.parseFailure)
    | some program =>
      match Machine.load program with
      | .error fault => .failure (errorLine fault.headline)
      | .ok machine =>
        let drawn := Random.ofSeed environment.entropy
        match (Session.start config machine drawn).run arguments.stepLimit with
        | (session, .ok _) => present environment arguments session none
        | (session, .error fault) => present environment arguments session (some fault)

def execute (environment : Environment) (arguments : List String) : Outcome :=
  match Arguments.parse environment.checkFile arguments with
  | .error error => .failure ("error: " ++ error.message)
  | .ok arguments => runProgram environment arguments

end BranchSteer.CommandLine
