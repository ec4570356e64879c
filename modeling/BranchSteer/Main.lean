import BranchSteer.CommandLine.Execution

/-!
The command line. It reads the files that the arguments may name, runs the program and writes what it
leaves behind.
-/

namespace BranchSteer.CommandLine

def readPath (path : String) : IO PathStatus := do
  try
    return .file (← IO.FS.readFile path)
  catch error =>
    match error with
    | .noFileOrDirectory .. => return .unreachable .missing
    | .inappropriateType _ _ "Is a directory" => return .noFile
    | .inappropriateType .. => return .unreachable .notDirectory
    | .invalidArgument _ _ "name too long" => return .unreachable .nameTooLong
    | other => return .unreachable (.other (toString other))

def readInstalled : IO (Option String) := do
  let base ← match ← IO.getEnv "XDG_CONFIG_HOME" with
    | some directory => pure (some directory)
    | none => pure ((← IO.getEnv "HOME").map (· ++ "/.config"))
  match base with
  | none => return none
  | some directory =>
    match ← readPath (directory ++ "/branch-steer/config.json") with
    | .file content => return some content
    | _ => return none

def writePath (path content : String) : IO Bool := do
  try
    IO.FS.writeFile path content
    return true
  catch _ => return false

/-- The paths that arguments name, whatever they turn out to mean, with what they lead to. -/
def readPaths (arguments : List String) : IO (List (String × PathStatus)) := do
  match arguments.foldlM Given.addArgument Given.nothing with
  | .error _ => return []
  | .ok given =>
    (given.program.toList ++ given.valuesOf .config).mapM fun path => do
      return (path, ← readPath path)

def environmentOf (paths : List (String × PathStatus)) (installed : Option String)
    (unwritable : List String) (entropy : Nat) : Environment where
  status path := (paths.lookup path).getD (.unreachable .missing)
  installed := installed
  writable path := !unwritable.contains path
  entropy := UInt64.ofNat entropy

def writeFiles : List (String × String) → IO (Option String)
  | [] => return none
  | (path, content) :: rest => do
    if ← writePath path content then writeFiles rest else return some path

end BranchSteer.CommandLine

open BranchSteer.CommandLine

def main (arguments : List String) : IO UInt32 := do
  let paths ← readPaths arguments
  let installed ← readInstalled
  let entropy ← IO.rand 0 0xffffffffffffffff
  let first := execute (environmentOf paths installed [] entropy) arguments
  let outcome ← match ← writeFiles first.files with
    | none => pure first
    | some path => pure (execute (environmentOf paths installed [path] entropy) arguments)
  IO.print outcome.output
  unless outcome.error.isEmpty do
    IO.eprintln outcome.error
  return UInt32.ofNat outcome.exitCode
