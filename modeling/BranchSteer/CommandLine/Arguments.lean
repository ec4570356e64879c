/-!
The arguments of the command line.

An option takes its value from the same argument, behind an equals sign or directly behind its letter,
or from the next argument unless that one starts with a hyphen. Behind `--` every argument stands for
itself.
-/

namespace BranchSteer.CommandLine

inductive OptionName
  | config
  | out
  | dot
  | seed
  | stepLimit
deriving DecidableEq, Repr

inductive Flag
  | json
  | quiet
deriving DecidableEq, Repr

namespace OptionName

def name : OptionName → String
  | .config => "config"
  | .out => "out"
  | .dot => "dot"
  | .seed => "seed"
  | .stepLimit => "step-limit"

def usage (option : OptionName) : String := "--" ++ option.name ++ " <" ++ option.name ++ ">"

def ofName? (name : List Char) : Option OptionName :=
  [config, out, dot, seed, stepLimit].find? fun option => option.name.toList = name

def ofLetter? : Char → Option OptionName
  | 'c' => some .config
  | 'o' => some .out
  | _ => none

end OptionName

namespace Flag

def name : Flag → String
  | .json => "json"
  | .quiet => "quiet"

def usage (flag : Flag) : String := "--" ++ flag.name

def ofName? (name : List Char) : Option Flag :=
  [json, quiet].find? fun flag => flag.name.toList = name

def ofLetter? : Char → Option Flag
  | 'j' => some .json
  | 'q' => some .quiet
  | _ => none

end Flag

inductive UsageError
  | unexpected (argument : String)
  | missingProgram
  | missingValue (usage : String)
  | invalidValue (usage reason : String)
  | repeated (usage : String)
deriving DecidableEq, Repr

def UsageError.message : UsageError → String
  | .unexpected argument =>
    "Found argument '" ++ argument ++ "' which wasn't expected, or isn't valid in this context"
  | .missingProgram => "The following required arguments were not provided:"
  | .missingValue usage =>
    "The argument '" ++ usage ++ "' requires a value but none was supplied"
  | .invalidValue usage reason => "Invalid value for '" ++ usage ++ "': " ++ reason
  | .repeated usage =>
    "The argument '" ++ usage ++ "' was provided more than once, but cannot be used multiple times"

/-- What was given, in order. `awaiting` is an option whose value may be the next argument. -/
structure Given where
  program : Option String
  options : List OptionName
  values : List (OptionName × String)
  flags : List Flag
  awaiting : Option OptionName
  literal : Bool
deriving Repr

namespace Given

def nothing : Given := ⟨none, [], [], [], none, false⟩

def positional (given : Given) (argument : String) : Except UsageError Given :=
  match given.program with
  | none => .ok { given with program := some argument }
  | some _ => .error (.unexpected argument)

def addValue (given : Given) (option : OptionName) (value : String) : Given :=
  { given with values := given.values ++ [(option, value)], awaiting := none }

def addOption (given : Given) (option : OptionName) (value : Option (List Char)) : Given :=
  let given := { given with options := given.options ++ [option] }
  match value with
  | some value => given.addValue option (String.ofList (value.dropWhile (· = '=')))
  | none => { given with awaiting := some option }

def addFlag (given : Given) (flag : Flag) : Given :=
  { given with flags := given.flags ++ [flag], awaiting := none }

/-- An argument that begins with two hyphens, more of which do not count. An unknown name is told
without its value. -/
def long (given : Given) (argument : String) : Except UsageError Given :=
  let body := argument.toList.dropWhile (· = '-')
  let name := body.takeWhile (· ≠ '=')
  match OptionName.ofName? name with
  | some option =>
    .ok (given.addOption option (if body.contains '=' then some (body.drop name.length) else none))
  | none =>
    match Flag.ofName? name with
    | some flag => .ok (given.addFlag flag)
    | none => .error (.unexpected ("--" ++ String.ofList name))

/-- The letters of an argument that begins with one hyphen. The first option takes what is left as its
value. -/
def letters (given : Given) : List Char → Except UsageError Given
  | [] => .ok given
  | letter :: rest =>
    match OptionName.ofLetter? letter with
    | some option => .ok (given.addOption option (if rest.isEmpty then none else some rest))
    | none =>
      match Flag.ofLetter? letter with
      | some flag => (given.addFlag flag).letters rest
      | none => .error (.unexpected (String.ofList ['-', letter]))

def addArgument (given : Given) (argument : String) : Except UsageError Given :=
  if given.literal then given.positional argument
  else if argument = "--" then .ok { given with literal := true }
  else
    match argument.toList with
    | '-' :: '-' :: _ => given.long argument
    | '-' :: letter :: rest => given.letters (letter :: rest)
    | _ =>
      match given.awaiting with
      | some option => .ok (given.addValue option argument)
      | none => given.positional argument

def valuesOf (given : Given) (option : OptionName) : List String :=
  (given.values.filter (·.1 = option)).map (·.2)

def value? (given : Given) (option : OptionName) : Option String := (given.valuesOf option).head?

def lacksValue (given : Given) (option : OptionName) : Bool :=
  given.options.contains option && (given.valuesOf option).isEmpty && option ≠ .stepLimit

def missingLast? (given : Given) : Option OptionName := given.awaiting.filter given.lacksValue

end Given

def digitsBelow (limit : Nat) : Nat → List Char → Except String Nat
  | value, [] => .ok value
  | value, digit :: rest =>
    if digit.isDigit then
      let value := value * 10 + (digit.toNat - '0'.toNat)
      if value < limit then digitsBelow limit value rest
      else .error "number too large to fit in target type"
    else .error "invalid digit found in string"

def parseWord (text : String) : Except String Nat :=
  match text.toList with
  | [] => .error "cannot parse integer from empty string"
  | '+' :: [] => .error "invalid digit found in string"
  | '+' :: digits => digitsBelow 0x10000000000000000 0 digits
  | digits => digitsBelow 0x10000000000000000 0 digits

structure Arguments where
  program : String
  config : Option String
  out : Option String
  dot : Option String
  json : Bool
  quiet : Bool
  seed : Option UInt64
  stepLimit : Nat
deriving Repr

namespace Arguments

def defaultStepLimit : Nat := 10000000

def checkValues (usage : String) (check : String → Except String Unit) :
    List String → Except UsageError Unit
  | [] => .ok ()
  | value :: rest =>
    match check value with
    | .ok _ => checkValues usage check rest
    | .error reason => .error (.invalidValue usage reason)

/-- The check of an option's values, where `checkFile` tells whether a path names a file. -/
def checkOption (checkFile : String → Except String Unit) (option : OptionName) (value : String) :
    Except String Unit :=
  match option with
  | .config => checkFile value
  | .seed => (parseWord value).map fun _ => ()
  | .stepLimit => (parseWord value).map fun _ => ()
  | _ => .ok ()

def checkOptions (checkFile : String → Except String Unit) (given : Given) :
    List OptionName → Except UsageError Unit
  | [] => .ok ()
  | option :: rest =>
    if given.lacksValue option then .error (.missingValue option.usage)
    else
      match checkValues option.usage (checkOption checkFile option) (given.valuesOf option) with
      | .error error => .error error
      | .ok _ =>
        if given.options.count option > 1 then .error (.repeated option.usage)
        else checkOptions checkFile given rest

def checkFlags (given : Given) : List Flag → Except UsageError Unit
  | [] => .ok ()
  | flag :: rest =>
    if given.flags.count flag > 1 then .error (.repeated flag.usage) else checkFlags given rest

def ofGiven (checkFile : String → Except String Unit) (given : Given) :
    Except UsageError Arguments := do
  let some program := given.program | throw .missingProgram
  if let some option := given.missingLast? then throw (.missingValue option.usage)
  checkValues "<program>" checkFile [program]
  checkOptions checkFile given [.config, .out, .dot, .seed, .stepLimit]
  checkFlags given [.json, .quiet]
  let word option := (given.value? option).bind fun value => (parseWord value).toOption
  return {
    program := program
    config := given.value? .config
    out := given.value? .out
    dot := given.value? .dot
    json := given.flags.contains .json
    quiet := given.flags.contains .quiet
    seed := (word .seed).map UInt64.ofNat
    stepLimit := (word .stepLimit).getD defaultStepLimit }

def parse (checkFile : String → Except String Unit) (arguments : List String) :
    Except UsageError Arguments := do
  let given ← arguments.foldlM Given.addArgument Given.nothing
  ofGiven checkFile given

end Arguments

end BranchSteer.CommandLine
