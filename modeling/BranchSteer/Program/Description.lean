import BranchSteer.Program.Basic
import BranchSteer.Json.Document
import BranchSteer.Json.Decode

/-!
The JSON description of a program. The member `op` of an operation tells its kind and so which other
members it needs.
-/

namespace BranchSteer

namespace Operation

def fields : Operation → List (String × Json)
  | .move destination value => [("op", .ofString "mov"), ("dst", .ofString destination),
      ("value", .ofNat value.toNat)]
  | .loadByte destination address => [("op", .ofString "load_byte"),
      ("dst", .ofString destination), ("address", .ofNat address.toNat)]
  | .storeByte source address => [("op", .ofString "store_byte"), ("src", .ofString source),
      ("address", .ofNat address.toNat)]
  | .add destination source => [("op", .ofString "add"), ("dst", .ofString destination),
      ("src", .ofString source)]
  | .addImmediate destination value => [("op", .ofString "add_imm"),
      ("dst", .ofString destination), ("value", .ofNat value.toNat)]
  | .xor destination source => [("op", .ofString "xor"), ("dst", .ofString destination),
      ("src", .ofString source)]
  | .compare left right => [("op", .ofString "cmp"), ("lhs", .ofString left),
      ("rhs", .ofString right)]
  | .compareImmediate left value => [("op", .ofString "cmp_imm"), ("lhs", .ofString left),
      ("value", .ofNat value.toNat)]
  | .jumpIfEqual target => [("op", .ofString "jump_if_equal"), ("target", .ofNat target.toNat)]
  | .jumpIfNotEqual target =>
    [("op", .ofString "jump_if_not_equal"), ("target", .ofNat target.toNat)]
  | .jump target => [("op", .ofString "jump"), ("target", .ofNat target.toNat)]
  | .syscall => [("op", .ofString "syscall")]
  | .halt => [("op", .ofString "halt")]

def toJson (operation : Operation) : Json := .ofFields operation.fields

def ofFields? (fields : List (String × Json)) : Option Operation := do
  let text name := Json.required? fields name Json.text?
  let word name := Json.required? fields name Json.uint64?
  match ← text "op" with
  | "mov" => return .move (← text "dst") (← word "value")
  | "load_byte" => return .loadByte (← text "dst") (← word "address")
  | "store_byte" => return .storeByte (← text "src") (← word "address")
  | "add" => return .add (← text "dst") (← text "src")
  | "add_imm" => return .addImmediate (← text "dst") (← word "value")
  | "xor" => return .xor (← text "dst") (← text "src")
  | "cmp" => return .compare (← text "lhs") (← text "rhs")
  | "cmp_imm" => return .compareImmediate (← text "lhs") (← word "value")
  | "jump_if_equal" => return .jumpIfEqual (← word "target")
  | "jump_if_not_equal" => return .jumpIfNotEqual (← word "target")
  | "jump" => return .jump (← word "target")
  | "syscall" => return .syscall
  | "halt" => return .halt
  | _ => none

/-- An operation lies inside the list inside the program, and no value may lie deeper than 127 levels
in all. Members that are ignored are held to this too. -/
def nestingLimit : Nat := 125

def ofJson? (document : Json) : Option Operation :=
  if document.isRegular nestingLimit then document.fields?.bind ofFields? else none

end Operation

namespace Program

def toJson (program : Program) : Json :=
  .ofFields [
    ("ops", .array (program.operations.toList.map Operation.toJson)),
    ("input_address", .ofNat program.inputAddress.toNat),
    ("input", .array (program.input.map fun byte => .ofNat byte.toNat)),
    ("memory_size", .ofNat program.memorySize.toNat)]

def ofJson? (document : Json) : Option Program := do
  let fields ← document.fields?
  return {
    operations := (← Json.required? fields "ops" (Json.listOf? Operation.ofJson?)).toArray
    inputAddress := ← Json.required? fields "input_address" Json.uint64?
    input := ← Json.required? fields "input" (Json.listOf? Json.uint8?)
    memorySize := ← Json.defaulted? fields "memory_size" standardMemorySize Json.uint64? }

def parse? (text : String) : Option Program := (Json.parse? text).bind ofJson?

def parseFailure : String := "Parsing of the program description failed"

end Program

end BranchSteer
