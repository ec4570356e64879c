import BranchSteer.Address

/-!
Programs of the synthetic machine. All registers hold 64 bits, memory is accessed byte by byte, and a
jump names the place of an operation in the program.
-/

namespace BranchSteer

inductive Operation
  | move (destination : String) (value : UInt64)
  | loadByte (destination : String) (address : UInt64)
  | storeByte (source : String) (address : UInt64)
  | add (destination source : String)
  | addImmediate (destination : String) (value : UInt64)
  | xor (destination source : String)
  | compare (left right : String)
  | compareImmediate (left : String) (value : UInt64)
  | jumpIfEqual (target : UInt64)
  | jumpIfNotEqual (target : UInt64)
  | jump (target : UInt64)
  | syscall
  | halt
deriving DecidableEq, Repr

def Operation.text : Operation → String
  | .move destination value => "mov " ++ destination ++ ", " ++ hexadecimal value.toNat
  | .loadByte destination address =>
    "ldb " ++ destination ++ ", [" ++ hexadecimal address.toNat ++ "]"
  | .storeByte source address => "stb [" ++ hexadecimal address.toNat ++ "], " ++ source
  | .add destination source => "add " ++ destination ++ ", " ++ source
  | .addImmediate destination value => "add " ++ destination ++ ", " ++ hexadecimal value.toNat
  | .xor destination source => "xor " ++ destination ++ ", " ++ source
  | .compare left right => "cmp " ++ left ++ ", " ++ right
  | .compareImmediate left value => "cmp " ++ left ++ ", " ++ hexadecimal value.toNat
  | .jumpIfEqual target => "je #" ++ toString target.toNat
  | .jumpIfNotEqual target => "jne #" ++ toString target.toNat
  | .jump target => "jmp #" ++ toString target.toNat
  | .syscall => "syscall"
  | .halt => "hlt"

structure Program where
  operations : Array Operation
  inputAddress : UInt64
  input : List UInt8
  memorySize : UInt64
deriving DecidableEq, Repr

namespace Program

def standardMemorySize : UInt64 := 0x10000

def inputBuffer (program : Program) : InputBuffer :=
  ⟨program.inputAddress.toNat, program.input.length⟩

end Program

end BranchSteer
