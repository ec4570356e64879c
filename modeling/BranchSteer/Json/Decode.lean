import BranchSteer.Json.Basic

/-!
Reading typed values out of a document. A member that a reader asks for must be given once; members
that nobody asks for are ignored, however often they are given.
-/

namespace BranchSteer.Json

def bool? : Json → Option Bool
  | .bool value => some value
  | _ => none

def text? : Json → Option String
  | .string text => text
  | _ => none

def nat? : Json → Option Nat
  | .number value => value.toNat?
  | _ => none

def natBelow? (limit : Nat) (document : Json) : Option Nat :=
  match document.nat? with
  | some value => if value < limit then some value else none
  | none => none

def word? (document : Json) : Option Nat := document.natBelow? 0x10000000000000000

def uint64? (document : Json) : Option UInt64 := document.word?.map UInt64.ofNat

def uint8? (document : Json) : Option UInt8 := (document.natBelow? 256).map UInt8.ofNat

def listOf? (decode : Json → Option α) : Json → Option (List α)
  | .array items => items.mapM decode
  | _ => none

/-- `null` stands for the absence of a value. -/
def optional? (decode : Json → Option α) : Json → Option (Option α)
  | .null => some none
  | document => (decode document).map some

def fields? : Json → Option (List (String × Json))
  | .object members => members.mapM fun member => member.1.map (·, member.2)
  | _ => none

def valuesOf (fields : List (String × Json)) (name : String) : List Json :=
  (fields.filter (·.1 = name)).map (·.2)

def required? (fields : List (String × Json)) (name : String) (decode : Json → Option α) :
    Option α :=
  match valuesOf fields name with
  | [value] => decode value
  | _ => none

def defaulted? (fields : List (String × Json)) (name : String) (fallback : α)
    (decode : Json → Option α) : Option α :=
  match valuesOf fields name with
  | [] => some fallback
  | [value] => decode value
  | _ => none

end BranchSteer.Json
