import BranchSteer.Json.Double
import Std.Data.HashSet

/-!
JSON documents as they are written: a number keeps the difference between `1` and `1.0`, an object
keeps the order and the repetitions of its members, and a string whose escapes name no text, such as
a single half of a surrogate pair, is kept as `none`.
-/

namespace BranchSteer

/-- A written number: `significand * 10 ^ exponent`, where a number written as digits alone has no
exponent. Of a number with more digits than 64 bits can hold, the first ones make the significand and the
others raise the exponent. -/
structure Json.Number where
  negative : Bool
  significand : Nat
  exponent : Option Int
deriving DecidableEq, Repr

inductive Json
  | null
  | bool (value : Bool)
  | number (value : Json.Number)
  | string (text : Option String)
  | array (items : List Json)
  | object (members : List (Option String × Json))
deriving Repr

namespace Json

namespace Number

def ofNat (value : Nat) : Number := ⟨false, value, none⟩

def toNat? (number : Number) : Option Nat :=
  if number.negative || number.exponent.isSome then none else some number.significand

/-- Whether the number is finite in double precision, where its significand and the power of ten are
rounded each for itself before they are multiplied. A huge power is never raised. -/
def isFinite (number : Number) : Bool :=
  let exponent := number.exponent.getD 0
  if number.significand = 0 ∨ exponent ≤ 0 then true
  else if exponent > 308 then false
  else
    Double.nearest number.significand * Double.nearest (Nat.pow 10 exponent.toNat) < Double.limit

theorem isFinite_ofNat (value : Nat) : (ofNat value).isFinite = true := by
  simp [isFinite, ofNat]

end Number

def ofNat (value : Nat) : Json := .number (.ofNat value)

def ofString (text : String) : Json := .string (some text)

def ofFields (fields : List (String × Json)) : Json :=
  .object (fields.map fun field => (some field.1, field.2))

mutual

def isRegular (depth : Nat) : Json → Bool
  | .null => true
  | .bool _ => true
  | .number value => value.isFinite
  | .string text => text.isSome
  | .array items =>
    match depth with
    | 0 => false
    | depth + 1 => areRegular depth items
  | .object members =>
    match depth with
    | 0 => false
    | depth + 1 => membersRegular depth members

def areRegular (depth : Nat) : List Json → Bool
  | [] => true
  | item :: rest => item.isRegular depth && areRegular depth rest

def membersRegular (depth : Nat) : List (Option String × Json) → Bool
  | [] => true
  | (name, value) :: rest => name.isSome && value.isRegular depth && membersRegular depth rest

end

def lastOfEachName (members : List (Option String × Json)) : List (Option String × Json) :=
  (members.foldr (fun member (last : List (Option String × Json) × Std.HashSet (Option String)) =>
    if last.2.contains member.1 then last else (member :: last.1, last.2.insert member.1)) ([], ∅)).1

mutual

/-- The document in which a repeated member name stands for its last value, at every level. -/
def withoutRepetitions : Json → Json
  | .array items => .array (itemsWithoutRepetitions items)
  | .object members => .object (lastOfEachName (membersWithoutRepetitions members))
  | other => other

def itemsWithoutRepetitions : List Json → List Json
  | [] => []
  | item :: rest => item.withoutRepetitions :: itemsWithoutRepetitions rest

def membersWithoutRepetitions : List (Option String × Json) → List (Option String × Json)
  | [] => []
  | (name, value) :: rest => (name, value.withoutRepetitions) :: membersWithoutRepetitions rest

end

end Json

end BranchSteer
