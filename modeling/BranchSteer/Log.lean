import BranchSteer.Address
import Std.Data.ExtTreeMap

/-!
Log messages, their order and their text, and what is kept of a sequence of them.

A message about an address replaces an earlier one with the same text at the same address. Messages
without an address are all kept, in the order in which they came.
-/

namespace BranchSteer

inductive Severity
  | debug
  | error
  | info
deriving DecidableEq, Repr

def Severity.text : Severity → String
  | .debug => "DEBUG"
  | .error => "ERROR"
  | .info => "INFO"

def Severity.rank : Severity → Nat
  | .debug => 0
  | .error => 1
  | .info => 2

structure LogEntry where
  text : String
  level : Severity
  location : Option Nat
  source : Option String
deriving DecidableEq, Repr

namespace LogEntry

def debug (text source : String) : LogEntry := ⟨text, .debug, none, some source⟩

def info (text source : String) : LogEntry := ⟨text, .info, none, some source⟩

def error (text : String) : LogEntry := ⟨text, .error, none, none⟩

def about (message : LogEntry) (address : Nat) : LogEntry :=
  { message with location := some address }

def line (message : LogEntry) : String :=
  message.level.text ++ ": " ++
    (match message.source, message.location with
      | some source, some location => source ++ " @ " ++ hexadecimal location ++ ": "
      | some source, none => source ++ ": "
      | none, some location => hexadecimal location ++ ": "
      | none, none => "") ++
    message.text

def compareOptional [Ord α] : Option α → Option α → Ordering
  | none, none => .eq
  | none, some _ => .lt
  | some _, none => .gt
  | some left, some right => compare left right

def order (left right : LogEntry) : Ordering :=
  (compare left.text right.text).then <|
    (compare left.level.rank right.level.rank).then <|
      (compareOptional left.location right.location).then <|
        compareOptional left.source right.source

def sorted (messages : List LogEntry) : List LogEntry :=
  messages.mergeSort fun left right => (order left right).isLE

/-- The messages about addresses, by address and text, of which the last one counts. -/
def located (messages : List LogEntry) :
    Std.ExtTreeMap Nat (Std.ExtTreeMap String LogEntry) :=
  messages.foldl (fun found message =>
    match message.location with
    | none => found
    | some address =>
      found.insert address ((found[address]?.getD ∅).insert message.text message)) ∅

def deduplicated (messages : List LogEntry) : List LogEntry :=
  (located messages).values.flatMap (·.values) ++ messages.filter (·.location.isNone)

def debugCounts (messages : List LogEntry) : Std.ExtTreeMap String Nat :=
  messages.foldl (fun counts message =>
    match message.level, message.source with
    | .debug, some source => counts.insert source (counts[source]?.getD 0 + 1)
    | _, _ => counts) ∅

def debugTotals (messages : List LogEntry) : List LogEntry :=
  let general :=
    (messages.filter fun message => message.level = .debug && message.source.isNone).length
  (debugCounts messages).toList.map (fun entry =>
      info ("Logged " ++ toString entry.2 ++ " debug log messages.") entry.1) ++
    if general = 0 then []
    else [⟨"Logged " ++ toString general ++ " general debug log messages.", .info, none, none⟩]

end LogEntry

end BranchSteer
