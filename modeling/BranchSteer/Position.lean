/-!
Positions in a recorded trace count executed instructions from 1. Position 0 is the moment before the
first of them.
-/

namespace BranchSteer

namespace Position

def next (position : Nat) : Nat := position + 1

/-- Position 0 is its own predecessor. -/
def previous (position : Nat) : Nat := position - 1

def index? (position : Nat) : Option Nat :=
  if position = 0 then none else some (position - 1)

def stepsSince (position start : Nat) : Nat := position - start

end Position

end BranchSteer
