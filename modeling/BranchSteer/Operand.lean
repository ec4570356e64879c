import BranchSteer.Address
import Std.Data.ExtTreeMap
import Std.Data.ExtTreeSet

/-!
The operands that data flows through: registers and single bytes of memory. Registers come before
memory in their order, and each kind is ordered by name or address.
-/

namespace BranchSteer

inductive Operand
  | register (name : String)
  | memory (address : Nat)
deriving DecidableEq, Repr

namespace Operand

def address? : Operand → Option Nat
  | .memory address => some address
  | .register _ => none

def kind : Operand → String
  | .register _ => "reg"
  | .memory _ => "mem"

def name : Operand → String
  | .register name => name
  | .memory address => hexadecimal address

def text (operand : Operand) : String := operand.kind ++ ":" ++ operand.name

def order : Operand → Operand → Ordering
  | .register left, .register right => compare left right
  | .register _, .memory _ => .lt
  | .memory _, .register _ => .gt
  | .memory left, .memory right => compare left right

instance : Ord Operand := ⟨order⟩

theorem compare_eq_order (left right : Operand) : compare left right = order left right := rfl

instance : Std.OrientedOrd Operand where
  eq_swap {left right} := by
    cases left <;> cases right <;> simp only [compare_eq_order, order, Ordering.swap_lt,
      Ordering.swap_gt]
    · exact Std.OrientedOrd.eq_swap
    · exact Std.OrientedOrd.eq_swap

instance : Std.TransOrd Operand where
  isLE_trans {first second third} := by
    cases first <;> cases second <;> cases third <;>
      simp only [compare_eq_order, order, Ordering.isLE_lt, Ordering.isLE_gt, implies_true,
        Bool.false_eq_true, false_implies]
    · exact Std.TransOrd.isLE_trans
    · exact Std.TransOrd.isLE_trans

instance : Std.LawfulEqOrd Operand where
  eq_of_compare {left right} := by
    cases left <;> cases right <;> simp [compare_eq_order, order]

end Operand

end BranchSteer
