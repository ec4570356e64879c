/-!
Magnitudes in double precision, as natural numbers: those with at most 53 significant binary digits,
as far as the format reaches. Rounding leaves every magnitude below 2 ^ 53 alone.
-/

namespace BranchSteer.Double

/-- The smallest magnitude that is rounded to infinity, halfway between the largest double and the
power of two behind it. -/
def limit : Nat := Nat.pow 2 1024 - Nat.pow 2 970

def spacing (value : Nat) : Nat := Nat.pow 2 (value.log2 - 52)

/-- The nearest magnitude with 53 significant binary digits. Of two that are equally near, it is the
one whose last digit is even. -/
def nearest (value : Nat) : Nat :=
  let step := spacing value
  let digits := value / step
  let rest := value % step
  if 2 * rest < step ∨ (2 * rest = step ∧ digits % 2 = 0) then digits * step
  else (digits + 1) * step

end BranchSteer.Double
