import Mathlib.Algebra.Group.Nat.Defs

/-!
64-bit arithmetic that stops where the machine's would wrap around or be undefined.

Each operation answers the machine's result as long as that is the result over the natural
numbers, and `none` otherwise; a shift answers as long as its count is below the width. A
computation written with these operations that answers at all is therefore the machine's
computation, free of overflow, of division by zero and of undefined shifts.
-/

namespace Hcl.Lib.Checked

def add (a b : UInt64) : Option UInt64 := if a.toNat + b.toNat < 2 ^ 64 then some (a + b) else none

def sub (a b : UInt64) : Option UInt64 := if b ≤ a then some (a - b) else none

def mul (a b : UInt64) : Option UInt64 := if a.toNat * b.toNat < 2 ^ 64 then some (a * b) else none

def div (a b : UInt64) : Option UInt64 := if b ≠ 0 then some (a / b) else none

def mod (a b : UInt64) : Option UInt64 := if b ≠ 0 then some (a % b) else none

def shiftLeft (a count : UInt64) : Option UInt64 := if count < 64 then some (a <<< count) else none

def shiftRight (a count : UInt64) : Option UInt64 := if count < 64 then some (a >>> count) else none

variable {a b : UInt64}

theorem add_eq (fits : a.toNat + b.toNat < 2 ^ 64) : add a b = some (a + b) := if_pos fits

theorem sub_eq (le : b ≤ a) : sub a b = some (a - b) := if_pos le

theorem mul_eq (fits : a.toNat * b.toNat < 2 ^ 64) : mul a b = some (a * b) := if_pos fits

theorem div_eq (nonzero : b ≠ 0) : div a b = some (a / b) := if_pos nonzero

theorem mod_eq (nonzero : b ≠ 0) : mod a b = some (a % b) := if_pos nonzero

theorem shiftLeft_eq (small : b < 64) : shiftLeft a b = some (a <<< b) := if_pos small

theorem shiftRight_eq (small : b < 64) : shiftRight a b = some (a >>> b) := if_pos small

/-- A shift that answers has a count below the width. -/
theorem shiftLeft_eq_none (large : ¬ b < 64) : shiftLeft a b = none := if_neg large

theorem ne_zero_of_toNat_pos (pos : 0 < a.toNat) : a ≠ 0 := by
  rintro rfl
  exact Nat.lt_irrefl 0 pos

end Hcl.Lib.Checked
