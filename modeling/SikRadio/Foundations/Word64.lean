import Mathlib.Tactic

/-!
# Unsigned 64-bit arithmetic

Words are natural numbers below `2 ^ 64`. Sums and differences wrap around; the
lemmas say when they do not.
-/

namespace SikRadio.Foundations.Word64

def wadd (a b : Nat) : Nat := (a + b) % 2 ^ 64

def wsub (a b : Nat) : Nat := (a + 2 ^ 64 - b) % 2 ^ 64

theorem wadd_lt (a b : Nat) : wadd a b < 2 ^ 64 := by
  unfold wadd
  exact Nat.mod_lt _ (by decide)

theorem wadd_of_lt {a b : Nat} (h : a + b < 2 ^ 64) : wadd a b = a + b := by
  unfold wadd
  exact Nat.mod_eq_of_lt h

theorem wsub_of_le {a b : Nat} (h : b ≤ a) (ha : a < 2 ^ 64) : wsub a b = a - b := by
  unfold wsub
  omega

/-- A difference below zero wraps to the top of the range. -/
theorem wsub_of_lt {a b : Nat} (h : a < b) : wsub a b = a + 2 ^ 64 - b := by
  unfold wsub
  omega

end SikRadio.Foundations.Word64
