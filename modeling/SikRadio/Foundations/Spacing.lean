import Mathlib.Tactic

/-!
# Counting what does not stand next to each other

Among `n` places in a row at most half are taken when no two taken ones are
neighbours; one more is possible only when the last place is taken.
-/

namespace SikRadio.Foundations.Spacing

theorem two_mul_countP_le {p : Nat → Bool} {n : Nat}
    (h : ∀ k, k + 1 < n → p k = true → p (k + 1) = false) :
    2 * (List.range n).countP p ≤ n + if p (n - 1) then 1 else 0 := by
  induction n with
  | zero => simp
  | succ n ih =>
      have hbefore := ih fun k hk => h k (by omega)
      rw [List.range_succ, List.countP_append, List.countP_singleton, Nat.add_sub_cancel]
      cases hlast : p n with
      | false =>
          have hle : (if p (n - 1) then 1 else 0) ≤ 1 := by split <;> omega
          simp only [Bool.false_eq_true, if_false]
          omega
      | true =>
          simp only [if_true]
          cases n with
          | zero => simp
          | succ n =>
              have hfree : p n ≠ true := fun htaken => by
                rw [h n (Nat.lt_succ_self _) htaken] at hlast
                cases hlast
              rw [Nat.add_sub_cancel, if_neg hfree] at hbefore
              omega

end SikRadio.Foundations.Spacing
