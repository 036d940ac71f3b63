import Mathlib.Tactic

/-!
# Offsets in a ring of aligned slots

A ring of `cap` cells is cut into slots of `m` cells. Positions of slots are
multiples of `m`, so distinct slots are at least `m` apart. The lemmas turn the
remainder by `cap` into at most one subtraction, which is all a walk around the
ring needs.
-/

namespace SikRadio.Foundations.RingOffsets

variable {m cap a b x : Nat}

/-- Aligned positions that differ leave room for a whole slot. -/
theorem add_le_of_lt (ha : m ∣ a) (hb : m ∣ b) (h : a < b) : a + m ≤ b := by
  obtain ⟨i, rfl⟩ := ha
  obtain ⟨j, rfl⟩ := hb
  have hij : i < j := Nat.lt_of_mul_lt_mul_left h
  calc
    m * i + m = m * (i + 1) := by ring
    _ ≤ m * j := Nat.mul_le_mul_left m hij

theorem slots_disjoint (ha : m ∣ a) (hb : m ∣ b) (h : a ≠ b) : a + m ≤ b ∨ b + m ≤ a := by
  rcases Nat.lt_or_gt_of_ne h with hlt | hgt
  · exact Or.inl (add_le_of_lt ha hb hlt)
  · exact Or.inr (add_le_of_lt hb ha hgt)

theorem mod_of_le (h : cap ≤ x) (h' : x < 2 * cap) : x % cap = x - cap := by
  rw [Nat.mod_eq_sub_mod h, Nat.mod_eq_of_lt (by omega)]

/-- One revolution: the remainder is the position itself or one ring less. -/
theorem mod_cases (h : x < 2 * cap) :
    (x < cap ∧ x % cap = x) ∨ (cap ≤ x ∧ x % cap = x - cap) := by
  rcases Nat.lt_or_ge x cap with hlt | hge
  · exact Or.inl ⟨hlt, Nat.mod_eq_of_lt hlt⟩
  · exact Or.inr ⟨hge, mod_of_le hge h⟩

theorem dvd_mod (hcap : m ∣ cap) (hx : m ∣ x) : m ∣ x % cap :=
  (Nat.dvd_mod_iff hcap).mpr hx

/-- Offsets less than a revolution apart reach different cells. -/
theorem offset_injective {o o' : Nat} (ho : o < o' + cap) (ho' : o' < o + cap)
    (h : (a + o) % cap = (a + o') % cap) : o = o' := by
  have hmod : o ≡ o' [MOD cap] := Nat.ModEq.add_left_cancel' a h
  apply hmod.eq_of_abs_lt
  rw [abs_lt]
  omega

/-- Moving the origin by `e` shifts every offset by `e`. -/
theorem offset_shift (cap a e o : Nat) : ((a + e) % cap + o) % cap = (a + (e + o)) % cap := by
  rw [Nat.mod_add_mod, Nat.add_assoc]

/-- A ring that holds one slot is rounded down to at least one slot. -/
theorem le_div_mul (hm : 0 < m) (h : m ≤ cap) : m ≤ cap / m * m := by
  have : 1 ≤ cap / m := (Nat.one_le_div_iff hm).mpr h
  calc
    m = 1 * m := (Nat.one_mul m).symm
    _ ≤ cap / m * m := Nat.mul_le_mul_right m this

theorem two_mul_le_div_mul (hm : 0 < m) (h : 2 * m ≤ cap) : 2 * m ≤ cap / m * m :=
  Nat.mul_le_mul_right m ((Nat.le_div_iff_mul_le hm).mpr h)

/-- The slot behind the last but one. -/
theorem pred_mul_add {n : Nat} (hn : 0 < n) (m : Nat) : (n - 1) * m + m = n * m := by
  calc
    (n - 1) * m + m = (n - 1 + 1) * m := (Nat.succ_mul _ m).symm
    _ = n * m := by rw [Nat.sub_add_cancel hn]

/-- Slot `2 * j + 1` lies inside two revolutions when slot `j` lies inside one. -/
theorem odd_mul_add_le {j n : Nat} (hj : j < n) (m : Nat) :
    (2 * j + 1) * m + m ≤ 2 * (n * m) := by
  calc
    (2 * j + 1) * m + m = 2 * (j + 1) * m := by ring
    _ ≤ 2 * n * m := Nat.mul_le_mul_right m (Nat.mul_le_mul_left 2 hj)
    _ = 2 * (n * m) := Nat.mul_assoc 2 n m

end SikRadio.Foundations.RingOffsets
