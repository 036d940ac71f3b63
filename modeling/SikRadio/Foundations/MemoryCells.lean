import Mathlib.Tactic

/-!
# Block operations on memory cells

A memory is a function from addresses to cells. `fill` is the effect of a
`memset`, `blit` of a `memcpy` into the memory, and `slice` reads a block back.
Bounds are the business of the caller.
-/

namespace SikRadio.Foundations.MemoryCells

variable {α : Type}

/-- Set the `n` cells from `pos` to `x`. -/
def fill (m : Nat → α) (pos n : Nat) (x : α) : Nat → α :=
  fun i => if pos ≤ i ∧ i < pos + n then x else m i

/-- Copy the list `xs` to the cells from `pos`. -/
def blit (m : Nat → α) (pos : Nat) (xs : List α) : Nat → α :=
  fun i => if pos ≤ i then (xs[i - pos]?).getD (m i) else m i

/-- The `n` cells from `pos`, in order. -/
def slice (m : Nat → α) (pos n : Nat) : List α :=
  (List.range n).map fun j => m (pos + j)

theorem fill_of_mem (m : Nat → α) {pos n i : Nat} (x : α) (h : pos ≤ i ∧ i < pos + n) :
    fill m pos n x i = x := by
  simp [fill, h]

theorem fill_of_not_mem (m : Nat → α) {pos n i : Nat} (x : α)
    (h : i < pos ∨ pos + n ≤ i) : fill m pos n x i = m i := by
  unfold fill
  rw [if_neg (by omega)]

@[simp] theorem fill_zero (m : Nat → α) (pos : Nat) (x : α) : fill m pos 0 x = m := by
  funext i
  exact fill_of_not_mem m x (by omega)

/-- Two fills with one value, of which the second starts at address zero. -/
theorem fill_fill_eq (m : Nat → α) (pos n n' i : Nat) (x : α) :
    fill (fill m pos n x) 0 n' x i = if (pos ≤ i ∧ i < pos + n) ∨ i < n' then x else m i := by
  simp only [fill]
  split_ifs <;> first | rfl | omega

theorem blit_of_mem (m : Nat → α) {pos i : Nat} {xs : List α} (h : pos ≤ i)
    (hi : i - pos < xs.length) : blit m pos xs i = xs[i - pos] := by
  simp [blit, h, List.getElem?_eq_getElem hi]

theorem blit_of_not_mem (m : Nat → α) {pos i : Nat} {xs : List α}
    (h : i < pos ∨ pos + xs.length ≤ i) : blit m pos xs i = m i := by
  unfold blit
  split
  · rw [List.getElem?_eq_none (by omega), Option.getD_none]
  · rfl

@[simp] theorem length_slice (m : Nat → α) (pos n : Nat) : (slice m pos n).length = n := by
  simp [slice]

@[simp] theorem slice_zero (m : Nat → α) (pos : Nat) : slice m pos 0 = [] := rfl

@[simp] theorem getElem_slice (m : Nat → α) (pos n j : Nat) (h : j < (slice m pos n).length) :
    (slice m pos n)[j] = m (pos + j) := by
  simp [slice]

theorem slice_add (m : Nat → α) (pos n n' : Nat) :
    slice m pos (n + n') = slice m pos n ++ slice m (pos + n) n' := by
  simp [slice, List.range_add, Nat.add_assoc]

/-- A block cut into pieces of one size. -/
theorem slice_mul (m : Nat → α) (pos w n : Nat) :
    slice m pos (n * w) = (List.range n).flatMap fun k => slice m (pos + k * w) w := by
  induction n with
  | zero => rw [Nat.zero_mul, slice_zero, List.range_zero, List.flatMap_nil]
  | succ n ih =>
      rw [Nat.succ_mul, slice_add, ih, List.range_succ, List.flatMap_append]
      simp

/-- Blocks that agree cell by cell are equal. -/
theorem slice_congr {m m' : Nat → α} {pos n : Nat}
    (h : ∀ i, pos ≤ i → i < pos + n → m i = m' i) : slice m pos n = slice m' pos n := by
  apply List.map_congr_left
  intro j hj
  have hj : j < n := List.mem_range.mp hj
  exact h (pos + j) (by omega) (by omega)

/-- A block copied in is read back. -/
theorem slice_blit (m : Nat → α) (pos : Nat) {xs : List α} {n : Nat} (hn : xs.length = n) :
    slice (blit m pos xs) pos n = xs := by
  subst hn
  apply List.ext_getElem (by simp)
  intro j hj hj'
  have hi : pos + j - pos < xs.length := by omega
  rw [getElem_slice, blit_of_mem m (Nat.le_add_right pos j) hi]
  simp

theorem slice_blit_of_disjoint (m : Nat → α) {pos pos' n : Nat} {xs : List α}
    (h : pos' + n ≤ pos ∨ pos + xs.length ≤ pos') :
    slice (blit m pos xs) pos' n = slice m pos' n :=
  slice_congr fun i hlo hhi => blit_of_not_mem m (by omega)

theorem slice_fill_of_disjoint (m : Nat → α) {pos pos' n n' : Nat} (x : α)
    (h : pos' + n' ≤ pos ∨ pos + n ≤ pos') :
    slice (fill m pos n x) pos' n' = slice m pos' n' :=
  slice_congr fun i hlo hhi => fill_of_not_mem m x (by omega)

theorem slice_eq_replicate {m : Nat → α} {pos n : Nat} {x : α}
    (h : ∀ i, pos ≤ i → i < pos + n → m i = x) : slice m pos n = List.replicate n x := by
  apply List.ext_getElem (by simp)
  intro j hj hj'
  rw [length_slice] at hj
  rw [getElem_slice, List.getElem_replicate]
  exact h (pos + j) (by omega) (by omega)

end SikRadio.Foundations.MemoryCells
