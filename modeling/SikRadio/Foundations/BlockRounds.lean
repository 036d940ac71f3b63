import SikRadio.Foundations.MemoryCells
import SikRadio.Foundations.RingOffsets

/-!
# Blocks written round and round

A memory of `N` slots of `w` cells takes one block after the other, each in the
slot after the last one and the slots over again when all are used. It holds the
last `N` blocks, and the slot that is written next holds the oldest of them.
-/

namespace SikRadio.Foundations.BlockRounds

open MemoryCells RingOffsets

variable {α : Type} {w N n : Nat} {block block' : Nat → List α} {m : Nat → α}

/-- Different slots have no cell in common. -/
theorem slice_blit_slot (m : Nat → α) {i k : Nat} {xs : List α} (hw : 0 < w)
    (hlen : xs.length = w) (hne : i ≠ k) :
    slice (blit m (k * w) xs) (i * w) w = slice m (i * w) w := by
  have hne' : i * w ≠ k * w := fun heq => hne (Nat.eq_of_mul_eq_mul_right hw heq)
  apply slice_blit_of_disjoint
  rw [hlen]
  exact slots_disjoint (Nat.dvd_mul_left w i) (Nat.dvd_mul_left w k) hne'

variable [Zero α]

/-- The first `n` blocks were written into a memory of zeros. -/
structure Rounds (w N n : Nat) (block : Nat → List α) (m : Nat → α) : Prop where
  latest : ∀ j < n, n ≤ j + N → slice m (j % N * w) w = block j
  untouched : ∀ j, n ≤ j → j < N → slice m (j * w) w = List.replicate w 0

/-- What the slot of block `n` holds before that block is written. -/
def overwritten (w N : Nat) (block : Nat → List α) (n : Nat) : List α :=
  if n < N then List.replicate w 0 else block (n - N)

/-- Only the blocks that were written matter. -/
theorem Rounds.congr (h : Rounds w N n block m) (hblock : ∀ j < n, block' j = block j) :
    Rounds w N n block' m where
  latest j hj hlast := (h.latest j hj hlast).trans (hblock j hj).symm
  untouched := h.untouched

theorem Rounds.write (h : Rounds w N n block m) (hw : 0 < w) (hlen : (block n).length = w) :
    Rounds w N (n + 1) block (blit m (n % N * w) (block n)) where
  latest j hj hlast := by
    rcases Nat.eq_or_lt_of_le (Nat.le_of_lt_succ hj) with rfl | hj
    · exact slice_blit m _ hlen
    · have hne : j % N ≠ n % N := by
        intro heq
        have hdvd : N ∣ n - j := Nat.dvd_of_mod_eq_zero (Nat.sub_mod_eq_zero_of_mod_eq heq.symm)
        have hle := Nat.le_of_dvd (by omega) hdvd
        omega
      rw [slice_blit_slot m hw hlen hne]
      exact h.latest j hj (by omega)
  untouched j hnj hj := by
    have hne : j ≠ n % N := by
      rw [Nat.mod_eq_of_lt (by omega)]
      omega
    rw [slice_blit_slot m hw hlen hne]
    exact h.untouched j (by omega) hj

/-- The slot that is written next. -/
theorem Rounds.slice_next (h : Rounds w N n block m) (hN : 0 < N) :
    slice m (n % N * w) w = overwritten w N block n := by
  unfold overwritten
  split
  case isTrue hfirst =>
    rw [Nat.mod_eq_of_lt hfirst]
    exact h.untouched n le_rfl hfirst
  case isFalse hlater =>
    have hmod : (n - N) % N = n % N := (Nat.mod_eq_sub_mod (by omega)).symm
    rw [← hmod]
    exact h.latest (n - N) (by omega) (by omega)

end SikRadio.Foundations.BlockRounds
