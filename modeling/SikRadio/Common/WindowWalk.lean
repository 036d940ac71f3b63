import SikRadio.Common.RingWindow

/-!
# Walking the window

Two loops of the program start at the tail and add the packet size until they
meet the head. Over a ring with its head inside they pass the slots of the
window one after the other, each once.
-/

namespace SikRadio.Common.CircularBuffer

open Foundations.RingOffsets

variable {α : Type} {b : CircularBuffer α}

/-- The number of slots in the window. -/
def windowLen (b : CircularBuffer α) : Nat := b.range / b.psize

/-- The index of slot `k` of the window, counted from the tail. -/
def windowSlot (b : CircularBuffer α) (k : Nat) : Nat := b.slot (k * b.psize)

theorem windowLen_mul (h : Ring b) : b.windowLen * b.psize = b.range :=
  Nat.div_mul_cancel h.dvd_range

/-- One slot of the ring always stays free. -/
theorem windowLen_lt (h : Ring b) (hlt : b.head < b.roundedCap) :
    b.windowLen < b.capacity / b.psize := by
  have hle : b.windowLen * b.psize + b.psize ≤ b.capacity / b.psize * b.psize :=
    windowLen_mul h ▸ h.range_add_le hlt
  have hpos := h.psize_pos
  apply Nat.lt_of_mul_lt_mul_right (a := b.psize)
  omega

theorem windowSlot_zero (h : Ring b) : b.windowSlot 0 = b.tail := by
  rw [windowSlot, Nat.zero_mul, slot_zero h]

/-- Both loops step to the next slot. -/
theorem windowSlot_succ (b : CircularBuffer α) (k : Nat) :
    (b.windowSlot k + b.psize) % b.roundedCap = b.windowSlot (k + 1) := by
  rw [windowSlot, windowSlot, slot, slot, Nat.mod_add_mod, Nat.add_assoc, Nat.add_mul, Nat.one_mul]

/-- The walk ends at the head. -/
theorem windowSlot_windowLen (h : Ring b) (hlt : b.head < b.roundedCap) :
    b.windowSlot b.windowLen = b.head := by
  rw [windowSlot, windowLen_mul h]
  exact h.tail_add_range hlt

theorem windowSlot_lt (h : Ring b) (k : Nat) : b.windowSlot k < b.roundedCap :=
  slot_lt h _

theorem mul_psize_le_range (h : Ring b) {k : Nat} (hk : k ≤ b.windowLen) :
    k * b.psize ≤ b.range :=
  windowLen_mul h ▸ Nat.mul_le_mul_right b.psize hk

theorem mul_psize_lt_range (h : Ring b) {k : Nat} (hk : k < b.windowLen) :
    k * b.psize < b.range :=
  windowLen_mul h ▸ Nat.mul_lt_mul_of_pos_right hk h.psize_pos

/-- The slots of the window and the head are all different. -/
theorem windowSlot_injective (h : Ring b) (hlt : b.head < b.roundedCap) {k l : Nat}
    (hk : k ≤ b.windowLen) (hl : l ≤ b.windowLen) (heq : b.windowSlot k = b.windowSlot l) :
    k = l := by
  have hrange := h.range_add_le hlt
  have hpos := h.psize_pos
  have hk' := mul_psize_le_range h hk
  have hl' := mul_psize_le_range h hl
  have hmul : k * b.psize = l * b.psize := slot_injective (by omega) (by omega) heq
  exact Nat.eq_of_mul_eq_mul_right hpos hmul

/-- The walk does not meet the head before its end. -/
theorem windowSlot_ne_head (h : Ring b) (hlt : b.head < b.roundedCap) {k : Nat}
    (hk : k < b.windowLen) : b.windowSlot k ≠ b.head := by
  intro heq
  rw [← windowSlot_windowLen h hlt] at heq
  have := windowSlot_injective h hlt hk.le le_rfl heq
  omega

/-- The walk comes back after one round of the ring. -/
theorem windowSlot_add_capacity (b : CircularBuffer α) (k : Nat) :
    b.windowSlot (k + b.capacity / b.psize) = b.windowSlot k := by
  rw [windowSlot, windowSlot, slot, slot, Nat.add_mul, ← Nat.add_assoc]
  exact Nat.add_mod_right _ _

/-- The slots of the ring are all different. -/
theorem eq_of_windowSlot_eq (h : Ring b) {k l : Nat} (hk : k < b.capacity / b.psize)
    (hl : l < b.capacity / b.psize) (heq : b.windowSlot k = b.windowSlot l) : k = l := by
  have hk' : k * b.psize < b.roundedCap := Nat.mul_lt_mul_of_pos_right hk h.psize_pos
  have hl' : l * b.psize < b.roundedCap := Nat.mul_lt_mul_of_pos_right hl h.psize_pos
  have hmul : k * b.psize = l * b.psize := slot_injective (by omega) (by omega) heq
  exact Nat.eq_of_mul_eq_mul_right h.psize_pos hmul

/-- The walk is back at the tail after one round and not before. -/
theorem windowSlot_eq_tail_iff (h : Ring b) {k : Nat} (hpos : 0 < k)
    (hk : k ≤ b.capacity / b.psize) : b.windowSlot k = b.tail ↔ k = b.capacity / b.psize := by
  rw [← windowSlot_zero h]
  constructor
  · intro heq
    by_contra hne
    have := eq_of_windowSlot_eq h (by omega) (by omega) heq
    omega
  · rintro rfl
    rw [← windowSlot_add_capacity b 0, Nat.zero_add]

/-- The indices that a loop passes in `steps` rounds. -/
def visited (b : CircularBuffer α) (steps : Nat) : List Nat :=
  List.iterate (fun i => (i + b.psize) % b.roundedCap) b.tail steps

theorem iterate_eq_windowSlot (h : Ring b) (k : Nat) :
    (fun i => (i + b.psize) % b.roundedCap)^[k] b.tail = b.windowSlot k := by
  induction k with
  | zero => exact (windowSlot_zero h).symm
  | succ k ih => rw [Function.iterate_succ_apply', ih, windowSlot_succ]

theorem visited_eq (h : Ring b) (steps : Nat) :
    b.visited steps = (List.range steps).map b.windowSlot := by
  apply List.ext_getElem
  · simp [visited]
  · intro k hk hk'
    simp [visited, iterate_eq_windowSlot h]

/-! ## What a push does to the walk -/

section Push

variable {packet : AudioPacket α} (h : Ring b) (hdvd : b.psize ∣ b.headOffset packet)

include h hdvd

/-- The packet is that many slots behind the window. -/
theorem range_add_headOffset : b.range + b.headOffset packet =
    (b.windowLen + b.headOffset packet / b.psize) * b.psize := by
  rw [Nat.add_mul, windowLen_mul h, Nat.div_mul_cancel hdvd]

variable (h2 : 2 * b.psize ≤ b.capacity) (hnear : b.headOffset packet ≤ b.psize)

include h2 hnear

theorem windowLen_pushed [Zero α] : (b.pushed packet).windowLen =
    min (b.windowLen + b.headOffset packet / b.psize + 1) (b.capacity / b.psize - 1) := by
  rw [windowLen, pushed_psize, (range_pushed h h2 hdvd hnear).1, range_add_headOffset h hdvd,
    roundedCap_sub_psize, ← Nat.succ_mul, Nat.mul_min_mul_right, Nat.mul_div_cancel _ h.psize_pos]

/-- Where the slots of the new window are, counted from the old tail. -/
theorem windowSlot_pushed [Zero α] (k : Nat) : (b.pushed packet).windowSlot k =
    b.windowSlot
      (b.windowLen + b.headOffset packet / b.psize + 1 - (b.capacity / b.psize - 1) + k) := by
  obtain ⟨-, htail⟩ := range_pushed h h2 hdvd hnear
  have hrange : (b.pushed packet).range = (b.pushed packet).windowLen * b.psize := by
    rw [← windowLen_mul (ring_pushed h hdvd), pushed_psize]
  have hmoved : b.range + b.headOffset packet + b.psize - (b.pushed packet).range =
      (b.windowLen + b.headOffset packet / b.psize + 1 - (b.capacity / b.psize - 1)) *
        b.psize := by
    rw [hrange, windowLen_pushed h hdvd h2 hnear, range_add_headOffset h hdvd, ← Nat.succ_mul,
      ← Nat.sub_mul, Nat.succ_eq_add_one, tsub_min]
  rw [windowSlot, pushed_psize, slot_of_tail_eq roundedCap_pushed htail, hmoved, ← Nat.add_mul,
    windowSlot]

/-- The flags that a push leaves, by the slots counted from the old tail. -/
theorem occupied_pushed [Zero α] {j : Nat}
    (hle : j ≤ b.windowLen + b.headOffset packet / b.psize)
    (hclose : b.windowLen + b.headOffset packet / b.psize < j + b.capacity / b.psize) :
    (b.pushed packet).occupied (b.windowSlot j) =
      if j = b.windowLen + b.headOffset packet / b.psize then true
      else if j < b.windowLen then b.occupied (b.windowSlot j) else false := by
  have hlt := h.head_lt_of_two h2
  have hpos := h.psize_pos
  have hroom := windowLen_lt h hlt
  have hnew : b.slot (b.range + b.headOffset packet) =
      b.windowSlot (b.windowLen + b.headOffset packet / b.psize) := by
    rw [range_add_headOffset h hdvd, windowSlot]
  have hhead := windowSlot_windowLen h hlt
  rcases Nat.eq_or_lt_of_le hle with heq | hbefore
  · rw [if_pos heq, heq, ← hnew]
    exact occupied_pushed_new h hlt
  · rw [if_neg hbefore.ne]
    rcases Nat.lt_or_ge j b.windowLen with hold | hskip
    · rw [if_pos hold]
      have hmul := Nat.mul_lt_mul_of_pos_right hbefore hpos
      have hclose' := Nat.mul_lt_mul_of_pos_right hclose hpos
      rw [Nat.add_mul j] at hclose'
      apply occupied_pushed_of_ne h hlt hnear (dvd_slot h (Nat.dvd_mul_left _ _))
      · rw [hnew]
        intro heq
        have := slot_injective (by rw [roundedCap]; omega) (by rw [roundedCap]; omega) heq
        omega
      · exact .inr (windowSlot_ne_head h hlt hold)
    · -- a push skips one slot, the one at the head
      rw [if_neg (Nat.not_lt.mpr hskip)]
      rcases offset_cases hdvd hnear with hzero | hone
      · rw [hzero, Nat.zero_div] at hbefore
        exact absurd hbefore (Nat.not_lt.mpr hskip)
      · rw [hone, Nat.div_self hpos] at hbefore
        obtain rfl : j = b.windowLen := le_antisymm (Nat.lt_succ_iff.mp hbefore) hskip
        rw [hhead]
        exact occupied_pushed_skip h h2 hone

/-- A push leaves the flags of the slots behind the packet. -/
theorem occupied_pushed_behind [Zero α] {k : Nat}
    (hlo : b.windowLen + b.headOffset packet / b.psize < k) (hhi : k < b.capacity / b.psize) :
    (b.pushed packet).occupied (b.windowSlot k) = b.occupied (b.windowSlot k) := by
  have hlt := h.head_lt_of_two h2
  have hne {j : Nat} (hj : j < k) : b.windowSlot k ≠ b.windowSlot j := fun heq => by
    have := eq_of_windowSlot_eq h hhi (hj.trans hhi) heq
    omega
  apply occupied_pushed_of_ne h hlt hnear (dvd_slot h (Nat.dvd_mul_left _ _))
  · rw [range_add_headOffset h hdvd]
    exact hne hlo
  · rw [← windowSlot_windowLen h hlt]
    exact .inr (hne ((Nat.le_add_right _ _).trans_lt hlo))

end Push

end SikRadio.Common.CircularBuffer
