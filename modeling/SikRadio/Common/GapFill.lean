import SikRadio.Common.PutFaults

/-!
# Where a gap fill stores

A packet inside the window belongs in the slot at its distance from the tail.
`fill_gap` asks `sideof`, which is about indices, for the side of that distance;
the two coincide while the tail is at index zero. This module says exactly for
which distances the payload still ends up in its slot.

## Implementation notes

The index of the copy is compared with the slot, not only the contents afterwards:
a packet that is copied to a slot which holds the same payload already would go
unnoticed.
-/

namespace SikRadio.Common.CircularBuffer

open Foundations.CheckedRuns Foundations.MemoryCells Foundations.Word64 Foundations.RingOffsets

variable {α : Type} {b : CircularBuffer α} {packet : AudioPacket α}

/-- The buffer with the payload at index `pos`, that index marked occupied and nothing else
changed. -/
def withPayloadAt (b : CircularBuffer α) (pos : Nat) (packet : AudioPacket α) :
    CircularBuffer α :=
  { b with
    data := blit b.data pos (packet.audioData.take b.psize)
    occupied := fun i => if i = pos then true else b.occupied i
    empty := false }

theorem gapFilled_eq : b.gapFilled packet =
    b.withPayloadAt (b.gapIndex (b.tailOffset packet)) packet := by
  unfold gapFilled
  rfl

/-- `try_put` passes its checks, copies to the packet's slot and changes nothing else. -/
def FillsItsSlot [Zero α] (b : CircularBuffer α) (packet : AudioPacket α) : Prop :=
  b.gapIndex (b.tailOffset packet) = b.slot (b.tailOffset packet) ∧
    b.tryPut packet = .ok (b.withPayloadAt (b.slot (b.tailOffset packet)) packet)

/-- Within the window, the side of a distance is right exactly when the distance read as an
index lies between the tail and the end of the ring, and so does the slot. -/
theorem gapIndex_eq_slot_iff (h : Ring b) (hmax : b.capacity ≤ ptrdiffMax) {o : Nat}
    (hrange : o < b.range) :
    (b.sideof o ≠ .none ∧ b.gapIndex o = b.slot o) ↔
      b.tail ≤ o ∧ b.tail + o < b.roundedCap := by
  have htail := h.tail_lt
  have hcap := roundedCap_le b
  have hr := h.range_le
  have hslot := slot_lt h o
  have hmax' : b.capacity < 2 ^ 63 := Nat.lt_of_le_of_lt hmax (by decide)
  constructor
  · rintro ⟨hside, hindex⟩
    unfold sideof at hside
    unfold gapIndex sideof at hindex
    rcases Nat.lt_or_ge b.head b.tail with hwrap | hplain
    · rw [if_neg (Nat.not_le.mpr hwrap)] at hside hindex
      rcases Nat.lt_or_ge b.head o with hright | hleft
      · rw [if_neg (Nat.not_le.mpr hright)] at hside hindex
        by_cases hin : b.tail ≤ o ∧ o < b.roundedCap
        · rw [if_pos hin, if_neg (by simp)] at hindex
          omega
        · rw [if_neg hin] at hside
          exact absurd rfl hside
      · -- a distance that is taken for an index left of the head is stored too far right
        rw [if_pos hleft, if_pos ⟨hwrap, rfl⟩] at hindex
        unfold slot wsub at hindex
        rcases mod_cases (show b.tail + o < 2 * b.roundedCap by omega) with ⟨_, e⟩ | ⟨_, e⟩
        · omega
        · omega
    · rw [if_pos hplain] at hside
      rw [if_neg (fun hwrap => absurd hwrap.1 (Nat.not_lt.mpr hplain))] at hindex
      by_cases hin : b.tail ≤ o ∧ o ≤ b.head
      · omega
      · rw [if_neg hin] at hside
        exact absurd rfl hside
  · rintro ⟨hle, hlt⟩
    exact gapIndex_eq_slot h hle hlt hrange

/-- A packet inside the window is stored in its slot exactly when its distance from the tail is
at least the tail and its slot lies before the end of the ring, given enough payload. -/
theorem fillsItsSlot_iff [Zero α] (h : Ring b) (hmax : b.capacity ≤ ptrdiffMax)
    (habs : b.absHead < 2 ^ 64)
    (hlo : b.absTail ≤ packet.firstByteNum) (hhi : packet.firstByteNum < b.absHead)
    (hdvd : b.psize ∣ b.tailOffset packet) :
    FillsItsSlot b packet ↔
      b.psize ≤ packet.psize ∧ b.tail ≤ b.tailOffset packet ∧
        b.tail + b.tailOffset packet < b.roundedCap := by
  have hrange := tailOffset_lt_range h hmax hlo hhi habs
  have hput : b.tryPut packet = b.fillGap packet := by
    rw [h.tryPut_eq, if_neg (Nat.not_lt.mpr hlo), if_neg (Nat.not_le.mpr hhi)]
  have hinside : b.slot (b.tailOffset packet) + b.psize ≤ b.capacity :=
    (add_le_capacity_iff h (dvd_slot h hdvd)).mpr (slot_lt h _)
  rw [FillsItsSlot, hput, h.fillGap_eq_ok_iff, ← gapIndex_eq_slot_iff h hmax hrange]
  constructor
  · rintro ⟨hindex, -, hside, hlen, -, -⟩
    exact ⟨hlen, hside, hindex⟩
  · rintro ⟨hlen, hside, hindex⟩
    refine ⟨hindex, hdvd, hside, hlen, hindex ▸ hinside, ?_⟩
    rw [gapFilled_eq, hindex]

/-- A ring of four bytes that lacks the first packet of its window. -/
def lackingFirst (tail head absHead : Nat) : CircularBuffer UInt8 where
  absHead
  byte0 := 0
  capacity := 4
  psize := 1
  tail
  head
  data := fun i => if i = tail then 0 else 7
  occupied := fun i => decide (i ≠ tail)
  empty := false

theorem ring_lackingFirst {tail head : Nat} (htail : tail < 4) (hhead : head < 4)
    (absHead : Nat) : Ring (lackingFirst tail head absHead) where
  psize_pos := Nat.one_pos
  psize_le := Nat.le_add_left 1 3
  tail_dvd := one_dvd tail
  head_dvd := one_dvd head
  tail_lt := by simpa [roundedCap, lackingFirst] using htail
  head_lt := .inl (by simpa [roundedCap, lackingFirst] using hhead)

/-- With the tail at index zero the gap is filled. -/
theorem fillsItsSlot_unwrapped :
    FillsItsSlot (lackingFirst 0 3 3) (AudioPacket.oneByte 9 0) :=
  (fillsItsSlot_iff (ring_lackingFirst (by decide) (by decide) 3) (by decide) (by decide)
    (by decide) (by decide) (by decide)).mpr ⟨by decide, by decide, by decide⟩

/-- After one eviction the head rests at index zero, and filling the first slot of the window
copies to an index far past the array. -/
theorem not_fillsItsSlot_wrapped :
    let b := lackingFirst 1 0 4
    let packet := AudioPacket.oneByte 9 1
    Ring b ∧ 2 * b.psize ≤ b.capacity ∧ b.capacity ≤ ptrdiffMax ∧ b.absHead < 2 ^ 64 ∧
      b.absTail ≤ packet.firstByteNum ∧ packet.firstByteNum < b.absHead ∧
      b.psize ∣ b.tailOffset packet ∧ packet.psize = b.psize ∧
      (b.tryPut packet).isOk = false ∧ ¬FillsItsSlot b packet := by
  have hfault : ((lackingFirst 1 0 4).tryPut (AudioPacket.oneByte 9 1)).isOk = false := by decide
  refine ⟨ring_lackingFirst (by decide) (by decide) 4, by decide, by decide, by decide, by decide,
    by decide, one_dvd _, rfl, hfault, ?_⟩
  rintro ⟨-, hput⟩
  exact ne_ok_of_isOk hfault hput

end SikRadio.Common.CircularBuffer
