import SikRadio.Common.RingWindow

/-!
# When a put stops the program

The exact conditions under which `try_put` passes every division, assertion,
copy and array access: over a ring, and over the buffer that a reset leaves.
-/

namespace SikRadio.Common.CircularBuffer

open Foundations.CheckedRuns Foundations.MemoryCells Foundations.Word64 Foundations.RingOffsets

variable {α : Type} {b : CircularBuffer α} {packet : AudioPacket α}

/-- The offsets that `fill_gap` neither rejects nor sends out of the array. -/
def FillsInside (b : CircularBuffer α) (o : Nat) : Prop :=
  if b.tail ≤ b.head then b.tail ≤ o
  else if o ≤ b.head then b.roundedCap ≤ 2 * b.tail + o ∧ 2 * b.tail + o < 2 * b.roundedCap
  else b.tail ≤ o ∧ b.tail + o < b.roundedCap

/-- The packets that `try_put` survives: late ones, aligned ones far ahead or with enough
payload, and those that fill a gap inside the array. -/
def SafePut (b : CircularBuffer α) (packet : AudioPacket α) : Prop :=
  packet.firstByteNum < b.absTail ∨
    (b.absHead ≤ packet.firstByteNum ∧ b.psize ∣ b.headOffset packet ∧
      (b.psize < b.headOffset packet ∨ b.psize ≤ packet.psize)) ∨
    (b.absTail ≤ packet.firstByteNum ∧ packet.firstByteNum < b.absHead ∧
      b.psize ∣ b.tailOffset packet ∧ b.psize ≤ packet.psize ∧
      b.FillsInside (b.tailOffset packet))

/-- A multiple of the packet size below the capacity leaves room for a packet exactly
when it is below the rounded capacity. -/
theorem add_le_capacity_iff (h : Ring b) {i : Nat} (hdvd : b.psize ∣ i) :
    i + b.psize ≤ b.capacity ↔ i < b.roundedCap := by
  have hcap := roundedCap_le b
  constructor
  · intro hle
    have hdiv : i / b.psize + 1 ≤ b.capacity / b.psize := by
      rw [Nat.le_div_iff_mul_le h.psize_pos, Nat.add_mul, Nat.one_mul, Nat.div_mul_cancel hdvd]
      exact hle
    calc
      i = i / b.psize * b.psize := (Nat.div_mul_cancel hdvd).symm
      _ < (i / b.psize + 1) * b.psize := Nat.mul_lt_mul_of_pos_right (by omega) h.psize_pos
      _ ≤ b.roundedCap := Nat.mul_le_mul_right _ hdiv
  · intro hlt
    exact (add_le_of_lt hdvd (dvd_roundedCap b) hlt).trans hcap

/-- The assertion and the bounds of `fill_gap` hold exactly for these offsets. -/
theorem fillsInside_iff (h : Ring b) (hmax : b.capacity ≤ ptrdiffMax) {o : Nat}
    (hdvd : b.psize ∣ o) (hrange : o < b.range) :
    (b.sideof o ≠ .none ∧ b.gapIndex o + b.psize ≤ b.capacity) ↔ b.FillsInside o := by
  have htail := h.tail_lt
  have hhead := h.head_le
  have hcap := roundedCap_le b
  have hr := h.range_le
  have hmax' : b.capacity < 2 ^ 63 := Nat.lt_of_le_of_lt hmax (by decide)
  rcases Nat.lt_or_ge b.head b.tail with hwrap | hplain
  · rcases Nat.lt_or_ge b.head o with hright | hleft
    · by_cases hin : b.tail ≤ o ∧ o < b.roundedCap
      · have hside : b.sideof o = .right := by
          simp [sideof, Nat.not_le.mpr hwrap, Nat.not_le.mpr hright, hin]
        have hindex : b.gapIndex o = b.tail + o := by simp [gapIndex, hside]
        rw [hside, hindex, add_le_capacity_iff h (Nat.dvd_add h.tail_dvd hdvd)]
        simp [FillsInside, Nat.not_le.mpr hwrap, Nat.not_le.mpr hright, hin.1]
      · have hside : b.sideof o = .none := by
          simp [sideof, Nat.not_le.mpr hwrap, Nat.not_le.mpr hright]
          omega
        simp [FillsInside, Nat.not_le.mpr hwrap, Nat.not_le.mpr hright, hside]
        omega
    · have hside : b.sideof o = .left := by
        simp [sideof, Nat.not_le.mpr hwrap, hleft]
      have hindex : b.gapIndex o = wsub (b.tail + o) (b.roundedCap - b.tail) := by
        simp [gapIndex, hside, hwrap]
      simp only [FillsInside, Nat.not_le.mpr hwrap, if_false, hleft, if_true]
      rw [hside, hindex]
      rcases Nat.lt_or_ge (2 * b.tail + o) b.roundedCap with hunder | hover
      · rw [wsub_of_lt (by omega)]
        constructor <;> intro <;> omega
      · have hsub : wsub (b.tail + o) (b.roundedCap - b.tail) = 2 * b.tail + o - b.roundedCap := by
          rw [wsub_of_le (by omega) (by omega)]
          omega
        have hdvd' : b.psize ∣ 2 * b.tail + o - b.roundedCap :=
          Nat.dvd_sub (Nat.dvd_add (h.tail_dvd.mul_left 2) hdvd) (dvd_roundedCap b)
        rw [hsub, add_le_capacity_iff h hdvd']
        simp only [ne_eq, reduceCtorEq, not_false_eq_true, true_and, hover]
        omega
  · have hrange' : b.range = b.head - b.tail := if_pos hplain
    have hside : b.sideof o = if b.tail ≤ o then .left else .none := by
      have : o ≤ b.head := by omega
      simp [sideof, hplain, this]
    have hindex : b.gapIndex o = b.tail + o := by simp [gapIndex, Nat.not_lt.mpr hplain]
    rw [hindex, hside, add_le_capacity_iff h (Nat.dvd_add h.tail_dvd hdvd)]
    simp only [FillsInside, hplain, if_true]
    split
    · simp_all
      omega
    · simp_all

/-- The exact condition under which `try_put` does not stop. -/
theorem tryPut_ok_iff [Zero α] (h : Ring b) (hmax : b.capacity ≤ ptrdiffMax)
    (habs : b.absHead < 2 ^ 64) :
    (∃ b', b.tryPut packet = .ok b') ↔ b.SafePut packet := by
  rw [h.tryPut_eq]
  rcases Nat.lt_or_ge packet.firstByteNum b.absTail with hlate | hin
  · simp [SafePut, hlate]
  · rcases Nat.lt_or_ge packet.firstByteNum b.absHead with hgap | hahead
    · have hrange : b.tailOffset packet < b.range := tailOffset_lt_range h hmax hin hgap habs
      rw [if_neg (Nat.not_lt.mpr hin), if_neg (Nat.not_le.mpr hgap)]
      simp only [h.fillGap_eq_ok_iff, SafePut, Nat.not_lt.mpr hin, Nat.not_le.mpr hgap, hin, hgap,
        false_and, true_and, false_or]
      constructor
      · rintro ⟨_, hdvd, hside, hlen, hfit, _⟩
        exact ⟨hdvd, hlen, (fillsInside_iff h hmax hdvd hrange).mp ⟨hside, hfit⟩⟩
      · rintro ⟨hdvd, hlen, hfills⟩
        obtain ⟨hside, hfit⟩ := (fillsInside_iff h hmax hdvd hrange).mpr hfills
        exact ⟨_, hdvd, hside, hlen, hfit, rfl⟩
    · rw [if_neg (Nat.not_lt.mpr hin), if_pos hahead]
      simp only [h.tryPushHead_eq_ok_iff, SafePut, Nat.not_lt.mpr hin, hahead,
        Nat.not_lt.mpr hahead, false_or, true_and, and_false, or_false, false_and]
      constructor
      · rintro ⟨_, hdvd, ⟨hfar, _⟩ | ⟨_, _, hlen, _⟩ | ⟨_, _, hlen, _⟩⟩
        · exact ⟨hdvd, Or.inl hfar⟩
        · exact ⟨hdvd, Or.inr hlen⟩
        · exact ⟨hdvd, Or.inr hlen⟩
      · rintro ⟨hdvd, hor⟩
        rcases Nat.lt_or_ge b.psize (b.headOffset packet) with hfar | hnear
        · exact ⟨_, hdvd, Or.inl ⟨hfar, rfl⟩⟩
        · have hlen := hor.resolve_left (Nat.not_lt.mpr hnear)
          rcases Nat.lt_or_ge (b.headOffset packet) b.roundedCap with hlt | hge
          · exact ⟨_, hdvd, Or.inr (Or.inr ⟨hnear, hlt, hlen, rfl⟩)⟩
          · exact ⟨_, hdvd, Or.inr (Or.inl ⟨hnear, hge, hlen, rfl⟩)⟩

/-- With tail and head together, a packet not behind the head goes to the push. -/
theorem tryPut_of_tail_eq_head [Zero α] (htail : b.tail = b.head)
    (habs : b.absHead ≤ packet.firstByteNum) : b.tryPut packet = b.tryPushHead packet := by
  have hrange : b.range = 0 := by simp [range, htail]
  have htail' : b.absTail = b.absHead % 2 ^ 64 := by
    rw [absTail, hrange, wsub, Nat.sub_zero, Nat.add_mod_right]
  have hin : ¬ packet.firstByteNum < b.absTail := by
    have := Nat.mod_le b.absHead (2 ^ 64)
    omega
  have hcheck : b.checkRange = .ok () := by
    simp [checkRange, htail]
  simp only [tryPut, hcheck, if_neg hin, if_pos habs, bind, Except.bind]

/-- A push without a packet size divides by zero. -/
theorem tryPushHead_of_psize_zero [Zero α] (hpsize : b.psize = 0) {b' : CircularBuffer α} :
    b.tryPushHead packet ≠ .ok b' := by
  intro hpush
  simp only [tryPushHead, bind_eq_ok_iff, check_eq_ok_iff] at hpush
  obtain ⟨_, hne, _⟩ := hpush
  exact hne hpsize

/-- A push of a packet larger than the buffer copies past the array. -/
theorem tryPushHead_of_capacity_lt [Zero α] (hbig : b.capacity < b.psize)
    (hoffset : b.headOffset packet = 0) {b' : CircularBuffer α} :
    b.tryPushHead packet ≠ .ok b' := by
  have hround : b.roundedCap = 0 := by
    rw [roundedCap, Nat.div_eq_of_lt hbig, Nat.zero_mul]
  intro hpush
  simp only [tryPushHead, hoffset, hround, Nat.not_lt_zero, if_false, Nat.le_refl, if_true,
    bind_eq_ok_iff, check_eq_ok_iff, store_eq_ok_iff] at hpush
  obtain ⟨_, _, _, _, _, ⟨_, ⟨hfit, _⟩, _⟩, _⟩ := hpush
  simp only [reset] at hfit
  omega

/-- The first put after a reset survives exactly when a packet fits. -/
theorem tryPut_resetAt_ok_iff [Zero α] (b : CircularBuffer α) :
    (∃ b', (b.resetAt packet.psize packet.firstByteNum).tryPut packet = .ok b') ↔
      0 < packet.psize ∧ packet.psize ≤ b.capacity := by
  have hoffset : (b.resetAt packet.psize packet.firstByteNum).headOffset packet = 0 :=
    (headOffset_eq (le_refl _)).trans (Nat.sub_self _)
  rw [tryPut_of_tail_eq_head rfl (le_refl _)]
  constructor
  · rintro ⟨b', hput⟩
    constructor
    · by_contra hzero
      exact tryPushHead_of_psize_zero (Nat.eq_zero_of_not_pos hzero) hput
    · by_contra hbig
      exact tryPushHead_of_capacity_lt (Nat.not_le.mp hbig) hoffset hput
  · rintro ⟨hpos, hle⟩
    have hring : Ring (b.resetAt packet.psize packet.firstByteNum) := ring_resetAt b hpos hle
    refine ⟨_, hring.tryPushHead_eq_ok_iff.mpr ⟨hoffset ▸ dvd_zero _, Or.inr (Or.inr
      ⟨hoffset ▸ Nat.zero_le _, ?_, le_refl _, rfl⟩)⟩⟩
    rw [hoffset]
    exact lt_of_lt_of_le hring.psize_pos hring.psize_le_roundedCap

end SikRadio.Common.CircularBuffer
