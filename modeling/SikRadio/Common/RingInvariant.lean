import SikRadio.Common.CircularBuffer
import SikRadio.Foundations.RingOffsets

/-!
# The ring invariant of the buffer

After a reset with a packet size that fits, the tail and the head stay aligned
and inside the rounded capacity. The one exception is a buffer of a single
packet, whose head may rest at the end of the ring. Under the invariant every
operation has a closed form, and the conditions under which it stops are exact.
-/

namespace SikRadio.Common.CircularBuffer

open Foundations.CheckedRuns Foundations.MemoryCells Foundations.Word64 Foundations.RingOffsets

variable {α : Type} {b : CircularBuffer α} {packet : AudioPacket α}

structure Ring (b : CircularBuffer α) : Prop where
  psize_pos : 0 < b.psize
  psize_le : b.psize ≤ b.capacity
  tail_dvd : b.psize ∣ b.tail
  head_dvd : b.psize ∣ b.head
  tail_lt : b.tail < b.roundedCap
  head_lt : b.head < b.roundedCap ∨
    (b.head = b.roundedCap ∧ b.tail = 0 ∧ b.roundedCap = b.psize)

theorem roundedCap_le (b : CircularBuffer α) : b.roundedCap ≤ b.capacity :=
  Nat.div_mul_le_self _ _

theorem dvd_roundedCap (b : CircularBuffer α) : b.psize ∣ b.roundedCap :=
  Nat.dvd_mul_left _ _

/-- The room that a full buffer leaves for its window. -/
theorem roundedCap_sub_psize (b : CircularBuffer α) :
    b.roundedCap - b.psize = (b.capacity / b.psize - 1) * b.psize := by
  rw [roundedCap, Nat.sub_mul, Nat.one_mul]

namespace Ring

theorem psize_le_roundedCap (h : Ring b) : b.psize ≤ b.roundedCap :=
  le_div_mul h.psize_pos h.psize_le

theorem head_le (h : Ring b) : b.head ≤ b.roundedCap := by
  rcases h.head_lt with hlt | ⟨heq, _⟩ <;> omega

theorem tail_add_le (h : Ring b) : b.tail + b.psize ≤ b.roundedCap :=
  add_le_of_lt h.tail_dvd (dvd_roundedCap b) h.tail_lt

theorem head_add_le (h : Ring b) (hlt : b.head < b.roundedCap) :
    b.head + b.psize ≤ b.roundedCap :=
  add_le_of_lt h.head_dvd (dvd_roundedCap b) hlt

/-- With two packets fitting, the head is always an index of the ring. -/
theorem head_lt_of_two (h : Ring b) (h2 : 2 * b.psize ≤ b.capacity) :
    b.head < b.roundedCap := by
  have hcap : 2 * b.psize ≤ b.roundedCap := two_mul_le_div_mul h.psize_pos h2
  have hpos := h.psize_pos
  rcases h.head_lt with hlt | ⟨_, _, hone⟩ <;> omega

theorem dvd_range (h : Ring b) : b.psize ∣ b.range := by
  unfold CircularBuffer.range
  split
  · exact Nat.dvd_sub h.head_dvd h.tail_dvd
  · exact Nat.dvd_add h.head_dvd (Nat.dvd_sub (dvd_roundedCap b) h.tail_dvd)

theorem range_add_le (h : Ring b) (hlt : b.head < b.roundedCap) :
    b.range + b.psize ≤ b.roundedCap := by
  apply add_le_of_lt h.dvd_range (dvd_roundedCap b)
  unfold CircularBuffer.range
  split <;> omega

theorem range_le (h : Ring b) : b.range ≤ b.roundedCap := by
  have ht := h.tail_lt
  have hh := h.head_le
  unfold CircularBuffer.range
  split <;> omega

/-- The head is the cell reached from the tail by the length of the window. -/
theorem tail_add_range (h : Ring b) (hlt : b.head < b.roundedCap) :
    (b.tail + b.range) % b.roundedCap = b.head := by
  have ht := h.tail_lt
  unfold CircularBuffer.range
  split
  · rw [Nat.mod_eq_of_lt (by omega)]
    omega
  · rw [mod_of_le (by omega) (by omega)]
    omega

theorem checkRange_eq (h : Ring b) : b.checkRange = .ok () := by
  have hpos := h.psize_pos
  simp only [checkRange, check_eq_ok_iff]
  omega

end Ring

/-- What the constructor leaves. -/
theorem new_fields [Zero α] {capacity : Nat} (hnew : new capacity = some b) :
    b.psize = 0 ∧ b.capacity = capacity ∧ b.capacity ≤ ptrdiffMax := by
  unfold new at hnew
  split at hnew
  · obtain rfl := Option.some.inj hnew
    exact ⟨rfl, rfl, ‹_›⟩
  · simp at hnew

theorem new_positions [Zero α] {capacity : Nat} (hnew : new capacity = some b) :
    b.absHead = 0 ∧ b.byte0 = 0 := by
  unfold new at hnew
  split at hnew
  · obtain rfl := Option.some.inj hnew
    exact ⟨rfl, rfl⟩
  · simp at hnew

/-! ## Closed forms -/

@[simp] theorem clear_eq_ok_iff [Zero α] {pos n : Nat} {b' : CircularBuffer α} :
    b.clear pos n = .ok b' ↔ pos + n ≤ b.capacity ∧
      { b with data := fill b.data pos n 0, occupied := fill b.occupied pos n false } = b' := by
  simp [clear]

@[simp] theorem store_eq_ok_iff {pos : Nat} {b' : CircularBuffer α} :
    b.store pos packet = .ok b' ↔
      b.psize ≤ packet.psize ∧ (pos + b.psize ≤ b.capacity ∧ pos < b.capacity) ∧
      { b with
        data := blit b.data pos (packet.audioData.take b.psize)
        occupied := fun i => if i = pos then true else b.occupied i } = b' := by
  simp [store]

@[simp] theorem readData_eq_ok_iff {pos n : Nat} {xs : List α} :
    b.readData pos n = .ok xs ↔ pos + n ≤ b.capacity ∧ slice b.data pos n = xs := by
  simp [readData]

/-- The buffer after a push that is accepted: the skipped slot is cleared, the
packet stored behind it and the tail moved when the head overtakes it. -/
@[simps -fullyApplied] def pushed [Zero α] (b : CircularBuffer α) (packet : AudioPacket α) :
    CircularBuffer α :=
  { b with
    absHead := wadd packet.firstByteNum b.psize
    head := (b.head + b.headOffset packet + b.psize) % b.roundedCap
    tail := b.tailAfterPush (b.head + b.headOffset packet + b.psize)
    empty := false
    data := blit (fill b.data b.head (b.headOffset packet) 0)
      ((b.head + b.headOffset packet) % b.roundedCap) (packet.audioData.take b.psize)
    occupied := fun i =>
      if i = (b.head + b.headOffset packet) % b.roundedCap then true
      else fill b.occupied b.head (b.headOffset packet) false i }

/-- The buffer after a packet ahead of a buffer of a single packet. -/
@[simps -fullyApplied] def restarted [Zero α] (b : CircularBuffer α) (packet : AudioPacket α) :
    CircularBuffer α :=
  { b with
    absHead := wadd packet.firstByteNum b.psize
    head := b.psize
    tail := (b.psize + b.psize) % b.roundedCap
    empty := false
    data := blit (fill b.data 0 b.capacity 0) 0 (packet.audioData.take b.psize)
    occupied := fun i => if i = 0 then true else fill b.occupied 0 b.capacity false i }

/-- The buffer after a gap fill that does not stop. -/
@[simps -fullyApplied] def gapFilled (b : CircularBuffer α) (packet : AudioPacket α) :
    CircularBuffer α :=
  { b with
    data := blit b.data (b.gapIndex (b.tailOffset packet)) (packet.audioData.take b.psize)
    occupied := fun i => if i = b.gapIndex (b.tailOffset packet) then true else b.occupied i
    empty := false }

/-- The buffer after one packet is dumped. -/
@[simps -fullyApplied] def dumped [Zero α] (b : CircularBuffer α) : CircularBuffer α :=
  { b with
    data := fill b.data b.tail b.psize 0
    occupied := fill b.occupied b.tail b.psize false
    tail := (b.tail + b.psize) % b.roundedCap }

/-- A push clears at most the slot at the head. -/
theorem Ring.clearSkipped_eq_ok_iff [Zero α] (h : Ring b) {o : Nat} (hdvd : b.psize ∣ o)
    (hle : o ≤ b.psize) (hlt : o < b.roundedCap) {b' : CircularBuffer α} :
    b.clearSkipped ((b.head + o) % b.roundedCap) = .ok b' ↔
      { b with data := fill b.data b.head o 0, occupied := fill b.occupied b.head o false } =
        b' := by
  have hhead := h.head_le
  have hcap := roundedCap_le b
  have hpos := h.psize_pos
  have hsum : b.head + o < 2 * b.roundedCap := by omega
  -- a skip never crosses the end of the ring: it stops there at the latest
  have hend : b.head + o ≤ b.roundedCap := by
    rcases h.head_lt with hl | ⟨heq, -, hone⟩
    · have := h.head_add_le hl
      omega
    · have : o = 0 := Nat.eq_zero_of_dvd_of_lt hdvd (by omega)
      omega
  rcases mod_cases hsum with ⟨_, e⟩ | ⟨hge, e⟩
  · rw [e]
    simp only [clearSkipped, Nat.le_add_right, if_true, Nat.add_sub_cancel_left, clear_eq_ok_iff]
    exact and_iff_right (by omega)
  · have hzero : b.head + o - b.roundedCap = 0 := by omega
    have ho : b.roundedCap - b.head = o := by omega
    have hhpos : ¬ b.head ≤ 0 := by omega
    rw [e, hzero]
    simp only [clearSkipped, hhpos, if_false, bind_eq_ok_iff, clear_eq_ok_iff, ho, fill_zero]
    constructor
    · rintro ⟨a, ⟨_, rfl⟩, _, rfl⟩
      rfl
    · rintro rfl
      exact ⟨_, ⟨by omega, rfl⟩, by simp, rfl⟩

/-- What `try_push_head` does, and when it stops. -/
theorem Ring.tryPushHead_eq_ok_iff [Zero α] (h : Ring b) {b' : CircularBuffer α} :
    b.tryPushHead packet = .ok b' ↔
      b.psize ∣ b.headOffset packet ∧
        ((b.psize < b.headOffset packet ∧ b = b') ∨
          (b.headOffset packet ≤ b.psize ∧ b.roundedCap ≤ b.headOffset packet ∧
            b.psize ≤ packet.psize ∧ b.restarted packet = b') ∨
          (b.headOffset packet ≤ b.psize ∧ b.headOffset packet < b.roundedCap ∧
            b.psize ≤ packet.psize ∧ b.pushed packet = b')) := by
  have hpos := h.psize_pos
  have hne : b.psize ≠ 0 := by omega
  have hcap := roundedCap_le b
  have hone := h.psize_le_roundedCap
  simp only [tryPushHead, bind_eq_ok_iff, check_eq_ok_iff, exists_const, ← Nat.dvd_iff_mod_eq_zero]
  rw [and_iff_right hne]
  apply and_congr_right
  intro hdvd
  rcases Nat.lt_or_ge b.psize (b.headOffset packet) with hfar | hnear
  · simp [hfar, Nat.not_le.mpr hfar]
  · rcases Nat.lt_or_ge (b.headOffset packet) b.roundedCap with hin | hout
    · have hw : (b.head + b.headOffset packet) % b.roundedCap + b.psize ≤ b.roundedCap :=
        add_le_of_lt (dvd_mod (dvd_roundedCap b) (Nat.dvd_add h.head_dvd hdvd))
          (dvd_roundedCap b) (Nat.mod_lt _ (by omega))
      simp only [if_neg (Nat.not_lt.mpr hnear), if_neg (Nat.not_le.mpr hin),
        bind_eq_ok_iff, h.clearSkipped_eq_ok_iff hdvd hnear hin]
      simp only [store_eq_ok_iff, pure_eq_ok_iff, exists_eq_left', Nat.not_lt.mpr hnear,
        Nat.not_le.mpr hin, hnear, hin, false_and, true_and, false_or]
      constructor
      · rintro ⟨_, ⟨hlen, _, rfl⟩, rfl⟩
        exact ⟨hlen, rfl⟩
      · rintro ⟨hlen, rfl⟩
        exact ⟨_, ⟨hlen, by omega, rfl⟩, rfl⟩
    · rw [if_neg (Nat.not_lt.mpr hnear), if_pos hout]
      simp only [Nat.not_lt.mpr hnear, Nat.not_lt.mpr hout, hnear, hout, false_and, true_and,
        false_or, or_false, bind_eq_ok_iff, store_eq_ok_iff, check_eq_ok_iff]
      constructor
      · rintro ⟨_, ⟨hlen, _, rfl⟩, _, _, hrun⟩
        exact ⟨hlen, Except.ok.inj hrun⟩
      · rintro ⟨hlen, rfl⟩
        have hfit : 0 + b.psize ≤ b.capacity ∧ 0 < b.capacity := by omega
        exact ⟨_, ⟨hlen, hfit, rfl⟩, (), by omega, rfl⟩

/-- What `fill_gap` does, and when it stops. -/
theorem Ring.fillGap_eq_ok_iff (h : Ring b) {b' : CircularBuffer α} :
    b.fillGap packet = .ok b' ↔
      b.psize ∣ b.tailOffset packet ∧ b.sideof (b.tailOffset packet) ≠ .none ∧
        b.psize ≤ packet.psize ∧ b.gapIndex (b.tailOffset packet) + b.psize ≤ b.capacity ∧
        b.gapFilled packet = b' := by
  have hpos := h.psize_pos
  have hne : b.psize ≠ 0 := by omega
  simp only [fillGap, bind_eq_ok_iff, check_eq_ok_iff, exists_const, h.checkRange_eq,
    ← Nat.dvd_iff_mod_eq_zero, store_eq_ok_iff, pure_eq_ok_iff, true_and]
  constructor
  · rintro ⟨_, hdvd, hside, _, ⟨hlen, hfit, rfl⟩, rfl⟩
    exact ⟨hdvd, hside, hlen, hfit.1, rfl⟩
  · rintro ⟨hdvd, hside, hlen, hfit, rfl⟩
    exact ⟨hne, hdvd, hside, _, ⟨hlen, ⟨hfit, by omega⟩, rfl⟩, rfl⟩

/-- Dumping one packet writes the slot at the tail and never stops. -/
theorem Ring.dumpTail_psize [Zero α] (h : Ring b) :
    b.dumpTail b.psize = .ok (b.dumped, slice b.data b.tail b.psize) := by
  have hpos := h.psize_pos
  have htail := h.tail_add_le
  have hcap := roundedCap_le b
  have hone := h.psize_le_roundedCap
  have hnowrap : ¬ (b.head < b.tail ∧ b.roundedCap - b.tail < b.psize) := by omega
  simp only [dumpTail, hnowrap, if_false, Nat.sub_self, bind_eq_ok_iff, check_eq_ok_iff,
    readData_eq_ok_iff, clear_eq_ok_iff, pure_eq_ok_iff, exists_const, Nat.mod_self]
  refine ⟨by omega, trivial, _, ⟨by omega, rfl⟩, _, ⟨by omega, rfl⟩, _, ⟨by omega, rfl⟩, _,
    ⟨by simp, rfl⟩, by omega, ?_⟩
  simp [dumped]

/-! ## Preservation -/

/-- A reset with a packet size that fits establishes the invariant. -/
theorem ring_reset [Zero α] (b : CircularBuffer α) {psize : Nat} (hpos : 0 < psize)
    (hle : psize ≤ b.capacity) : Ring (b.reset psize) where
  psize_pos := hpos
  psize_le := hle
  tail_dvd := Nat.dvd_zero _
  head_dvd := Nat.dvd_zero _
  tail_lt := lt_of_lt_of_le hpos (le_div_mul hpos hle)
  head_lt := Or.inl (lt_of_lt_of_le hpos (le_div_mul hpos hle))

theorem ring_resetAt [Zero α] (b : CircularBuffer α) {psize absHead : Nat} (hpos : 0 < psize)
    (hle : psize ≤ b.capacity) : Ring (b.resetAt psize absHead) :=
  ring_reset { b with absHead, byte0 := absHead } hpos hle

/-- The invariant only reads the sizes and the two indices. -/
theorem Ring.of_eq {b' : CircularBuffer α} (h : Ring b) (hcap : b'.capacity = b.capacity)
    (hpsize : b'.psize = b.psize) (htail : b'.tail = b.tail) (hhead : b'.head = b.head) :
    Ring b' := by
  have hround : b'.roundedCap = b.roundedCap := by simp only [roundedCap, hcap, hpsize]
  obtain ⟨h1, h2, h3, h4, h5, h6⟩ := h
  constructor <;> simp only [hcap, hpsize, htail, hhead, hround] <;> assumption

/-- A push leaves the tail or moves it one packet past the new head. -/
theorem tailAfterPush_cases (b : CircularBuffer α) (v : Nat) :
    b.tailAfterPush v = (v % b.roundedCap + b.psize) % b.roundedCap ∨
      b.tailAfterPush v = b.tail := by
  simp only [tailAfterPush]
  split
  · exact .inl rfl
  · split
    · exact .inl rfl
    · exact .inr rfl

theorem Ring.tailAfterPush_dvd (h : Ring b) {v : Nat} (hv : b.psize ∣ v) :
    b.psize ∣ b.tailAfterPush v := by
  rcases tailAfterPush_cases b v with e | e
  · rw [e]
    apply dvd_mod (dvd_roundedCap b)
    exact Nat.dvd_add (dvd_mod (dvd_roundedCap b) hv) (Nat.dvd_refl _)
  · rw [e]
    exact h.tail_dvd

theorem Ring.tailAfterPush_lt (h : Ring b) (v : Nat) : b.tailAfterPush v < b.roundedCap := by
  rcases tailAfterPush_cases b v with e | e
  · rw [e]
    exact Nat.mod_lt _ (lt_of_le_of_lt (Nat.zero_le _) h.tail_lt)
  · rw [e]
    exact h.tail_lt

theorem ring_pushed [Zero α] (h : Ring b) (hdvd : b.psize ∣ b.headOffset packet) :
    Ring (b.pushed packet) := by
  have hv : b.psize ∣ b.head + b.headOffset packet + b.psize :=
    Nat.dvd_add (Nat.dvd_add h.head_dvd hdvd) (Nat.dvd_refl _)
  refine ⟨h.psize_pos, h.psize_le, h.tailAfterPush_dvd hv, dvd_mod (dvd_roundedCap b) hv,
    h.tailAfterPush_lt _, Or.inl (Nat.mod_lt _ ?_)⟩
  exact lt_of_le_of_lt (Nat.zero_le _) h.tail_lt

theorem ring_restarted [Zero α] (h : Ring b) (hnear : b.headOffset packet ≤ b.psize)
    (hout : b.roundedCap ≤ b.headOffset packet) : Ring (b.restarted packet) := by
  have hone := h.psize_le_roundedCap
  have hcap : b.roundedCap = b.psize := by omega
  have hzero : (b.psize + b.psize) % b.roundedCap = 0 := by
    rw [hcap]
    simp
  have hpos := h.psize_pos
  refine ⟨hpos, h.psize_le, ?_, Nat.dvd_refl _, ?_, Or.inr ⟨hcap.symm, hzero, hcap⟩⟩
  · change b.psize ∣ (b.psize + b.psize) % b.roundedCap
    exact hzero.symm ▸ dvd_zero _
  · change (b.psize + b.psize) % b.roundedCap < b.roundedCap
    omega

theorem ring_gapFilled (h : Ring b) : Ring (b.gapFilled packet) :=
  h.of_eq rfl rfl rfl rfl

theorem ring_dumped [Zero α] (h : Ring b) : Ring b.dumped := by
  have htail := h.tail_lt
  refine ⟨h.psize_pos, h.psize_le,
    dvd_mod (dvd_roundedCap b) (Nat.dvd_add h.tail_dvd (Nat.dvd_refl _)), h.head_dvd,
    Nat.mod_lt _ (by omega), ?_⟩
  rcases h.head_lt with hlt | ⟨hhead, htail0, hone⟩
  · exact Or.inl hlt
  · refine Or.inr ⟨hhead, ?_, hone⟩
    change (b.tail + b.psize) % b.roundedCap = 0
    rw [htail0, hone, Nat.zero_add, Nat.mod_self]

/-- Under the invariant the length of the window can be computed, so that the
first check of `try_put` passes. -/
theorem Ring.tryPut_eq [Zero α] (h : Ring b) :
    b.tryPut packet =
      if packet.firstByteNum < b.absTail then .ok b
      else if b.absHead ≤ packet.firstByteNum then b.tryPushHead packet
      else b.fillGap packet := by
  simp only [CircularBuffer.tryPut, h.checkRange_eq, bind, Except.bind, pure, Except.pure]

/-- The four things that `try_put` can do when it does not stop. -/
theorem tryPut_cases [Zero α] (h : Ring b) {b' : CircularBuffer α}
    (hput : b.tryPut packet = .ok b') :
    (b.Dismisses packet ∧ b' = b) ∨
      (b.absHead ≤ packet.firstByteNum ∧ b.psize ∣ b.headOffset packet ∧
        b.headOffset packet ≤ b.psize ∧ b.roundedCap ≤ b.headOffset packet ∧
        b.psize ≤ packet.psize ∧ b' = b.restarted packet) ∨
      (b.absHead ≤ packet.firstByteNum ∧ b.psize ∣ b.headOffset packet ∧
        b.headOffset packet ≤ b.psize ∧ b.headOffset packet < b.roundedCap ∧
        b.psize ≤ packet.psize ∧ b' = b.pushed packet) ∨
      (b.absTail ≤ packet.firstByteNum ∧ packet.firstByteNum < b.absHead ∧
        b.psize ∣ b.tailOffset packet ∧ b.sideof (b.tailOffset packet) ≠ .none ∧
        b.psize ≤ packet.psize ∧ b.gapIndex (b.tailOffset packet) + b.psize ≤ b.capacity ∧
        b' = b.gapFilled packet) := by
  rw [h.tryPut_eq] at hput
  split at hput
  · exact Or.inl ⟨Or.inl ‹_›, (Except.ok.inj hput).symm⟩
  · split at hput
    · rename_i hahead
      obtain ⟨hdvd, ⟨hfar, rfl⟩ | ⟨hnear, hout, hlen, rfl⟩ | ⟨hnear, hin, hlen, rfl⟩⟩ :=
        h.tryPushHead_eq_ok_iff.mp hput
      · exact Or.inl ⟨Or.inr ⟨hahead, hfar⟩, rfl⟩
      · exact Or.inr (Or.inl ⟨hahead, hdvd, hnear, hout, hlen, rfl⟩)
      · exact Or.inr (Or.inr (Or.inl ⟨hahead, hdvd, hnear, hin, hlen, rfl⟩))
    · obtain ⟨hdvd, hside, hlen, hfit, rfl⟩ := h.fillGap_eq_ok_iff.mp hput
      exact Or.inr (Or.inr (Or.inr ⟨by omega, by omega, hdvd, hside, hlen, hfit, rfl⟩))

/-- A packet that is dismissed leaves the buffer as it is. -/
theorem eq_of_dismisses [Zero α] (h : Ring b) (hd : b.Dismisses packet) {b' : CircularBuffer α}
    (hput : b.tryPut packet = .ok b') : b' = b := by
  rw [h.tryPut_eq] at hput
  split at hput
  case isTrue => exact (Except.ok.inj hput).symm
  case isFalse hbehind =>
    obtain ⟨hahead, hfar⟩ := hd.resolve_left hbehind
    rw [if_pos hahead] at hput
    obtain ⟨-, ⟨-, heq⟩ | ⟨hnear, -⟩ | ⟨hnear, -⟩⟩ := h.tryPushHead_eq_ok_iff.mp hput
    · exact heq.symm
    · exact absurd hfar (Nat.not_lt.mpr hnear)
    · exact absurd hfar (Nat.not_lt.mpr hnear)

theorem ring_tryPut [Zero α] (h : Ring b) {b' : CircularBuffer α}
    (hput : b.tryPut packet = .ok b') : Ring b' := by
  rcases tryPut_cases h hput with
    ⟨_, rfl⟩ | ⟨_, _, hnear, hout, _, rfl⟩ | ⟨_, hdvd, _, _, _, rfl⟩ | ⟨_, _, _, _, _, _, rfl⟩
  · exact h
  · exact ring_restarted h hnear hout
  · exact ring_pushed h hdvd
  · exact ring_gapFilled h

/-- `try_put` never touches the sizes or the start of the playback. -/
theorem tryPut_fields [Zero α] (h : Ring b) {b' : CircularBuffer α}
    (hput : b.tryPut packet = .ok b') :
    b'.psize = b.psize ∧ b'.capacity = b.capacity ∧ b'.byte0 = b.byte0 := by
  rcases tryPut_cases h hput with
    ⟨_, rfl⟩ | ⟨_, _, _, _, _, rfl⟩ | ⟨_, _, _, _, _, rfl⟩ | ⟨_, _, _, _, _, _, rfl⟩ <;>
    exact ⟨rfl, rfl, rfl⟩

theorem tryPut_absHead_lt [Zero α] (h : Ring b) (habs : b.absHead < 2 ^ 64)
    {b' : CircularBuffer α} (hput : b.tryPut packet = .ok b') : b'.absHead < 2 ^ 64 := by
  rcases tryPut_cases h hput with
    ⟨_, rfl⟩ | ⟨_, _, _, _, _, rfl⟩ | ⟨_, _, _, _, _, rfl⟩ | ⟨_, _, _, _, _, _, rfl⟩
  · exact habs
  · exact wadd_lt _ _
  · exact wadd_lt _ _
  · exact habs

/-! From here on the closed forms are known by the lemmas about their fields. -/

@[simp] theorem roundedCap_pushed [Zero α] : (b.pushed packet).roundedCap = b.roundedCap := rfl

@[simp] theorem roundedCap_gapFilled : (b.gapFilled packet).roundedCap = b.roundedCap := rfl

@[simp] theorem roundedCap_dumped [Zero α] : b.dumped.roundedCap = b.roundedCap := rfl

@[simp] theorem range_gapFilled : (b.gapFilled packet).range = b.range := rfl

attribute [irreducible] pushed restarted gapFilled dumped

end SikRadio.Common.CircularBuffer
