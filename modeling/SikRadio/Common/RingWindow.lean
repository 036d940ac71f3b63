import SikRadio.Common.RingInvariant
import SikRadio.Foundations.StreamWindow

/-!
# The ring as a window over the stream

A buffer that holds at least two packets represents a window: its end is
`abs_head`, its start `abs_tail`, and the slot reached from the tail by an offset
holds the block at that distance from the start. Accepted pushes, gap fills at
the right slot and dumps of one packet are the operations of the window.
-/

namespace SikRadio.Common.CircularBuffer

open Foundations Foundations.CheckedRuns Foundations.MemoryCells Foundations.Word64
  Foundations.RingOffsets

variable {α : Type} {b : CircularBuffer α} {packet : AudioPacket α}

/-- The slot at a distance from the tail. -/
def slot (b : CircularBuffer α) (o : Nat) : Nat := (b.tail + o) % b.roundedCap

/-- The slot at index `i` holds the given block, or is unoccupied and all zero. -/
def SlotHolds [Zero α] (b : CircularBuffer α) (i : Nat) : Option (List α) → Prop
  | some xs => b.occupied i = true ∧ slice b.data i b.psize = xs
  | none => b.occupied i = false ∧ slice b.data i b.psize = List.replicate b.psize 0

/-- Two buffers that agree on a slot hold the same block there. -/
theorem SlotHolds.congr [Zero α] {b' : CircularBuffer α} {i : Nat} {block : Option (List α)}
    (h : SlotHolds b i block) (hpsize : b'.psize = b.psize)
    (hocc : b'.occupied i = b.occupied i)
    (hdata : slice b'.data i b.psize = slice b.data i b.psize) : SlotHolds b' i block := by
  cases block <;> simpa only [SlotHolds, hpsize, hocc, hdata] using h

theorem SlotHolds.occupied_eq [Zero α] {i : Nat} {block : Option (List α)}
    (h : SlotHolds b i block) : b.occupied i = block.isSome := by
  cases block with
  | none => exact h.1
  | some xs => exact h.1

theorem dvd_slot (h : Ring b) {o : Nat} (ho : b.psize ∣ o) : b.psize ∣ b.slot o :=
  dvd_mod (dvd_roundedCap b) (Nat.dvd_add h.tail_dvd ho)

theorem slot_lt (h : Ring b) (o : Nat) : b.slot o < b.roundedCap :=
  Nat.mod_lt _ (lt_of_le_of_lt (Nat.zero_le _) h.tail_lt)

theorem slot_injective {o o' : Nat} (ho : o < o' + b.roundedCap) (ho' : o' < o + b.roundedCap)
    (h : b.slot o = b.slot o') : o = o' :=
  offset_injective ho ho' h

/-- Moving the tail by `e` shifts every slot by `e`. -/
theorem slot_of_tail_eq {b' : CircularBuffer α} {e : Nat} (hround : b'.roundedCap = b.roundedCap)
    (htail : b'.tail = b.slot e) (o : Nat) : b'.slot o = b.slot (e + o) := by
  simp only [slot, hround, htail, offset_shift]

theorem slot_zero (h : Ring b) : b.slot 0 = b.tail :=
  Nat.mod_eq_of_lt h.tail_lt

/-- The write position of a push is the slot behind the window and the skip. -/
theorem writePos_eq_slot (h : Ring b) (hlt : b.head < b.roundedCap) (o : Nat) :
    (b.head + o) % b.roundedCap = b.slot (b.range + o) := by
  rw [← h.tail_add_range hlt, slot, offset_shift]

theorem offset_cases (hdvd : b.psize ∣ b.headOffset packet)
    (hnear : b.headOffset packet ≤ b.psize) :
    b.headOffset packet = 0 ∨ b.headOffset packet = b.psize := by
  rcases Nat.eq_zero_or_pos (b.headOffset packet) with hzero | hpos
  · exact Or.inl hzero
  · exact Or.inr (le_antisymm hnear (Nat.le_of_dvd hpos hdvd))

/-- The length of the window is the distance from the tail to the head. -/
theorem range_of_slot {r : Nat} (htail : b.tail < b.roundedCap) (hr : r < b.roundedCap)
    (hhead : b.head = b.slot r) : b.range = r := by
  unfold slot at hhead
  unfold range
  rcases mod_cases (show b.tail + r < 2 * b.roundedCap by omega) with ⟨_, e⟩ | ⟨_, e⟩ <;>
    split <;> omega

section Push

variable (h : Ring b) (h2 : 2 * b.psize ≤ b.capacity)
  (hdvd : b.psize ∣ b.headOffset packet) (hnear : b.headOffset packet ≤ b.psize)

include h h2

/-- While the window does not fill the ring, a push leaves the tail where it is. -/
theorem tailAfterPush_keep
    (hfit : b.range + b.headOffset packet + b.psize < b.roundedCap) :
    b.tailAfterPush (b.head + b.headOffset packet + b.psize) = b.tail := by
  have hhead := h.head_lt_of_two h2
  have htail := h.tail_lt
  rcases Nat.lt_or_ge b.head b.tail with hwrap | hplain
  · have hrange : b.range = b.head + (b.roundedCap - b.tail) := if_neg (Nat.not_le.mpr hwrap)
    have hvirt : b.head + b.headOffset packet + b.psize < b.tail := by omega
    have e := Nat.mod_eq_of_lt (show b.head + b.headOffset packet + b.psize < b.roundedCap by omega)
    simp only [tailAfterPush, e]
    rw [if_neg (by omega), if_neg (by omega)]
  · have hrange : b.range = b.head - b.tail := if_pos hplain
    have hnew : (b.head + b.headOffset packet + b.psize) < b.roundedCap ∨
        (b.head + b.headOffset packet + b.psize) % b.roundedCap < b.tail := by
      rcases mod_cases
        (show b.head + b.headOffset packet + b.psize < 2 * b.roundedCap by omega)
      with ⟨hlt, _⟩ | ⟨_, e⟩
      · exact Or.inl hlt
      · exact Or.inr (by omega)
    simp only [tailAfterPush]
    rw [if_neg (by omega), if_neg (by omega)]

include hnear

/-- When the head meets or overtakes the tail, the tail moves one packet ahead of the head. -/
theorem tailAfterPush_evict
    (hfull : b.roundedCap ≤ b.range + b.headOffset packet + b.psize) :
    b.tailAfterPush (b.head + b.headOffset packet + b.psize) =
      ((b.head + b.headOffset packet + b.psize) % b.roundedCap + b.psize) % b.roundedCap := by
  have hhead := h.head_lt_of_two h2
  have hhead' := h.head_add_le hhead
  have htail := h.tail_lt
  have hpos := h.psize_pos
  have hcap : 2 * b.psize ≤ b.roundedCap := two_mul_le_div_mul hpos h2
  rcases Nat.lt_or_ge b.head b.tail with hwrap | hplain
  · have hrange : b.range = b.head + (b.roundedCap - b.tail) := if_neg (Nat.not_le.mpr hwrap)
    rcases Nat.lt_or_ge (b.head + b.headOffset packet + b.psize) b.roundedCap with hlt | hge
    · have e := Nat.mod_eq_of_lt hlt
      simp only [tailAfterPush]
      rw [if_neg (by omega), if_pos (by omega)]
    · simp only [tailAfterPush]
      rw [if_pos ⟨hge, Or.inr hwrap⟩]
  · have hrange : b.range = b.head - b.tail := if_pos hplain
    have hge : b.roundedCap ≤ b.head + b.headOffset packet + b.psize := by omega
    have e := mod_of_le hge (by omega)
    simp only [tailAfterPush]
    rw [if_pos ⟨hge, Or.inl ⟨hplain, by omega⟩⟩]

include hdvd

/-- How a push changes the window's length, and by how much it moves the tail. -/
theorem range_pushed [Zero α] :
    (b.pushed packet).range =
        min (b.range + b.headOffset packet + b.psize) (b.roundedCap - b.psize) ∧
      (b.pushed packet).tail =
        b.slot (b.range + b.headOffset packet + b.psize - (b.pushed packet).range) := by
  have hpos := h.psize_pos
  have hcap : 2 * b.psize ≤ b.roundedCap := two_mul_le_div_mul hpos h2
  have hhead := h.head_lt_of_two h2
  have hring' := ring_pushed h hdvd
  have hround : (b.pushed packet).roundedCap = b.roundedCap := roundedCap_pushed
  have hdvd' : b.psize ∣ b.range + b.headOffset packet + b.psize :=
    Nat.dvd_add (Nat.dvd_add h.dvd_range hdvd) (Nat.dvd_refl _)
  have hnewHead : (b.pushed packet).head = b.slot (b.range + b.headOffset packet + b.psize) := by
    rw [pushed_head, Nat.add_assoc, writePos_eq_slot h hhead, Nat.add_assoc]
  rcases Nat.lt_or_ge (b.range + b.headOffset packet + b.psize) b.roundedCap with hfit | hfull
  · have hle := add_le_of_lt hdvd' (dvd_roundedCap b) hfit
    have htail : (b.pushed packet).tail = b.tail := by
      rw [pushed_tail, tailAfterPush_keep h h2 hfit]
    have hrange : (b.pushed packet).range = b.range + b.headOffset packet + b.psize :=
      range_of_slot hring'.tail_lt (hround ▸ hfit) (by rw [hnewHead, slot, slot, htail, hround])
    rw [hrange, htail, Nat.sub_self, slot_zero h]
    exact ⟨(min_eq_left (by omega)).symm, rfl⟩
  · have htail : (b.pushed packet).tail =
        ((b.pushed packet).head + b.psize) % b.roundedCap := by
      rw [pushed_tail, pushed_head, tailAfterPush_evict h h2 hnear hfull]
    have hrange : (b.pushed packet).range = b.roundedCap - b.psize := by
      apply range_of_slot hring'.tail_lt (hround ▸ Nat.sub_lt (by omega) hpos)
      have hlt : (b.pushed packet).head < b.roundedCap := by
        rw [hnewHead]
        exact slot_lt h _
      rw [slot, htail, hround, Nat.mod_add_mod, Nat.add_assoc,
        Nat.add_sub_cancel' (by omega), Nat.add_mod_right, Nat.mod_eq_of_lt hlt]
    refine ⟨hrange.trans (min_eq_right (by omega)).symm, ?_⟩
    have he : b.range + b.headOffset packet + b.psize + b.psize =
        b.range + b.headOffset packet + b.psize - (b.roundedCap - b.psize) + b.roundedCap := by
      omega
    rw [hrange, htail, hnewHead, slot, offset_shift, he, slot, ← Nat.add_assoc,
      Nat.add_mod_right]

end Push

theorem range_dumped [Zero α] (h : Ring b) (hlt : b.head < b.roundedCap)
    (hne : b.psize ≤ b.range) : b.dumped.range = b.range - b.psize := by
  have hpos := h.psize_pos
  have hr := h.range_add_le hlt
  apply range_of_slot (ring_dumped h).tail_lt
  · rw [roundedCap_dumped]
    omega
  · rw [slot_of_tail_eq roundedCap_dumped (dumped_tail b), Nat.add_sub_cancel' hne,
      dumped_head]
    exact (h.tail_add_range hlt).symm

/-! ## Contents of the slots -/

/-- An aligned index in a block of at most one slot is the start of the block. -/
theorem eq_of_mem_block {m i j n : Nat} (hi : m ∣ i) (hj : m ∣ j) (hn : n ≤ m)
    (hmem : j ≤ i ∧ i < j + n) : i = j := by
  by_contra hne
  rcases slots_disjoint hi hj hne with h | h <;> omega

/-- The flag of the slot that a push writes. -/
theorem occupied_pushed_new [Zero α] (h : Ring b) (hlt : b.head < b.roundedCap) :
    (b.pushed packet).occupied (b.slot (b.range + b.headOffset packet)) = true := by
  simp only [pushed_occupied, writePos_eq_slot h hlt, if_true]

/-- A slot that a push does not skip lies outside what it clears. -/
theorem outside_skip (h : Ring b) (hnear : b.headOffset packet ≤ b.psize) {i : Nat}
    (hdvd : b.psize ∣ i) (hskip : b.headOffset packet = 0 ∨ i ≠ b.head) :
    i + b.psize ≤ b.head ∨ b.head + b.headOffset packet ≤ i := by
  rcases hskip with hzero | hne
  · rw [hzero]
    rcases Nat.lt_or_ge i b.head with hlt | hge
    · exact .inl (add_le_of_lt hdvd h.head_dvd hlt)
    · exact .inr hge
  · rcases slots_disjoint hdvd h.head_dvd hne with h1 | h1
    · exact .inl h1
    · exact .inr (by omega)

/-- A push leaves the flag of every slot that it neither skips nor writes. -/
theorem occupied_pushed_of_ne [Zero α] (h : Ring b) (hlt : b.head < b.roundedCap)
    (hnear : b.headOffset packet ≤ b.psize) {i : Nat} (hdvd : b.psize ∣ i)
    (hnew : i ≠ b.slot (b.range + b.headOffset packet))
    (hskip : b.headOffset packet = 0 ∨ i ≠ b.head) :
    (b.pushed packet).occupied i = b.occupied i := by
  have hpos := h.psize_pos
  have hout := outside_skip h hnear hdvd hskip
  simp only [pushed_occupied, writePos_eq_slot h hlt, if_neg hnew]
  exact fill_of_not_mem _ _ (by omega)

/-- With two packets fitting the slot at the head is not the one behind it. -/
theorem head_ne_slot (h : Ring b) (h2 : 2 * b.psize ≤ b.capacity) :
    b.head ≠ b.slot (b.range + b.psize) := by
  have hpos := h.psize_pos
  have hlt := h.head_lt_of_two h2
  have hcap : 2 * b.psize ≤ b.roundedCap := two_mul_le_div_mul hpos h2
  have hhead : b.head = b.slot b.range := (h.tail_add_range hlt).symm
  intro heq
  have := slot_injective (b := b) (by omega) (by omega) (hhead.symm.trans heq)
  omega

/-- The flag of the slot that a push skips. -/
theorem occupied_pushed_skip [Zero α] (h : Ring b) (h2 : 2 * b.psize ≤ b.capacity)
    (hskip : b.headOffset packet = b.psize) : (b.pushed packet).occupied b.head = false := by
  have hpos := h.psize_pos
  simp only [pushed_occupied, writePos_eq_slot h (h.head_lt_of_two h2), hskip,
    if_neg (head_ne_slot h h2)]
  exact fill_of_mem _ _ (by omega)

theorem slotHolds_pushed_new [Zero α] (h : Ring b) (hlt : b.head < b.roundedCap)
    (hlen : b.psize ≤ packet.psize) :
    SlotHolds (b.pushed packet) (b.slot (b.range + b.headOffset packet))
      (some (packet.audioData.take b.psize)) := by
  have htake : (packet.audioData.take b.psize).length = b.psize :=
    List.length_take_of_le hlen
  refine ⟨occupied_pushed_new h hlt, ?_⟩
  simp only [pushed_psize, pushed_data, writePos_eq_slot h hlt]
  exact slice_blit _ _ htake

/-- A slot that a push neither skips nor writes keeps its block. -/
theorem slotHolds_pushed_keep [Zero α] (h : Ring b) (hlt : b.head < b.roundedCap)
    (hnear : b.headOffset packet ≤ b.psize) (hlen : b.psize ≤ packet.psize) {i : Nat}
    (hdvd : b.psize ∣ i) (hdvd' : b.psize ∣ b.headOffset packet)
    (hnew : i ≠ b.slot (b.range + b.headOffset packet))
    (hskip : b.headOffset packet = 0 ∨ i ≠ b.head) {block : Option (List α)}
    (hi : SlotHolds b i block) : SlotHolds (b.pushed packet) i block := by
  have htake : (packet.audioData.take b.psize).length = b.psize :=
    List.length_take_of_le hlen
  have hout := outside_skip h hnear hdvd hskip
  apply hi.congr (pushed_psize _ _)
  · exact occupied_pushed_of_ne h hlt hnear hdvd hnew hskip
  · rw [pushed_data, writePos_eq_slot h hlt]
    have hslots := slots_disjoint hdvd
      (dvd_slot h (Nat.dvd_add h.dvd_range hdvd')) hnew
    rw [slice_blit_of_disjoint _ (by omega), slice_fill_of_disjoint _ _ hout]

theorem slotHolds_pushed_skip [Zero α] (h : Ring b) (h2 : 2 * b.psize ≤ b.capacity)
    (hlen : b.psize ≤ packet.psize) (hskip : b.headOffset packet = b.psize) :
    SlotHolds (b.pushed packet) b.head none := by
  have hpos := h.psize_pos
  have hlt := h.head_lt_of_two h2
  have htake : (packet.audioData.take b.psize).length = b.psize :=
    List.length_take_of_le hlen
  refine ⟨occupied_pushed_skip h h2 hskip, ?_⟩
  rw [pushed_psize, pushed_data, writePos_eq_slot h hlt, hskip]
  have hslots := slots_disjoint h.head_dvd
    (dvd_slot h (Nat.dvd_add h.dvd_range (Nat.dvd_refl _))) (head_ne_slot h h2)
  rw [slice_blit_of_disjoint _ (by omega)]
  exact slice_eq_replicate fun i hlo hhi => fill_of_mem _ _ (by omega)

/-- What a push leaves in the slot at distance `y` from the old tail, given what the slots of
the window hold by their distance. -/
theorem slotHolds_pushed_offset [Zero α] (h : Ring b) (h2 : 2 * b.psize ≤ b.capacity)
    (hdvd : b.psize ∣ b.headOffset packet) (hnear : b.headOffset packet ≤ b.psize)
    (hlen : b.psize ≤ packet.psize) {content : Nat → Option (List α)}
    (hslots : ∀ x, b.psize ∣ x → x < b.range → SlotHolds b (b.slot x) (content x)) {y : Nat}
    (hy : b.psize ∣ y) (hle : y ≤ b.range + b.headOffset packet)
    (hclose : b.range + b.headOffset packet < y + b.roundedCap) :
    SlotHolds (b.pushed packet) (b.slot y)
      (if y = b.range + b.headOffset packet then some (packet.audioData.take b.psize)
        else if y < b.range then content y else none) := by
  have hlt := h.head_lt_of_two h2
  have hhead : b.slot b.range = b.head := h.tail_add_range hlt
  rcases Nat.eq_or_lt_of_le hle with heq | hlt'
  · rw [if_pos heq, heq]
    exact slotHolds_pushed_new h hlt hlen
  · rw [if_neg (Nat.ne_of_lt hlt')]
    have hnew : b.slot y ≠ b.slot (b.range + b.headOffset packet) := fun heq =>
      absurd (slot_injective (by omega) hclose heq) (by omega)
    rcases Nat.lt_or_ge y b.range with hold | hskip
    · have hne : b.slot y ≠ b.head := fun heq =>
        absurd (slot_injective (by omega) (by omega) (heq.trans hhead.symm)) (by omega)
      rw [if_pos hold]
      exact slotHolds_pushed_keep h hlt hnear hlen (dvd_slot h hy) hdvd hnew
        (Or.inr hne) (hslots y hy hold)
    · -- the skipped slot: the push left room for one packet
      rcases offset_cases hdvd hnear with hzero | hone
      · omega
      · have hyr : y = b.range := by
          by_contra hne
          have := add_le_of_lt h.dvd_range hy (by omega)
          omega
        rw [if_neg (Nat.not_lt.mpr hskip), hyr, hhead]
        exact slotHolds_pushed_skip h h2 hlen hone

/-- The packet's payload is in the window, in the slot that belongs to its number. -/
def Contains [Zero α] (b : CircularBuffer α) (packet : AudioPacket α) : Prop :=
  ∃ o, b.psize ∣ o ∧ o < b.range ∧ packet.firstByteNum = wadd b.absTail o ∧
    SlotHolds b (b.slot o) (some packet.audioData)

/-- An accepted push puts the packet into the window, even at the last position of the stream. -/
theorem contains_pushed [Zero α] (h : Ring b) (h2 : 2 * b.psize ≤ b.capacity)
    (hdvd : b.psize ∣ b.headOffset packet) (hnear : b.headOffset packet ≤ b.psize)
    (hlen : packet.psize = b.psize) (hmax : b.capacity ≤ ptrdiffMax) :
    Contains (b.pushed packet) packet := by
  have hpos := h.psize_pos
  have hcap : 2 * b.psize ≤ b.roundedCap := two_mul_le_div_mul hpos h2
  have hring' := ring_pushed h hdvd
  have hdvd' : b.psize ∣ (b.pushed packet).range := pushed_psize b packet ▸ hring'.dvd_range
  have hmax' : b.roundedCap < 2 ^ 63 :=
    Nat.lt_of_le_of_lt ((roundedCap_le b).trans hmax) (by decide)
  obtain ⟨hrange, htail⟩ := range_pushed h h2 hdvd hnear
  have hle : b.psize ≤ (b.pushed packet).range :=
    hrange ▸ le_min (Nat.le_add_left _ _) (by omega)
  have hle' : (b.pushed packet).range ≤ b.range + b.headOffset packet + b.psize :=
    hrange ▸ Nat.min_le_left _ _
  have hround : (b.pushed packet).range ≤ b.roundedCap :=
    hrange ▸ (Nat.min_le_right _ _).trans (Nat.sub_le _ _)
  have htake : packet.audioData.take b.psize = packet.audioData :=
    List.take_of_length_le (le_of_eq hlen)
  have hfbn := packet.firstByteNum_lt
  clear hrange
  refine ⟨(b.pushed packet).range - b.psize, ?_, by omega, ?_, ?_⟩
  · rw [pushed_psize]
    exact Nat.dvd_sub hdvd' (Nat.dvd_refl _)
  · rw [absTail, pushed_absHead]
    generalize (b.pushed packet).range = r' at *
    clear htail hle' hdvd'
    unfold wadd wsub
    omega
  · have hslot := slotHolds_pushed_new h (h.head_lt_of_two h2) (le_of_eq hlen.symm)
    rw [htake] at hslot
    rw [slot_of_tail_eq roundedCap_pushed htail]
    convert hslot using 2
    omega

theorem slotHolds_dumped_keep [Zero α] (h : Ring b) {i : Nat} (hdvd : b.psize ∣ i)
    (hne : i ≠ b.tail) {block : Option (List α)} (hi : SlotHolds b i block) :
    SlotHolds b.dumped i block := by
  have hpos := h.psize_pos
  have hslots := slots_disjoint hdvd h.tail_dvd hne
  apply hi.congr (dumped_psize _)
  · rw [dumped_occupied]
    exact fill_of_not_mem _ _ (by omega)
  · rw [dumped_data, slice_fill_of_disjoint _ _ hslots]

/-- With the offset not left of the tail and not past the end of the ring, the
index that `fill_gap` computes is the slot at that offset. -/
theorem gapIndex_eq_slot (h : Ring b) {o : Nat} (hle : b.tail ≤ o)
    (hlt : b.tail + o < b.roundedCap) (hrange : o < b.range) :
    b.sideof o ≠ .none ∧ b.gapIndex o = b.slot o := by
  have htail := h.tail_lt
  have hslot : b.slot o = b.tail + o := Nat.mod_eq_of_lt hlt
  unfold range at hrange
  rcases Nat.lt_or_ge b.head b.tail with hwrap | hplain
  · have hside : b.sideof o = .right := by
      unfold sideof
      rw [if_neg (by omega), if_neg (by omega), if_pos (by omega)]
    simp [gapIndex, hside, hslot]
  · rw [if_pos hplain] at hrange
    have hside : b.sideof o = .left := by
      unfold sideof
      rw [if_pos hplain, if_pos (by omega)]
    simp [gapIndex, hside, hslot, Nat.not_lt.mpr hplain]

/-- Even at a wrong index a gap fill stays aligned. -/
theorem dvd_gapIndex (h : Ring b) (hmax : b.capacity ≤ ptrdiffMax) {o : Nat}
    (hdvd : b.psize ∣ o) (hrange : o < b.range)
    (hfit : b.gapIndex o + b.psize ≤ b.capacity) : b.psize ∣ b.gapIndex o := by
  have htail := h.tail_lt
  have hcap := roundedCap_le b
  have hr := h.range_le
  have hmax' : b.capacity < 2 ^ 63 := Nat.lt_of_le_of_lt hmax (by decide)
  unfold gapIndex at hfit ⊢
  split
  · rename_i hleft
    rw [if_pos hleft] at hfit
    rcases Nat.lt_or_ge (b.tail + o) (b.roundedCap - b.tail) with hunder | hin
    · rw [wsub_of_lt hunder] at hfit
      omega
    · rw [wsub_of_le hin (by omega)]
      exact Nat.dvd_sub (Nat.dvd_add h.tail_dvd hdvd) (Nat.dvd_sub (dvd_roundedCap b) h.tail_dvd)
  · exact Nat.dvd_add h.tail_dvd hdvd

theorem slotHolds_gapFilled_self [Zero α] {i : Nat} (hlen : b.psize ≤ packet.psize)
    (hi : b.gapIndex (b.tailOffset packet) = i) :
    SlotHolds (b.gapFilled packet) i (some (packet.audioData.take b.psize)) := by
  have htake : (packet.audioData.take b.psize).length = b.psize :=
    List.length_take_of_le hlen
  constructor
  · simp only [gapFilled_occupied, hi, if_true]
  · simp only [gapFilled_psize, gapFilled_data, hi]
    exact slice_blit _ _ htake

theorem slotHolds_gapFilled_keep [Zero α] {i j : Nat} (hlen : b.psize ≤ packet.psize)
    (hj : b.gapIndex (b.tailOffset packet) = j) (hdvd : b.psize ∣ i) (hdvd' : b.psize ∣ j)
    (hne : i ≠ j) {block : Option (List α)} (hi : SlotHolds b i block) :
    SlotHolds (b.gapFilled packet) i block := by
  have htake : (packet.audioData.take b.psize).length = b.psize :=
    List.length_take_of_le hlen
  have hslots := slots_disjoint hdvd hdvd' hne
  apply hi.congr (gapFilled_psize _ _)
  · simp only [gapFilled_occupied, hj, if_neg hne]
  · rw [gapFilled_data, hj, slice_blit_of_disjoint _ (by omega)]

/-! ## Representation -/

theorem headOffset_eq (h : b.absHead ≤ packet.firstByteNum) :
    b.headOffset packet = packet.firstByteNum - b.absHead :=
  wsub_of_le h packet.firstByteNum_lt

theorem tailOffset_eq (h : b.absTail ≤ packet.firstByteNum) :
    b.tailOffset packet = packet.firstByteNum - b.absTail :=
  wsub_of_le h packet.firstByteNum_lt

/-- A packet inside the window lies less than the window's length from its start. -/
theorem tailOffset_lt_range (h : Ring b) (hmax : b.capacity ≤ ptrdiffMax)
    (hlo : b.absTail ≤ packet.firstByteNum) (hhi : packet.firstByteNum < b.absHead)
    (habs : b.absHead < 2 ^ 64) : b.tailOffset packet < b.range := by
  have hr := h.range_le
  have hcap := roundedCap_le b
  have hmax' : b.capacity < 2 ^ 63 := Nat.lt_of_le_of_lt hmax (by decide)
  rw [tailOffset_eq hlo]
  unfold absTail at hlo ⊢
  rcases Nat.lt_or_ge b.absHead b.range with hunder | hin
  · rw [wsub_of_lt hunder] at hlo
    omega
  · rw [wsub_of_le hin habs] at hlo ⊢
    omega

/-- The buffer holds at least two packets and its window is `w`. -/
structure Represents [Zero α] (b : CircularBuffer α) (w : StreamWindow α) : Prop where
  ring : Ring b
  two_fit : 2 * b.psize ≤ b.capacity
  hi_eq : b.absHead = w.hi
  length_eq : w.lo + b.range = w.hi
  hi_lt : w.hi < 2 ^ 64
  slots : ∀ x, b.psize ∣ x → x < b.range → SlotHolds b (b.slot x) (w.held (w.lo + x))

namespace Represents

variable [Zero α] {w : StreamWindow α} (h : Represents b w)

include h

theorem absTail_eq : b.absTail = w.lo := by
  have hlen := h.length_eq
  have hhi := h.hi_lt
  rw [absTail, h.hi_eq, wsub_of_le (by omega) hhi]
  omega

theorem head_lt : b.head < b.roundedCap := h.ring.head_lt_of_two h.two_fit

theorem lo_modEq_hi : w.lo ≡ w.hi [MOD b.psize] :=
  (Nat.modEq_iff_dvd' w.lo_le).mpr (by
    rw [← h.length_eq, Nat.add_sub_cancel_left]
    exact h.ring.dvd_range)

/-- The slot at the tail holds what is played next. -/
theorem slice_tail (hne : b.psize ≤ b.range) :
    slice b.data b.tail b.psize = w.chunk b.psize := by
  have hslot := h.slots 0 (Nat.dvd_zero _) (lt_of_lt_of_le h.ring.psize_pos hne)
  rw [slot_zero h.ring, Nat.add_zero] at hslot
  unfold StreamWindow.chunk
  cases hheld : w.held w.lo with
  | none => rw [hheld] at hslot; exact hslot.2
  | some xs => rw [hheld] at hslot; exact hslot.2

section Push

variable (hahead : w.hi ≤ packet.firstByteNum) (hdvd : b.psize ∣ b.headOffset packet)
  (hnear : b.headOffset packet ≤ b.psize) (hlen : b.psize ≤ packet.psize)

include hahead

theorem firstByteNum_eq : packet.firstByteNum = w.lo + (b.range + b.headOffset packet) := by
  have hoffset : b.headOffset packet = packet.firstByteNum - w.hi :=
    h.hi_eq ▸ headOffset_eq (h.hi_eq ▸ hahead)
  have hlength := h.length_eq
  rw [hoffset]
  omega

include hdvd hnear hlen

/-- What a push leaves in the slot at distance `y` from the old tail. -/
theorem slotHolds_pushed (span : Nat) {y : Nat} (hy : b.psize ∣ y)
    (hle : y ≤ b.range + b.headOffset packet)
    (hclose : b.range + b.headOffset packet < y + b.roundedCap) :
    SlotHolds (b.pushed packet) (b.slot y)
      ((w.push b.psize span packet.firstByteNum (packet.audioData.take b.psize) hahead).held
        (w.lo + y)) := by
  have hlength := h.length_eq
  have hfbn := h.firstByteNum_eq hahead
  have hslot := slotHolds_pushed_offset h.ring h.two_fit hdvd hnear hlen h.slots hy hle hclose
  rcases Nat.eq_or_lt_of_le hle with heq | hlt
  · rw [if_pos heq] at hslot
    have hself : w.lo + y = packet.firstByteNum := by omega
    rwa [hself, StreamWindow.held_push_self]
  · rw [if_neg (Nat.ne_of_lt hlt)] at hslot
    rcases Nat.lt_or_ge y b.range with hold | hskip
    · rw [if_pos hold] at hslot
      rwa [StreamWindow.held_push_of_lt hahead (by omega)]
    · rw [if_neg (Nat.not_lt.mpr hskip)] at hslot
      rwa [StreamWindow.held_push_of_gap hahead (by omega) (by omega)]

/-- An accepted push is the push of the window. -/
theorem pushed (hword : packet.firstByteNum + b.psize < 2 ^ 64) :
    Represents (b.pushed packet)
      (w.push b.psize (b.roundedCap - b.psize) packet.firstByteNum
        (packet.audioData.take b.psize) hahead) := by
  have hring := h.ring
  have hring' := ring_pushed hring hdvd
  have hcap : 2 * b.psize ≤ b.roundedCap := two_mul_le_div_mul hring.psize_pos h.two_fit
  have hpos := hring.psize_pos
  have hfbn := h.firstByteNum_eq hahead
  have hslots := fun y => h.slotHolds_pushed hahead hdvd hnear hlen (b.roundedCap - b.psize)
    (y := y)
  obtain ⟨hrange, htail⟩ := range_pushed hring h.two_fit hdvd hnear
  have hdvd' : b.psize ∣ (b.pushed packet).range := pushed_psize b packet ▸ hring'.dvd_range
  have hend : b.psize ∣ b.range + b.headOffset packet + b.psize :=
    Nat.dvd_add (Nat.dvd_add hring.dvd_range hdvd) (Nat.dvd_refl _)
  have hlo : max w.lo (packet.firstByteNum + b.psize - (b.roundedCap - b.psize)) =
      w.lo + (b.range + b.headOffset packet + b.psize - (b.pushed packet).range) := by
    rw [hrange, hfbn]
    clear hslots htail hrange
    generalize b.range + b.headOffset packet = d
    omega
  have hle : (b.pushed packet).range ≤ b.range + b.headOffset packet + b.psize :=
    hrange ▸ Nat.min_le_left _ _
  have hle' : (b.pushed packet).range ≤ b.roundedCap - b.psize :=
    hrange ▸ Nat.min_le_right _ _
  refine ⟨hring', ?_, ?_, ?_, hword, fun x hx hxlt => ?_⟩
  · simpa only [pushed_psize, pushed_capacity] using h.two_fit
  · rw [pushed_absHead]
    exact wadd_of_lt hword
  · simp only [StreamWindow.push, hlo]
    clear hslots htail hrange
    omega
  · rw [pushed_psize] at hx
    rw [slot_of_tail_eq roundedCap_pushed htail]
    simp only [StreamWindow.lo_push, hlo, Nat.add_assoc w.lo]
    clear hrange htail hlo
    generalize (b.pushed packet).range = r' at *
    have hy : b.psize ∣ b.range + b.headOffset packet + b.psize - r' + x :=
      Nat.dvd_add (Nat.dvd_sub hend hdvd') hx
    have hylt := add_le_of_lt hy hend (by clear hslots; omega)
    exact hslots _ hy (by clear hslots; omega) (by clear hslots; omega)

end Push

/-- A gap fill that computes the right index fills the window. -/
theorem gapFilled (hlo : w.lo ≤ packet.firstByteNum) (hhi : packet.firstByteNum < w.hi)
    (hdvd : b.psize ∣ b.tailOffset packet) (hlen : b.psize ≤ packet.psize)
    (hle : b.tail ≤ b.tailOffset packet) (hin : b.tail + b.tailOffset packet < b.roundedCap) :
    Represents (b.gapFilled packet)
      (w.fill packet.firstByteNum (packet.audioData.take b.psize)) := by
  have hring := h.ring
  have hlength := h.length_eq
  have hoffset : b.tailOffset packet = packet.firstByteNum - w.lo := by
    rw [tailOffset_eq (h.absTail_eq ▸ hlo), h.absTail_eq]
  have hrange : b.tailOffset packet < b.range := by omega
  have hindex := (gapIndex_eq_slot hring hle hin hrange).2
  refine ⟨ring_gapFilled hring, ?_, ?_, ?_, h.hi_lt, fun x hx hxlt => ?_⟩
  · simpa only [gapFilled_psize, gapFilled_capacity] using h.two_fit
  · rw [gapFilled_absHead]
    exact h.hi_eq
  · rw [range_gapFilled]
    exact hlength
  · rw [gapFilled_psize] at hx
    rw [range_gapFilled] at hxlt
    have hslot : (b.gapFilled packet).slot x = b.slot x := by
      simp only [slot, gapFilled_tail, roundedCap_gapFilled]
    rw [hslot, StreamWindow.held_fill, StreamWindow.lo_fill]
    have hr := hring.range_le
    by_cases hx' : x = b.tailOffset packet
    · rw [if_pos (by omega), hx']
      exact slotHolds_gapFilled_self hlen hindex
    · have hne : b.slot x ≠ b.slot (b.tailOffset packet) := fun heq =>
        hx' (slot_injective (by omega) (by omega) heq)
      rw [if_neg (by omega)]
      exact slotHolds_gapFilled_keep hlen hindex (dvd_slot hring hx) (dvd_slot hring hdvd) hne
        (h.slots x hx hxlt)

/-- Dumping a packet plays the first block of the window. -/
theorem dumped (hne : b.psize ≤ b.range) (hplay : w.lo + b.psize ≤ w.hi) :
    Represents b.dumped (w.play b.psize hplay) := by
  have hring := h.ring
  have hlength := h.length_eq
  have hpos := hring.psize_pos
  refine ⟨ring_dumped hring, ?_, ?_, ?_, h.hi_lt, fun x hx hxlt => ?_⟩
  · simpa only [dumped_psize, dumped_capacity] using h.two_fit
  · rw [dumped_absHead]
    exact h.hi_eq
  · simp only [StreamWindow.play, range_dumped hring h.head_lt hne]
    omega
  · rw [dumped_psize] at hx
    rw [range_dumped hring h.head_lt hne] at hxlt
    rw [slot_of_tail_eq roundedCap_dumped (dumped_tail b)]
    have hr := hring.range_le
    have hne' : b.slot (b.psize + x) ≠ b.tail := fun heq => by
      rw [← slot_zero hring] at heq
      have := slot_injective (by omega) (by omega) heq
      omega
    have hkeep := slotHolds_dumped_keep hring
      (dvd_slot hring (Nat.dvd_add (Nat.dvd_refl _) hx)) hne'
      (h.slots (b.psize + x) (Nat.dvd_add (Nat.dvd_refl _) hx) (by omega))
    rwa [← Nat.add_assoc] at hkeep

/-! ## What a put does to a represented buffer -/

section TryPut

variable (halign : packet.firstByteNum ≡ w.lo [MOD b.psize])

include halign

theorem dvd_headOffset (hahead : w.hi ≤ packet.firstByteNum) :
    b.psize ∣ b.headOffset packet := by
  have hlength := h.length_eq
  have hlo : b.psize ∣ packet.firstByteNum - w.lo :=
    (Nat.modEq_iff_dvd' (w.lo_le.trans hahead)).mp halign.symm
  have hoffset : b.headOffset packet = packet.firstByteNum - w.lo - b.range := by
    rw [headOffset_eq (h.hi_eq ▸ hahead), h.hi_eq]
    omega
  rw [hoffset]
  exact Nat.dvd_sub hlo h.ring.dvd_range

theorem dvd_tailOffset (hlo : w.lo ≤ packet.firstByteNum) : b.psize ∣ b.tailOffset packet := by
  rw [tailOffset_eq (h.absTail_eq ▸ hlo), h.absTail_eq]
  exact (Nat.modEq_iff_dvd' hlo).mp halign.symm

theorem tryPut_of_dismisses (hd : b.Dismisses packet) : b.tryPut packet = .ok b := by
  have hring := h.ring
  rw [hring.tryPut_eq]
  by_cases hbehind : packet.firstByteNum < b.absTail
  · rw [if_pos hbehind]
  · obtain ⟨hahead, hfar⟩ := hd.resolve_left hbehind
    rw [if_neg hbehind, if_pos hahead, hring.tryPushHead_eq_ok_iff]
    exact ⟨h.dvd_headOffset halign (h.hi_eq ▸ hahead), Or.inl ⟨hfar, rfl⟩⟩

theorem tryPut_of_ahead (hahead : w.hi ≤ packet.firstByteNum)
    (hnear : b.headOffset packet ≤ b.psize) (hlen : b.psize ≤ packet.psize) :
    b.tryPut packet = .ok (b.pushed packet) := by
  have hring := h.ring
  have hpos := hring.psize_pos
  have hcap : 2 * b.psize ≤ b.roundedCap := two_mul_le_div_mul hpos h.two_fit
  have hlo := w.lo_le
  rw [hring.tryPut_eq, if_neg (by rw [h.absTail_eq]; omega), if_pos (h.hi_eq ▸ hahead),
    hring.tryPushHead_eq_ok_iff]
  exact ⟨h.dvd_headOffset halign hahead, Or.inr (Or.inr ⟨hnear, by omega, hlen, rfl⟩)⟩

theorem tryPut_of_inside (hlo : w.lo ≤ packet.firstByteNum) (hhi : packet.firstByteNum < w.hi)
    (hlen : b.psize ≤ packet.psize) (hle : b.tail ≤ b.tailOffset packet)
    (hin : b.tail + b.tailOffset packet < b.roundedCap) :
    b.tryPut packet = .ok (b.gapFilled packet) := by
  have hring := h.ring
  have hlength := h.length_eq
  have hcap := roundedCap_le b
  have hdvd := h.dvd_tailOffset halign hlo
  have hoffset : b.tailOffset packet = packet.firstByteNum - w.lo := by
    rw [tailOffset_eq (h.absTail_eq ▸ hlo), h.absTail_eq]
  obtain ⟨hside, hindex⟩ := gapIndex_eq_slot hring hle hin (by omega)
  have hslot := add_le_of_lt (dvd_slot hring hdvd) (dvd_roundedCap b)
    (slot_lt hring (b.tailOffset packet))
  rw [hring.tryPut_eq, if_neg (by rw [h.absTail_eq]; omega), if_neg (by rw [h.hi_eq]; omega),
    hring.fillGap_eq_ok_iff]
  exact ⟨hdvd, hside, hlen, by omega, rfl⟩

end TryPut

end Represents

/-- A reset for a packet size of which two fit starts an empty window. -/
theorem represents_resetAt [Zero α] (b : CircularBuffer α) {psize absHead : Nat}
    (hpos : 0 < psize) (h2 : 2 * psize ≤ b.capacity) (habs : absHead < 2 ^ 64) :
    Represents (b.resetAt psize absHead) (StreamWindow.start absHead) where
  ring := ring_resetAt b hpos (by omega)
  two_fit := h2
  hi_eq := rfl
  length_eq := rfl
  hi_lt := habs
  slots x _ hlt := absurd hlt (Nat.not_lt_zero x)

end SikRadio.Common.CircularBuffer
