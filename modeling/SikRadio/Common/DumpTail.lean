import SikRadio.Common.WindowWalk
import SikRadio.Foundations.BlockQueue

/-!
# Dumping the oldest packets

A buffer of at least two packets as a queue of blocks: the entry at index `i` is
the slot `i` packets behind the tail. Forward pushes append to the queue and
drive out its oldest entries, and a dump writes and removes entries at its front.

## Implementation notes

The queue mentions no position of the stream, so that nothing is said about
positions that wrap around 64 bits. A dump may straddle the end of the array;
then its second chunk starts at index zero.
-/

namespace SikRadio.Common.CircularBuffer

open Foundations Foundations.CheckedRuns Foundations.MemoryCells Foundations.Word64
  Foundations.RingOffsets Foundations.BlockQueue

variable {α : Type} {b : CircularBuffer α} {packet : AudioPacket α} {nbytes : Nat}

/-! ## One dump -/

/-- The part of a dump that lies before the end of the ring. -/
def firstChunk (b : CircularBuffer α) (nbytes : Nat) : Nat :=
  if b.head < b.tail ∧ b.roundedCap - b.tail < nbytes then b.roundedCap - b.tail else nbytes

/-- The buffer after a dump. -/
def dumpedBy [Zero α] (b : CircularBuffer α) (nbytes : Nat) : CircularBuffer α :=
  { b with
    data := fill (fill b.data b.tail (b.firstChunk nbytes) 0) 0 (nbytes - b.firstChunk nbytes) 0
    occupied := fill (fill b.occupied b.tail (b.firstChunk nbytes) false) 0
      (nbytes - b.firstChunk nbytes) false
    tail := (b.tail + nbytes) % b.roundedCap }

/-- The bytes that a dump writes. -/
def dumpOutput (b : CircularBuffer α) (nbytes : Nat) : List α :=
  slice b.data b.tail (b.firstChunk nbytes) ++ slice b.data 0 (nbytes - b.firstChunk nbytes)

/-- A dump moves every slot of the window towards the tail. -/
theorem slot_dumpedBy [Zero α] (o : Nat) :
    (b.dumpedBy nbytes).slot o = b.slot (nbytes + o) := by
  have hround : (b.dumpedBy nbytes).roundedCap = b.roundedCap := rfl
  have htail : (b.dumpedBy nbytes).tail = b.slot nbytes := rfl
  exact slot_of_tail_eq hround htail o

section Dump

variable (h : Ring b) (hlt : b.head < b.roundedCap) (hle : nbytes ≤ b.range)

include h

theorem dvd_firstChunk (hdvd : b.psize ∣ nbytes) : b.psize ∣ b.firstChunk nbytes := by
  unfold firstChunk
  split
  · exact Nat.dvd_sub (dvd_roundedCap b) h.tail_dvd
  · exact hdvd

include hlt

theorem ring_dumpedBy [Zero α] (hdvd : b.psize ∣ nbytes) : Ring (b.dumpedBy nbytes) where
  psize_pos := h.psize_pos
  psize_le := h.psize_le
  tail_dvd := dvd_slot h hdvd
  head_dvd := h.head_dvd
  tail_lt := slot_lt h nbytes
  head_lt := .inl hlt

include hle

/-- Both chunks lie inside the ring. -/
theorem firstChunk_bounds : b.tail + b.firstChunk nbytes ≤ b.roundedCap ∧
    nbytes - b.firstChunk nbytes ≤ b.tail ∧ b.firstChunk nbytes ≤ nbytes ∧
    (nbytes = b.firstChunk nbytes ∨ b.tail + b.firstChunk nbytes = b.roundedCap) := by
  have htail := h.tail_lt
  unfold firstChunk
  unfold CircularBuffer.range at hle
  split
  case isTrue hwrap =>
    rw [if_neg (Nat.not_le.mpr hwrap.1)] at hle
    omega
  case isFalse =>
    split at hle <;> omega

/-- A dump of whole packets inside the window passes every check. -/
theorem dumpTail_eq [Zero α] (hdvd : b.psize ∣ nbytes) :
    b.dumpTail nbytes = .ok (b.dumpedBy nbytes, b.dumpOutput nbytes) := by
  have hpos := h.psize_pos
  have htail := h.tail_lt
  have hcap := roundedCap_le b
  obtain ⟨hfst, hsnd, -, -⟩ := firstChunk_bounds h hlt hle
  have hmod : nbytes % b.psize = 0 := Nat.mod_eq_zero_of_dvd hdvd
  rw [firstChunk] at hfst hsnd
  simp only [dumpTail, bind_eq_ok_iff, check_eq_ok_iff, readData_eq_ok_iff, clear_eq_ok_iff,
    pure_eq_ok_iff, exists_const]
  refine ⟨by omega, hmod, _, ⟨by omega, rfl⟩, _, ⟨by omega, rfl⟩, _, ⟨by omega, rfl⟩, _,
    ⟨by dsimp only; omega, rfl⟩, by omega, rfl⟩

/-- The cells that a dump clears are those of the dumped slots. -/
theorem cleared_iff (hdvd : b.psize ∣ nbytes) {o : Nat} (ho : b.psize ∣ o)
    (horange : o < b.roundedCap) {i : Nat} (hi : b.slot o ≤ i ∧ i < b.slot o + b.psize) :
    (b.tail ≤ i ∧ i < b.tail + b.firstChunk nbytes) ∨ i < nbytes - b.firstChunk nbytes ↔
      o < nbytes := by
  have htail := h.tail_lt
  obtain ⟨hfst, hsnd, hfle, hsplit⟩ := firstChunk_bounds h hlt hle
  have hchunk := dvd_firstChunk h hdvd
  have hslot := dvd_slot h ho
  have hi' := hi
  unfold slot at hi'
  rcases mod_cases (show b.tail + o < 2 * b.roundedCap by omega) with ⟨hin, e⟩ | ⟨hout, e⟩
  · rw [e] at hi'
    rcases Nat.lt_or_ge o (b.firstChunk nbytes) with hinside | hbehind
    · have hend := add_le_of_lt ho hchunk hinside
      constructor <;> intro <;> omega
    · constructor <;> intro <;> omega
  · -- past the end of the ring the slot lies left of the tail
    have hleft : b.slot o + b.psize ≤ b.tail :=
      add_le_of_lt hslot h.tail_dvd (by unfold slot; omega)
    rw [e] at hi'
    rcases hsplit with hwhole | hend
    · constructor <;> intro <;> omega
    · rcases Nat.lt_or_ge o nbytes with hinside | hbehind
      · have hsndEnd : b.slot o + b.psize ≤ nbytes - b.firstChunk nbytes := by
          apply add_le_of_lt hslot (Nat.dvd_sub hdvd hchunk)
          unfold slot
          omega
        constructor <;> intro <;> omega
      · constructor <;> intro <;> omega

/-- The bytes of a dump are those of the dumped slots, in the order of the slots. -/
theorem dumpOutput_eq (hdvd : b.psize ∣ nbytes) : b.dumpOutput nbytes =
    (List.range (nbytes / b.psize)).flatMap fun k =>
      slice b.data (b.slot (k * b.psize)) b.psize := by
  have hpos := h.psize_pos
  have htail := h.tail_lt
  obtain ⟨hfst, hsnd, hfle, hsplit⟩ := firstChunk_bounds h hlt hle
  obtain ⟨n, hn⟩ := exists_eq_mul_left_of_dvd (dvd_firstChunk h hdvd)
  obtain ⟨n', hn'⟩ := exists_eq_mul_left_of_dvd (Nat.dvd_sub hdvd (dvd_firstChunk h hdvd))
  have hcount : nbytes / b.psize = n + n' := by
    have hsum : nbytes = (n + n') * b.psize := by
      rw [Nat.add_mul, ← hn, ← hn']
      omega
    rw [hsum, Nat.mul_div_cancel _ hpos]
  rw [dumpOutput, hn', hn, slice_mul, slice_mul, hcount, List.range_add, List.flatMap_append,
    List.flatMap_map]
  congr 1
  · apply List.flatMap_congr
    intro k hk
    have hbefore : k * b.psize < n * b.psize :=
      Nat.mul_lt_mul_of_pos_right (List.mem_range.mp hk) hpos
    rw [slot, Nat.mod_eq_of_lt (by omega)]
  · apply List.flatMap_congr
    intro k hk
    have hbefore : k * b.psize < n' * b.psize :=
      Nat.mul_lt_mul_of_pos_right (List.mem_range.mp hk) hpos
    have hwrap : b.tail + (n + k) * b.psize = k * b.psize + b.roundedCap := by
      rw [Nat.add_mul]
      omega
    rw [slot, hwrap, Nat.add_mod_right, Nat.mod_eq_of_lt (by omega), Nat.zero_add]

/-- The slots at the front of the window are cleared. -/
theorem slotHolds_dumpedBy_gone [Zero α] (hdvd : b.psize ∣ nbytes) {o : Nat} (ho : b.psize ∣ o)
    (hgone : o < nbytes) : SlotHolds (b.dumpedBy nbytes) (b.slot o) none := by
  have hpos := h.psize_pos
  have hr := h.range_le
  have hcleared := fun i hi =>
    (cleared_iff h hlt hle hdvd ho (by omega) (i := i) hi).mpr hgone
  constructor
  · simp only [dumpedBy, fill_fill_eq, if_pos (hcleared (b.slot o) (by omega))]
  · apply slice_eq_replicate
    intro i hlo hhi
    simp only [dumpedBy, fill_fill_eq, if_pos (hcleared i ⟨hlo, hhi⟩)]

/-- The slots behind the dumped ones are not touched. -/
theorem dumpedBy_keep [Zero α] (hdvd : b.psize ∣ nbytes) {o : Nat} (ho : b.psize ∣ o)
    (hkeep : nbytes ≤ o) (horange : o < b.roundedCap) :
    (b.dumpedBy nbytes).occupied (b.slot o) = b.occupied (b.slot o) ∧
      slice (b.dumpedBy nbytes).data (b.slot o) b.psize = slice b.data (b.slot o) b.psize := by
  have hpos := h.psize_pos
  have hkept := fun i hi =>
    mt (cleared_iff h hlt hle hdvd ho horange (i := i) hi).mp (Nat.not_lt.mpr hkeep)
  constructor
  · simp only [dumpedBy, fill_fill_eq, if_neg (hkept (b.slot o) (by omega))]
  · apply slice_congr
    intro i hlo hhi
    simp only [dumpedBy, fill_fill_eq, if_neg (hkept i ⟨hlo, hhi⟩)]

theorem range_dumpedBy [Zero α] : (b.dumpedBy nbytes).range = b.range - nbytes := by
  have hr := h.range_add_le hlt
  have hpos := h.psize_pos
  have hhead : (b.dumpedBy nbytes).head = (b.dumpedBy nbytes).slot (b.range - nbytes) := by
    rw [slot_dumpedBy, Nat.add_sub_cancel' hle]
    exact (h.tail_add_range hlt).symm
  exact range_of_slot (slot_lt h nbytes) (show b.range - nbytes < b.roundedCap by omega) hhead

end Dump

/-- The buffer `b'` after the oldest `nbytes` bytes of `b` are dumped. -/
structure DumpedFrom [Zero α] (b : CircularBuffer α) (nbytes : Nat) (b' : CircularBuffer α) :
    Prop where
  ring : Ring b'
  absHead_eq : b'.absHead = b.absHead
  absTail_eq : b'.absTail = wadd b.absTail nbytes
  range_eq : b'.range = b.range - nbytes
  gone : ∀ o, b.psize ∣ o → o < nbytes → SlotHolds b' (b.slot o) none
  remaining : ∀ o, b.psize ∣ o → nbytes ≤ o → o < b.range →
    b'.slot (o - nbytes) = b.slot o ∧ b'.occupied (b.slot o) = b.occupied (b.slot o) ∧
      slice b'.data (b.slot o) b.psize = slice b.data (b.slot o) b.psize

theorem dumpedFrom_dumpedBy [Zero α] (h : Ring b) (h2 : 2 * b.psize ≤ b.capacity)
    (hmax : b.capacity ≤ ptrdiffMax) (hle : nbytes ≤ b.range) (hdvd : b.psize ∣ nbytes) :
    DumpedFrom b nbytes (b.dumpedBy nbytes) := by
  have hlt := h.head_lt_of_two h2
  have hr := h.range_le
  have hcap := (roundedCap_le b).trans hmax
  have hrange := range_dumpedBy h hlt hle
  refine ⟨ring_dumpedBy h hlt hdvd, rfl, ?_, hrange, ?_, ?_⟩
  · have hhead : (b.dumpedBy nbytes).absHead = b.absHead := rfl
    rw [absTail, absTail, hrange, hhead]
    unfold wsub wadd
    rw [ptrdiffMax] at hcap
    omega
  · intro o ho hgone
    exact slotHolds_dumpedBy_gone h hlt hle hdvd ho hgone
  · intro o ho hkeep horange
    refine ⟨?_, dumpedBy_keep h hlt hle hdvd ho hkeep (by omega)⟩
    rw [slot_dumpedBy, Nat.add_sub_cancel' hkeep]

/-! ## The buffer as a queue -/

/-- The window is the queue `q`: entry `i` is the slot `i` packets behind the tail. -/
structure Holds [Zero α] (b : CircularBuffer α) (q : BlockQueue α) : Prop where
  ring : Ring b
  two_fit : 2 * b.psize ≤ b.capacity
  length_eq : q.length * b.psize = b.range
  slots : ∀ i < q.length, SlotHolds b (b.slot (i * b.psize)) (blockAt q i)

theorem holds_reset [Zero α] (b : CircularBuffer α) {psize : Nat} (hpos : 0 < psize)
    (h2 : 2 * psize ≤ b.capacity) : Holds (b.reset psize) [] where
  ring := ring_reset b hpos (by omega)
  two_fit := h2
  length_eq := Nat.zero_mul _
  slots _ hi := absurd hi (Nat.not_lt_zero _)

namespace Holds

variable [Zero α] {q : BlockQueue α} (h : Holds b q)

include h

theorem head_lt : b.head < b.roundedCap := h.ring.head_lt_of_two h.two_fit

/-- What the slots of the window hold, by their distance from the tail. -/
theorem slotHolds {o : Nat} (ho : b.psize ∣ o) (hlt : o < b.range) :
    SlotHolds b (b.slot o) (blockAt q (o / b.psize)) := by
  have hmul : o / b.psize * b.psize = o := Nat.div_mul_cancel ho
  have hi : o / b.psize < q.length := by
    apply Nat.lt_of_mul_lt_mul_right (a := b.psize)
    rwa [hmul, h.length_eq]
  have hslot := h.slots _ hi
  rwa [hmul] at hslot

/-- A dump inside the window asks for no more packets than there are. -/
theorem div_le_length (hdvd : b.psize ∣ nbytes) (hle : nbytes ≤ b.range) :
    nbytes / b.psize ≤ q.length := by
  apply Nat.le_of_mul_le_mul_right _ h.ring.psize_pos
  rw [Nat.div_mul_cancel hdvd]
  exact hle.trans_eq h.length_eq.symm

theorem windowLen_eq : b.windowLen = q.length := by
  rw [windowLen, ← h.length_eq, Nat.mul_div_cancel _ h.ring.psize_pos]

section Push

variable (hdvd : b.psize ∣ b.headOffset packet) (hnear : b.headOffset packet ≤ b.psize)
  (hlen : b.psize ≤ packet.psize)

include hdvd hnear hlen

/-- What a push leaves in the slots, by their index among all the entries. -/
theorem slotHolds_appended {j : Nat} (hle : j ≤ q.length + b.headOffset packet / b.psize)
    (hclose : q.length + b.headOffset packet / b.psize < j + b.capacity / b.psize) :
    SlotHolds (b.pushed packet) (b.windowSlot j)
      (blockAt (appended (b.headOffset packet / b.psize) (packet.audioData.take b.psize) q) j) := by
  have hpos := h.ring.psize_pos
  have hlast := range_add_headOffset h.ring hdvd
  rw [h.windowLen_eq] at hlast
  have hslot := slotHolds_pushed_offset (y := j * b.psize) h.ring h.two_fit hdvd hnear hlen
    (fun o ho hlt => h.slotHolds ho hlt) (Nat.dvd_mul_left _ _)
    (hlast ▸ Nat.mul_le_mul_right _ hle)
    (by
      rw [hlast, roundedCap, ← Nat.add_mul]
      exact Nat.mul_lt_mul_of_pos_right hclose hpos)
  rw [hlast] at hslot
  rw [blockAt_appended, windowSlot]
  simpa only [← h.length_eq, Nat.mul_left_inj (Nat.ne_of_gt hpos),
    Nat.mul_lt_mul_right hpos, Nat.mul_div_cancel _ hpos] using hslot

/-- A push appends to the queue and keeps the newest entries. -/
theorem pushed :
    Holds (b.pushed packet)
      (newest (b.capacity / b.psize - 1)
        (appended (b.headOffset packet / b.psize) (packet.audioData.take b.psize) q)) := by
  have hring := ring_pushed h.ring hdvd
  have hfit : 2 ≤ b.capacity / b.psize :=
    (Nat.le_div_iff_mul_le h.ring.psize_pos).mpr h.two_fit
  refine ⟨hring, ?_, ?_, fun i hi => ?_⟩
  · simpa only [pushed_psize, pushed_capacity] using h.two_fit
  · rw [length_newest, length_appended, ← windowLen_mul hring,
      windowLen_pushed h.ring hdvd h.two_fit hnear, h.windowLen_eq]
  · have hmoved := windowSlot_pushed h.ring hdvd h.two_fit hnear i
    rw [windowSlot, h.windowLen_eq] at hmoved
    rw [length_newest, length_appended] at hi
    rw [blockAt_newest, length_appended, hmoved]
    exact h.slotHolds_appended hdvd hnear hlen (by omega) (by omega)

end Push

/-- A dump of `n` packets removes the first `n` entries. -/
theorem dumped {n : Nat} (hn : n ≤ q.length) : Holds (b.dumpedBy (n * b.psize)) (q.drop n) := by
  have hpos := h.ring.psize_pos
  have hle : n * b.psize ≤ b.range := h.length_eq ▸ Nat.mul_le_mul_right _ hn
  have hdvd : b.psize ∣ n * b.psize := Nat.dvd_mul_left _ _
  have hrange := range_dumpedBy h.ring h.head_lt hle
  refine ⟨ring_dumpedBy h.ring h.head_lt hdvd, h.two_fit, ?_, fun i hi => ?_⟩
  · rw [List.length_drop, hrange, ← h.length_eq, ← Nat.sub_mul]
    rfl
  · rw [List.length_drop] at hi
    have hin : n + i < q.length := by omega
    have hkeep : n * b.psize ≤ (n + i) * b.psize := Nat.mul_le_mul_right _ (by omega)
    have horange : (n + i) * b.psize < b.roundedCap := by
      have hlt : (n + i) * b.psize < b.range :=
        h.length_eq ▸ Nat.mul_lt_mul_of_pos_right hin hpos
      exact hlt.trans_le h.ring.range_le
    obtain ⟨hocc, hdata⟩ := dumpedBy_keep h.ring h.head_lt hle hdvd (Nat.dvd_mul_left _ _) hkeep
      horange
    have hslot : (b.dumpedBy (n * b.psize)).slot (i * (b.dumpedBy (n * b.psize)).psize) =
        b.slot ((n + i) * b.psize) := by
      rw [slot_dumpedBy, Nat.add_mul]
      rfl
    rw [blockAt_drop, hslot]
    exact (h.slots (n + i) hin).congr rfl hocc hdata

/-- What a dump of `n` packets writes. -/
theorem dumpOutput {n : Nat} (hn : n ≤ q.length) :
    b.dumpOutput (n * b.psize) = heard b.psize (q.take n) := by
  have hpos := h.ring.psize_pos
  have hle : n * b.psize ≤ b.range := h.length_eq ▸ Nat.mul_le_mul_right _ hn
  rw [dumpOutput_eq h.ring h.head_lt hle (Nat.dvd_mul_left _ _), Nat.mul_div_cancel _ hpos,
    heard_eq, List.length_take_of_le hn]
  apply List.flatMap_congr
  intro i hi
  have hin := List.mem_range.mp hi
  have hsame : blockAt (q.take n) i = blockAt q i := by
    rw [blockAt, blockAt, List.getElem?_take_of_lt hin]
  have hslot := h.slots i (by omega)
  rw [hsame]
  cases hblock : blockAt q i with
  | none =>
      rw [hblock] at hslot
      exact hslot.2
  | some xs =>
      rw [hblock] at hslot
      exact hslot.2

end Holds

end SikRadio.Common.CircularBuffer
