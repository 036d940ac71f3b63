import SikRadio.Common.RingWindow

/-!
# What an accepted forward push does

`try_push_head` dismisses a packet more than one packet ahead of the head. Any
other packet moves the head behind the packet, clears what it skips and evicts
just enough of the oldest packets to leave one free slot.

## Implementation notes

`Settled` is the invariant in terms of the buffer alone. It says the same as the
existence of a window that the buffer represents, and the push of that window
says what every slot holds afterwards.
-/

namespace SikRadio.Common.CircularBuffer

open Foundations Foundations.CheckedRuns Foundations.MemoryCells Foundations.Word64
  Foundations.RingOffsets

variable {α : Type} [Zero α] {b b' : CircularBuffer α} {packet : AudioPacket α}

/-- At least two packets fit, the indices are aligned and inside the ring, unoccupied slots of
the window are all zero and the window does not start before position zero. -/
structure Settled (b : CircularBuffer α) : Prop where
  ring : Ring b
  two_fit : 2 ≤ b.capacity / b.psize
  blank : ∀ o, b.psize ∣ o → o < b.range → b.occupied (b.slot o) = false →
    slice b.data (b.slot o) b.psize = List.replicate b.psize 0
  range_le : b.range ≤ b.absHead
  absHead_lt : b.absHead < 2 ^ 64

/-- What a slot holds, read off its flag and its bytes. -/
def heldAt (b : CircularBuffer α) (i : Nat) : Option (List α) :=
  if b.occupied i = true then some (slice b.data i b.psize) else none

/-- The window of the buffer, read off its arrays. -/
def window (b : CircularBuffer α) : StreamWindow α where
  lo := b.absHead - b.range
  hi := b.absHead
  held p := b.heldAt (b.slot (p - (b.absHead - b.range)))
  lo_le := Nat.sub_le _ _

omit [Zero α] in
theorem held_window (b : CircularBuffer α) (p : Nat) :
    b.window.held p = b.heldAt (b.slot (p - b.window.lo)) := rfl

omit [Zero α] in
theorem hi_window (b : CircularBuffer α) : b.window.hi = b.absHead := rfl

namespace Settled

variable (h : Settled b)

include h

theorem two_mul_le : 2 * b.psize ≤ b.capacity :=
  (Nat.le_div_iff_mul_le h.ring.psize_pos).mp h.two_fit

theorem absTail_eq : b.absTail = b.absHead - b.range :=
  wsub_of_le h.range_le h.absHead_lt

theorem lo_window : b.window.lo = b.absTail := h.absTail_eq.symm

/-- Every slot of the window holds what is read off it. -/
theorem slotHolds_heldAt {o : Nat} (ho : b.psize ∣ o) (hlt : o < b.range) :
    SlotHolds b (b.slot o) (b.heldAt (b.slot o)) := by
  unfold heldAt
  cases hocc : b.occupied (b.slot o) with
  | false => exact ⟨hocc, h.blank o ho hlt hocc⟩
  | true => exact ⟨hocc, rfl⟩

theorem represents : Represents b b.window where
  ring := h.ring
  two_fit := h.two_mul_le
  hi_eq := rfl
  length_eq := Nat.sub_add_cancel h.range_le
  hi_lt := h.absHead_lt
  slots := by
    intro x hx hxlt
    rw [held_window, Nat.add_sub_cancel_left]
    exact h.slotHolds_heldAt hx hxlt

end Settled

theorem Represents.settled {w : StreamWindow α} (h : Represents b w) : Settled b where
  ring := h.ring
  two_fit := (Nat.le_div_iff_mul_le h.ring.psize_pos).mpr h.two_fit
  blank := by
    intro o ho hlt hocc
    have hslot := h.slots o ho hlt
    cases hheld : w.held (w.lo + o) with
    | none =>
        rw [hheld] at hslot
        exact hslot.2
    | some xs =>
        rw [hheld] at hslot
        rw [hslot.1] at hocc
        cases hocc
  range_le := by
    have hlength := h.length_eq
    rw [h.hi_eq]
    omega
  absHead_lt := h.hi_eq ▸ h.hi_lt

/-- Two slots agree on the flag and on the bytes when they hold the same. -/
theorem eq_of_slotHolds_heldAt {i j : Nat} (hpsize : b'.psize = b.psize)
    (h : SlotHolds b' j (b.heldAt i)) (hi : SlotHolds b i (b.heldAt i)) :
    b'.occupied j = b.occupied i ∧ slice b'.data j b.psize = slice b.data i b.psize := by
  cases hheld : b.heldAt i with
  | none =>
      rw [hheld] at h hi
      rw [← hpsize, h.2, hpsize, h.1, hi.1, hi.2]
      exact ⟨rfl, rfl⟩
  | some xs =>
      rw [hheld] at h hi
      rw [← hpsize, h.2, hpsize, h.1, hi.1, hi.2]
      exact ⟨rfl, rfl⟩

/-- The buffer `b'` after `packet` is pushed onto `b`, where `N` packets fit. -/
structure PushedOnto (b : CircularBuffer α) (packet : AudioPacket α) (b' : CircularBuffer α) :
    Prop where
  settled : Settled b'
  absHead_eq : b'.absHead = packet.firstByteNum + b.psize
  absTail_eq : b'.absTail = max b.absTail (b'.absHead - (b.capacity / b.psize - 1) * b.psize)
  new : SlotHolds b' (b'.slot (packet.firstByteNum - b'.absTail))
    (some (packet.audioData.take b.psize))
  skipped : ∀ p, b.psize ∣ p - b'.absTail → b'.absTail ≤ p → p < b'.absHead →
    b.absHead ≤ p → p ≠ packet.firstByteNum → SlotHolds b' (b'.slot (p - b'.absTail)) none
  retained : ∀ p, b.psize ∣ p - b'.absTail → b'.absTail ≤ p → p < b.absHead →
    b'.occupied (b'.slot (p - b'.absTail)) = b.occupied (b.slot (p - b.absTail)) ∧
      slice b'.data (b'.slot (p - b'.absTail)) b.psize =
        slice b.data (b.slot (p - b.absTail)) b.psize

section Push

variable (h : Settled b) (hdvd : b.psize ∣ b.headOffset packet)
  (hnear : b.headOffset packet ≤ b.psize) (hlen : b.psize ≤ packet.psize)
  (hahead : b.window.hi ≤ packet.firstByteNum) (hword : packet.firstByteNum + b.psize < 2 ^ 64)

include h hdvd hnear hlen hahead hword

/-- The pushed buffer represents the pushed window. -/
theorem represents_pushed : Represents (b.pushed packet)
    (b.window.push b.psize (b.roundedCap - b.psize) packet.firstByteNum
      (packet.audioData.take b.psize) hahead) :=
  h.represents.pushed hahead hdvd hnear hlen hword

theorem absHead_pushed_eq : (b.pushed packet).absHead = packet.firstByteNum + b.psize :=
  (represents_pushed h hdvd hnear hlen hahead hword).hi_eq

theorem absTail_pushed_eq : (b.pushed packet).absTail =
    max b.absTail (packet.firstByteNum + b.psize - (b.roundedCap - b.psize)) := by
  rw [(represents_pushed h hdvd hnear hlen hahead hword).absTail_eq, StreamWindow.lo_push,
    h.lo_window]

/-- The packet starts one packet before the end of the new window. -/
theorem firstByteNum_sub_absTail_pushed :
    (b.pushed packet).absTail + (b.pushed packet).range = packet.firstByteNum + b.psize ∧
      b.psize ≤ (b.pushed packet).range := by
  have hrep' := represents_pushed h hdvd hnear hlen hahead hword
  have hcap := two_mul_le_div_mul h.ring.psize_pos h.two_mul_le
  have htail := absTail_pushed_eq h hdvd hnear hlen hahead hword
  have hlength := hrep'.length_eq
  rw [← hrep'.absTail_eq] at hlength
  refine ⟨hlength, ?_⟩
  have hend : (b.pushed packet).absTail + (b.pushed packet).range =
      packet.firstByteNum + b.psize := hlength
  have habs := h.absTail_eq
  have hbehind : b.absHead ≤ packet.firstByteNum := hahead
  rw [roundedCap] at htail
  omega

/-- Positions of the new window are aligned with those of the old one. -/
theorem dvd_sub_absTail {p : Nat} (hp : b.psize ∣ p - (b.pushed packet).absTail)
    (hle : (b.pushed packet).absTail ≤ p) : b.psize ∣ p - b.absTail := by
  have hend := (firstByteNum_sub_absTail_pushed h hdvd hnear hlen hahead hword).1
  have hnew : b.psize ∣ (b.pushed packet).range :=
    pushed_psize b packet ▸ (ring_pushed h.ring hdvd).dvd_range
  have hold : b.psize ∣ b.range + b.headOffset packet + b.psize :=
    Nat.dvd_add (Nat.dvd_add h.ring.dvd_range hdvd) (Nat.dvd_refl _)
  have hbehind : b.absHead ≤ packet.firstByteNum := hahead
  have hoffset := headOffset_eq hbehind
  have habs := h.absTail_eq
  have hrange := h.range_le
  have htail : b.absTail ≤ (b.pushed packet).absTail := by
    rw [absTail_pushed_eq h hdvd hnear hlen hahead hword]
    exact Nat.le_max_left _ _
  have hmoved : (b.pushed packet).absTail - b.absTail =
      b.range + b.headOffset packet + b.psize - (b.pushed packet).range := by omega
  have hsum : p - b.absTail = p - (b.pushed packet).absTail +
      (b.range + b.headOffset packet + b.psize - (b.pushed packet).range) := by omega
  rw [hsum]
  exact Nat.dvd_add hp (Nat.dvd_sub hold hnew)

/-- A position of the new window holds what the pushed window says. -/
theorem slotHolds_pushed_window {p : Nat} (hp : b.psize ∣ p - (b.pushed packet).absTail)
    (hle : (b.pushed packet).absTail ≤ p) (hlt : p < (b.pushed packet).absHead) :
    SlotHolds (b.pushed packet) ((b.pushed packet).slot (p - (b.pushed packet).absTail))
      ((b.window.push b.psize (b.roundedCap - b.psize) packet.firstByteNum
        (packet.audioData.take b.psize) hahead).held p) := by
  have hrep' := represents_pushed h hdvd hnear hlen hahead hword
  have hend := (firstByteNum_sub_absTail_pushed h hdvd hnear hlen hahead hword).1
  have hhead := absHead_pushed_eq h hdvd hnear hlen hahead hword
  have hin := hrep'.slots (p - (b.pushed packet).absTail) (by rwa [pushed_psize]) (by omega)
  rwa [← hrep'.absTail_eq, Nat.add_sub_cancel' hle] at hin

theorem pushedOnto_pushed : PushedOnto b packet (b.pushed packet) := by
  have hhead := absHead_pushed_eq h hdvd hnear hlen hahead hword
  have htail := absTail_pushed_eq h hdvd hnear hlen hahead hword
  obtain ⟨hend, hroom⟩ := firstByteNum_sub_absTail_pushed h hdvd hnear hlen hahead hword
  have hslot := fun p => slotHolds_pushed_window h hdvd hnear hlen hahead hword (p := p)
  have hlo : b.absTail ≤ (b.pushed packet).absTail := htail ▸ Nat.le_max_left _ _
  refine ⟨(represents_pushed h hdvd hnear hlen hahead hword).settled, hhead, ?_, ?_, ?_, ?_⟩
  · rw [htail, hhead, roundedCap_sub_psize]
  · have hdist : packet.firstByteNum - (b.pushed packet).absTail =
        (b.pushed packet).range - b.psize := by omega
    have haligned : b.psize ∣ packet.firstByteNum - (b.pushed packet).absTail := by
      rw [hdist]
      apply Nat.dvd_sub _ (Nat.dvd_refl _)
      exact pushed_psize b packet ▸ (ring_pushed h.ring hdvd).dvd_range
    have hnew := hslot packet.firstByteNum haligned (by omega)
      (by have := h.ring.psize_pos; omega)
    rwa [StreamWindow.held_push_self] at hnew
  · intro p hp hle hlt hbehind hne
    have hskip := hslot p hp hle hlt
    rwa [StreamWindow.held_push_of_gap hahead hbehind hne] at hskip
  · intro p hp hle hlt
    have hbehind : b.absHead ≤ packet.firstByteNum := hahead
    have hold := hslot p hp hle (by omega)
    have haligned := dvd_sub_absTail h hdvd hnear hlen hahead hword hp hle
    have habs := h.absTail_eq
    rw [StreamWindow.held_push_of_lt hahead hlt, held_window, h.lo_window] at hold
    have hin : p - b.absTail < b.range := by omega
    exact eq_of_slotHolds_heldAt (pushed_psize _ _) hold (h.slotHolds_heldAt haligned hin)

end Push

/-- As long as positions do not wrap, the distance to the head places the packet. -/
theorem firstByteNum_eq_of_headOffset (h : Settled b)
    (hword : b.absHead + b.headOffset packet + b.psize < 2 ^ 64) :
    packet.firstByteNum = b.absHead + b.headOffset packet := by
  have habs := h.absHead_lt
  have hfbn := packet.firstByteNum_lt
  have hoffset : b.headOffset packet = wsub packet.firstByteNum b.absHead := rfl
  rw [wsub] at hoffset
  omega

/-- A packet that is not dismissed is pushed as `PushedOnto` says, and nothing stops the push of
an aligned packet with enough payload. -/
theorem tryPushHead_pushedOnto (h : Settled b) (hnear : b.headOffset packet ≤ b.psize)
    (hword : b.absHead + b.headOffset packet + b.psize < 2 ^ 64) :
    (∀ b', b.tryPushHead packet = .ok b' → PushedOnto b packet b') ∧
      (b.psize ∣ b.headOffset packet → b.psize ≤ packet.psize →
        ∃ b', b.tryPushHead packet = .ok b') := by
  have hpos := h.ring.psize_pos
  have hcap : 2 * b.psize ≤ b.roundedCap := two_mul_le_div_mul hpos h.two_mul_le
  have hfbn := firstByteNum_eq_of_headOffset h hword
  have hahead : b.window.hi ≤ packet.firstByteNum := by
    rw [hi_window]
    omega
  constructor
  · intro b' hpush
    obtain ⟨hdvd, ⟨hfar, -⟩ | ⟨-, hout, -⟩ | ⟨-, -, hlen, rfl⟩⟩ :=
      h.ring.tryPushHead_eq_ok_iff.mp hpush
    · omega
    · omega
    · exact pushedOnto_pushed h hdvd hnear hlen hahead (by omega)
  · intro hdvd hlen
    refine ⟨b.pushed packet, h.ring.tryPushHead_eq_ok_iff.mpr ⟨hdvd, .inr (.inr ?_)⟩⟩
    exact ⟨hnear, by omega, hlen, rfl⟩

/-- A full ring of four bytes, wrapped, with the positions 5 to 7 and nothing at 6. -/
def fourBytes : CircularBuffer UInt8 where
  absHead := 8
  byte0 := 5
  capacity := 4
  psize := 1
  tail := 2
  head := 1
  data := fun i => if i = 3 then 0 else UInt8.ofNat (i + 20)
  occupied := fun i => i != 3
  empty := false

/-- A push that skips position 8 and keeps position 7 only. -/
theorem tryPushHead_pushedOnto_fourBytes :
    ∃ b', fourBytes.tryPushHead (AudioPacket.oneByte 9 9) = .ok b' ∧
      PushedOnto fourBytes (AudioPacket.oneByte 9 9) b' := by
  have hsettled : Settled fourBytes :=
    { ring := ⟨by decide, by decide, by decide, by decide, by decide, by decide⟩
      two_fit := by decide
      blank := fun o _ => (show ∀ o < 3, fourBytes.occupied (fourBytes.slot o) = false →
        slice fourBytes.data (fourBytes.slot o) 1 = List.replicate 1 0 from by decide) o
      range_le := by decide
      absHead_lt := by decide }
  have hnear : fourBytes.headOffset (AudioPacket.oneByte 9 9) ≤ fourBytes.psize := by decide
  obtain ⟨hpushed, hreturns⟩ := tryPushHead_pushedOnto hsettled hnear (by decide)
  obtain ⟨b', hb'⟩ := hreturns (by decide) (by decide)
  exact ⟨b', hb', hpushed b' hb'⟩

end SikRadio.Common.CircularBuffer
