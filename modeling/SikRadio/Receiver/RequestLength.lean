import SikRadio.Foundations.Spacing
import SikRadio.Receiver.RequestedIds

/-!
# The length of a request

`order_retransmission` assumes that its text fits a datagram. A number takes at
most twenty digits and a comma, so that a text with at most 3120 numbers does.
The window has at most one slot less than the buffer. A push skips at most one
slot, so while nothing is printed at most every other slot of the window is
missing.
-/

namespace SikRadio.Receiver

open SikRadio.Common SikRadio.Common.CircularBuffer
open Foundations Foundations.CheckedRuns Foundations.RingOffsets Foundations.Word64
  Foundations.SeparatedText Foundations.Spacing

variable {α : Type} {b : CircularBuffer α}

/-! ## The text -/

/-- The prefix, a space and the newline, and each number with a comma but the last. -/
theorem length_toStr (receiverAddr : SockAddr) {packetIds : List Nat} (hne : packetIds ≠ []) :
    (RexmitRequest.toStr ⟨receiverAddr, packetIds⟩).length =
      14 + (packetIds.map fun id => (toDecimal id).length + 1).sum := by
  have hjoined := length_intercalate packetSeparator
    (show packetIds.map toDecimal ≠ [] by simpa using hne)
  rw [List.map_map] at hjoined
  have hprefix : RexmitRequest.rexmitPrefix.length = 13 := rfl
  simp only [RexmitRequest.toStr, List.length_append, List.length_singleton, hprefix]
  simp only [Function.comp_def] at hjoined
  omega

theorem length_toDecimal_le {x : Nat} (h : x < 2 ^ 64) : (toDecimal x).length ≤ 20 :=
  (Nat.length_toDigits_le_iff (by decide) (by decide)).mpr (h.trans (by decide))

theorem length_toStr_le (receiverAddr : SockAddr) {packetIds : List Nat} (hne : packetIds ≠ [])
    (hwords : ∀ id ∈ packetIds, id < 2 ^ 64) :
    (RexmitRequest.toStr ⟨receiverAddr, packetIds⟩).length ≤ 14 + 21 * packetIds.length := by
  have hsum := List.sum_le_card_nsmul (packetIds.map fun id => (toDecimal id).length + 1) 21
    (by
      intro n hn
      obtain ⟨id, hid, rfl⟩ := List.mem_map.mp hn
      exact Nat.succ_le_succ (length_toDecimal_le (hwords id hid)))
  rw [List.length_map, smul_eq_mul] at hsum
  calc (RexmitRequest.toStr ⟨receiverAddr, packetIds⟩).length
      = 14 + (packetIds.map fun id => (toDecimal id).length + 1).sum :=
        length_toStr receiverAddr hne
    _ ≤ 14 + packetIds.length * 21 := Nat.add_le_add_left hsum 14
    _ = 14 + 21 * packetIds.length := by rw [Nat.mul_comm]

theorem le_length_toStr (receiverAddr : SockAddr) {packetIds : List Nat} (hne : packetIds ≠ [])
    {digits : Nat} (hdigits : ∀ id ∈ packetIds, digits ≤ (toDecimal id).length) :
    14 + packetIds.length * (digits + 1) ≤
      (RexmitRequest.toStr ⟨receiverAddr, packetIds⟩).length := by
  have hsum := List.card_nsmul_le_sum (packetIds.map fun id => (toDecimal id).length + 1)
    (digits + 1) (by
      intro n hn
      obtain ⟨id, hid, rfl⟩ := List.mem_map.mp hn
      exact Nat.succ_le_succ (hdigits id hid))
  rw [List.length_map, smul_eq_mul] at hsum
  calc 14 + packetIds.length * (digits + 1)
      ≤ 14 + (packetIds.map fun id => (toDecimal id).length + 1).sum :=
        Nat.add_le_add_left hsum 14
    _ = (RexmitRequest.toStr ⟨receiverAddr, packetIds⟩).length :=
        (length_toStr receiverAddr hne).symm

/-! ## The numbers in it -/

/-- Whatever text `order_retransmission` builds, it fits a datagram. -/
def RequestFits (b : CircularBuffer α) : Prop :=
  ∀ fuel stations receiver text,
    orderRetransmission fuel stations b = .ok (some (receiver, text)) →
      text.length ≤ udpMaxDataSize

/-- A text that is sent is made of the numbers that the scan finds. -/
theorem exists_of_orderRetransmission {fuel : Nat} {stations : Stations} {receiver : SockAddr}
    {text : List Char}
    (h : orderRetransmission fuel stations b = .ok (some (receiver, text))) :
    ∃ packetIds, packetIds ≠ [] ∧ missingFrom b fuel b.tail = .ok packetIds ∧
      text = RexmitRequest.toStr ⟨⟨0, 0⟩, packetIds⟩ := by
  unfold orderRetransmission at h
  split at h
  case isTrue => cases h
  case isFalse =>
    split at h
    case isTrue => cases h
    case isFalse =>
      obtain ⟨packetIds, hids, h⟩ := bind_eq_ok_iff.mp h
      dsimp only at h
      split at h
      case isTrue => cases h
      case isFalse hne =>
        obtain ⟨station, -, h⟩ := bind_eq_ok_iff.mp h
        obtain ⟨-, rfl⟩ := Prod.mk.inj (Option.some.inj (Except.ok.inj h))
        exact ⟨packetIds, hne, hids, rfl⟩

/-- Nothing is asked for when the tail is at the head. -/
theorem requestFits_of_tail_eq (h : b.tail = b.head) : RequestFits b := by
  intro fuel stations receiver text hsent
  obtain ⟨packetIds, hne, hids, -⟩ := exists_of_orderRetransmission hsent
  cases fuel with
  | zero => cases hids
  | succ fuel =>
      rw [missingFrom, if_pos h] at hids
      exact absurd (Except.ok.inj hids).symm hne

theorem missingIds_lt (b : CircularBuffer α) {k n id : Nat} (h : id ∈ missingIds b k n) :
    id < 2 ^ 64 := by
  obtain ⟨k, -, rfl⟩ := List.mem_map.mp h
  exact wadd_lt _ _

/-- With at most 3120 numbers the text fits. -/
theorem requestFits_of_length_le (h : Ring b)
    (hlen : b.head < b.roundedCap → (missingIds b 0 b.windowLen).length ≤ 3120) :
    RequestFits b := by
  intro fuel stations receiver text hsent
  obtain ⟨packetIds, hne, hids, rfl⟩ := exists_of_orderRetransmission hsent
  by_cases hlt : b.head < b.roundedCap
  · rw [missingFrom_tail h hlt] at hids
    split at hids
    case isTrue =>
      obtain rfl := Except.ok.inj hids
      have hle := length_toStr_le ⟨0, 0⟩ hne fun id => missingIds_lt b
      have hcount := hlen hlt
      have hmax : udpMaxDataSize = 65535 := rfl
      omega
    case isFalse => cases hids
  · have hhead : b.head = b.roundedCap := le_antisymm h.head_le (not_lt.mp hlt)
    rw [missingFrom_of_head_eq h hhead] at hids
    cases hids

theorem length_missingIds (b : CircularBuffer α) (n : Nat) :
    (missingIds b 0 n).length = (List.range n).countP fun k => !b.occupied (b.windowSlot k) := by
  rw [missingIds, List.length_map, ← List.range_eq_range', List.countP_eq_length_filter]

theorem length_missingIds_le (b : CircularBuffer α) (n : Nat) :
    (missingIds b 0 n).length ≤ n := by
  rw [length_missingIds]
  exact List.countP_le_length.trans_eq List.length_range

/-- When none of the slots is occupied, all of them are missing. -/
theorem length_missingIds_eq {n : Nat}
    (h : ∀ k < n, b.occupied (b.windowSlot k) = false) : (missingIds b 0 n).length = n := by
  have hall : ((List.range n).countP fun k => !b.occupied (b.windowSlot k)) = _ :=
    List.countP_eq_length.mpr fun k hk => by
      rw [h k (List.mem_range.mp hk)]
      rfl
  rw [length_missingIds, hall, List.length_range]

/-- A buffer with room for few packets never asks for too many. -/
theorem requestFits_of_room (h : Ring b) (hroom : b.capacity / b.psize ≤ 3121) :
    RequestFits b := by
  apply requestFits_of_length_le h
  intro hlt
  have hle := length_missingIds_le b b.windowLen
  have hwindow := windowLen_lt h hlt
  omega

/-- Every missing packet of the window is followed by one that is there. -/
def Spaced (b : CircularBuffer α) : Prop :=
  ∀ k < b.windowLen, b.occupied (b.windowSlot k) = false →
    k + 1 < b.windowLen ∧ b.occupied (b.windowSlot (k + 1)) = true

/-- In a spaced window at most half of the packets are missing. -/
theorem Spaced.two_mul_length_le (h : Spaced b) :
    2 * (missingIds b 0 b.windowLen).length ≤ b.windowLen := by
  have hcount := two_mul_countP_le (p := fun k => !b.occupied (b.windowSlot k))
    (n := b.windowLen) fun k hk hmissing => by
      rw [(h k (by omega) (Bool.not_eq_true' _ ▸ hmissing)).2]
      rfl
  rw [length_missingIds]
  rcases Nat.eq_zero_or_pos b.windowLen with hzero | hpos
  · rw [hzero]
    simp
  · have hlast : b.occupied (b.windowSlot (b.windowLen - 1)) = true := by
      by_contra hmissing
      have := (h (b.windowLen - 1) (by omega) (Bool.eq_false_iff.mpr hmissing)).1
      omega
    simpa [hlast] using hcount

/-- With every other packet there, a buffer of twice the size never asks for too many. -/
theorem Spaced.requestFits (h : Spaced b) (hring : Ring b)
    (hroom : b.capacity / b.psize ≤ 6242) : RequestFits b := by
  apply requestFits_of_length_le hring
  intro hlt
  have hle := h.two_mul_length_le
  have hwindow := windowLen_lt hring hlt
  omega

/-! ## While nothing is printed -/

/-- A push skips at most one slot and ends with a packet. -/
theorem spaced_pushed [Zero α] {packet : AudioPacket α} (h : Ring b)
    (h2 : 2 * b.psize ≤ b.capacity) (hdvd : b.psize ∣ b.headOffset packet)
    (hnear : b.headOffset packet ≤ b.psize) (hspaced : Spaced b) : Spaced (b.pushed packet) := by
  have hpos := h.psize_pos
  have hfit : 2 ≤ b.capacity / b.psize := (Nat.le_div_iff_mul_le hpos).mpr h2
  have hone : b.headOffset packet / b.psize ≤ 1 :=
    (Nat.div_le_div_right hnear).trans_eq (Nat.div_self hpos)
  have hwindow := windowLen_pushed h hdvd h2 hnear
  have hslot := windowSlot_pushed h hdvd h2 hnear
  have hflag := fun j => occupied_pushed h hdvd h2 hnear (j := j)
  generalize b.headOffset packet / b.psize = gaps at *
  generalize b.capacity / b.psize = n at *
  intro k hk hmissing
  rw [hwindow] at hk
  rw [hslot, hflag _ (by omega) (by omega)] at hmissing
  have hnew : b.windowLen + gaps + 1 - (n - 1) + k ≠ b.windowLen + gaps := by
    intro heq
    rw [if_pos heq] at hmissing
    cases hmissing
  rw [if_neg hnew] at hmissing
  have hin : k + 1 < (b.pushed packet).windowLen := by omega
  refine ⟨hin, ?_⟩
  rw [hslot, hflag _ (by omega) (by omega)]
  split
  case isTrue => rfl
  case isFalse hnext =>
    -- what follows is not the packet, so the missing one is from before
    have hold : b.windowLen + gaps + 1 - (n - 1) + k < b.windowLen := by omega
    rw [if_pos hold] at hmissing
    obtain ⟨hlt, hocc⟩ := hspaced _ hold hmissing
    rw [← Nat.add_assoc, if_pos hlt]
    exact hocc

/-- A gap that is filled, in whatever slot, only adds a packet. -/
theorem spaced_gapFilled {packet : AudioPacket α} (hspaced : Spaced b) :
    Spaced (b.gapFilled packet) := by
  have hwindow : (b.gapFilled packet).windowLen = b.windowLen := by
    rw [windowLen, range_gapFilled, gapFilled_psize, windowLen]
  have hslot (k : Nat) : (b.gapFilled packet).windowSlot k = b.windowSlot k := by
    simp only [windowSlot, slot, gapFilled_tail, roundedCap_gapFilled, gapFilled_psize]
  have hadds {i : Nat} (hocc : b.occupied i = true) : (b.gapFilled packet).occupied i = true := by
    simp [gapFilled_occupied, hocc]
  intro k hk hmissing
  rw [hwindow] at hk
  rw [hslot] at hmissing
  obtain ⟨hlt, hocc⟩ := hspaced k hk
    (Bool.eq_false_iff.mpr fun htrue => Bool.eq_false_iff.mp hmissing (hadds htrue))
  rw [hwindow, hslot]
  exact ⟨hlt, hadds hocc⟩

namespace Playback

variable [Zero α] {m bsize : Nat} {s s' : Playback α}

/-- The packet size of the buffer is that of the packets. -/
theorem psize_step {action : Action α} (h : Reached s)
    (hsize : ∀ packet, action = .receive packet → packet.psize = m)
    (hpsize : s.buffer.psize = 0 ∨ s.buffer.psize = m) (hs : s.step action = .ok s') :
    s'.buffer.psize = 0 ∨ s'.buffer.psize = m := by
  rcases buffer_step_cases h hs with e | ⟨packet, rfl, e⟩ | ⟨packet, -, hring, hput⟩ | ⟨-, -, e⟩
  · rwa [e]
  · rw [e]
    exact .inr (hsize packet rfl)
  · rwa [(tryPut_fields hring hput).1]
  · rwa [e, dumped_psize]

theorem psize_run {buffer : CircularBuffer α} (hnew : CircularBuffer.new bsize = some buffer)
    {actions : List (Action α)} (hsizes : ∀ packet ∈ received actions, packet.psize = m)
    (hrun : run (init buffer) actions = .ok s) : s.buffer.psize = 0 ∨ s.buffer.psize = m := by
  have hguard : ∀ action ∈ actions, ∀ packet, action = .receive packet → packet.psize = m := by
    rintro action hmem packet rfl
    exact hsizes packet (List.mem_filterMap.mpr ⟨_, hmem, rfl⟩)
  have hinit : Reached (init buffer) :=
    (reached_run hnew (show run (init buffer) [] = .ok _ from rfl)).1
  refine (inv_of_guarded_run
    (I := fun s => Reached s ∧ (s.buffer.psize = 0 ∨ s.buffer.psize = m))
    (fun s action s' hs hsize hstep => ?_) ⟨hinit, .inl (new_fields hnew).1⟩
    (Guarded.of_forall hguard) hrun).2
  exact ⟨reached_step hs.1 hstep, psize_step hs.1 hsize hs.2 hstep⟩

/-- The window is spaced in a ring with room for two packets. -/
def SpacedWindow (s : Playback α) : Prop :=
  Ring s.buffer → 2 * s.buffer.psize ≤ s.buffer.capacity → Spaced s.buffer

omit [Zero α] in
theorem spaced_of_range_eq (h : b.range = 0) : Spaced b := by
  intro k hk
  rw [windowLen, h, Nat.zero_div] at hk
  exact absurd hk (Nat.not_lt_zero k)

theorem spacedWindow_step {action : Action α} (h : Reached s) (hprint : action ≠ .print)
    (hspaced : SpacedWindow s) (hs : s.step action = .ok s') : SpacedWindow s' := by
  unfold SpacedWindow
  rcases buffer_step_cases h hs with e | ⟨packet, -, e⟩ | ⟨packet, -, hring, hput⟩ | ⟨e, -⟩
  · rwa [e]
  · rw [e]
    exact fun _ _ => spaced_of_range_eq rfl
  · obtain ⟨hpsize, hcap, -⟩ := tryPut_fields hring hput
    intro _ h2
    rw [hpsize, hcap] at h2
    have hround := two_mul_le_div_mul hring.psize_pos h2
    have hpos := hring.psize_pos
    rcases tryPut_cases hring hput with
      ⟨-, hsame⟩ | ⟨-, -, hnear, hout, -⟩ | ⟨-, hdvd, hnear, -, -, hpushed⟩ |
      ⟨-, -, -, -, -, -, hfilled⟩
    · rw [hsame]
      exact hspaced hring h2
    · rw [roundedCap] at hout
      omega
    · rw [hpushed]
      exact spaced_pushed hring h2 hdvd hnear (hspaced hring h2)
    · rw [hfilled]
      exact spaced_gapFilled (hspaced hring h2)
  · exact absurd e hprint

theorem spacedWindow_run {buffer : CircularBuffer α}
    (hnew : CircularBuffer.new bsize = some buffer) {actions : List (Action α)}
    (hprint : .print ∉ actions) (hrun : run (init buffer) actions = .ok s) : SpacedWindow s := by
  have hguard : ∀ action ∈ actions, action ≠ .print := fun action hmem e => hprint (e ▸ hmem)
  have hinit : Reached (init buffer) :=
    (reached_run hnew (show run (init buffer) [] = .ok _ from rfl)).1
  have hpsize : (init buffer).buffer.psize = 0 := (new_fields hnew).1
  refine (inv_of_guarded_run (I := fun s => Reached s ∧ SpacedWindow s)
    (fun s action s' hs hne hstep => ?_) ⟨hinit, fun hring => ?_⟩ (Guarded.of_forall hguard)
    hrun).2
  · exact ⟨reached_step hs.1 hstep, spacedWindow_step hs.1 hne hs.2 hstep⟩
  · exact absurd hpsize hring.psize_pos.ne'

/-- What is left to show for a run is that the ring does not ask for too much. -/
theorem requestFits_of_reached (h : Reached s) (hring : Ring s.buffer → RequestFits s.buffer) :
    RequestFits s.buffer := by
  cases h with
  | unused h => exact requestFits_of_tail_eq h.tail_eq
  | ring h => exact hring h
  | stuck h =>
      obtain ⟨buffer, packet, -, hbuffer, -⟩ := h
      apply requestFits_of_tail_eq
      rw [hbuffer]
      rfl

section Run

variable {buffer : CircularBuffer α} (hnew : CircularBuffer.new bsize = some buffer)
  {actions : List (Action α)} (hsizes : ∀ packet ∈ received actions, packet.psize = m)
  (hrun : run (init buffer) actions = .ok s)

include hnew hsizes hrun

/-- In a ring that a run of such packets reaches, this many packets fit. -/
theorem room_run (hring : Ring s.buffer) : s.buffer.capacity / s.buffer.psize = bsize / m := by
  have hpsize := (psize_run hnew hsizes hrun).resolve_left hring.psize_pos.ne'
  rw [(reached_run hnew hrun).2, hpsize]

theorem requestFits_run (hroom : bsize / m ≤ 3121) : RequestFits s.buffer := by
  apply requestFits_of_reached (reached_run hnew hrun).1
  intro hring
  exact requestFits_of_room hring ((room_run hnew hsizes hrun hring).trans_le hroom)

/-- While nothing is printed, twice the room will do. -/
theorem requestFits_run_of_not_print (hprint : .print ∉ actions) (hroom : bsize / m ≤ 6242) :
    RequestFits s.buffer := by
  apply requestFits_of_reached (reached_run hnew hrun).1
  intro hring
  have hsame := room_run hnew hsizes hrun hring
  rcases Nat.lt_or_ge (bsize / m) 2 with hone | htwo
  · exact requestFits_of_room hring (by omega)
  · have hfits : 2 * s.buffer.psize ≤ s.buffer.capacity :=
      (Nat.le_div_iff_mul_le hring.psize_pos).mp (hsame ▸ htwo)
    exact (spacedWindow_run hnew hprint hrun hring hfits).requestFits hring
      (hsame.trans_le hroom)

end Run

end Playback

end SikRadio.Receiver
