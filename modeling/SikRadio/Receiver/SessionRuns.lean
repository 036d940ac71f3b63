import SikRadio.Common.AudioPacketCodec
import SikRadio.Common.SlotProvenance
import SikRadio.Receiver.LossBurst

/-!
# Runs of one session

A run receives packets of one stream, with any of them lost, repeated or out of
order. To build such a run step by step, one lemma for each way to extend it says
what the next state is: the first packet, a later packet, and a print.

## Implementation notes

The packets of these runs carry silence; no property of a request depends on the
audio data.
-/

namespace SikRadio.Receiver

open SikRadio.Common SikRadio.Common.CircularBuffer
open Foundations Foundations.CheckedRuns Foundations.MemoryCells Foundations.RingOffsets
  Foundations.Word64

namespace Playback

section Session

variable {first m n : Nat} {packet : AudioPacket UInt8} {actions : List (Action UInt8)}

/-- The received packets are from the stream of one session, in any order, and each of them
was read from a datagram. -/
structure OfSession (m : Nat) (actions : List (Action UInt8)) : Prop where
  stream : ∃ first sid sent, IsStream first m sid sent ∧
    ∀ packet ∈ received actions, packet ∈ sent
  readable : ∀ packet ∈ received actions, ∃ datagram, readPacket datagram = some packet

theorem OfSession.psize_eq (h : OfSession m actions) : ∀ packet ∈ received actions,
    packet.psize = m := by
  obtain ⟨first, sid, sent, hsent, hmem⟩ := h.stream
  intro packet hpacket
  obtain ⟨k, hk, rfl⟩ := List.mem_iff_getElem.mp (hmem packet hpacket)
  exact (hsent k hk).2.1

theorem psize_le_of_readPacket {datagram : List UInt8} (h : readPacket datagram = some packet) :
    packet.psize ≤ AudioPacket.maxPsize := by
  simp only [readPacket] at h
  split at h
  case isTrue => cases h
  case isFalse =>
    obtain rfl := Option.some.inj h
    simp only [AudioPacket.psize, AudioPacket.ofBuffer, List.length_take, List.length_drop]
    unfold AudioPacket.maxPsize
    omega

/-- A datagram is read as the packet it was built from. -/
theorem readPacket_bytes (h : packet.psize ≤ AudioPacket.maxPsize) :
    readPacket packet.bytes = some packet := by
  have hlen : packet.bytes.length = 16 + packet.psize := by
    simp only [AudioPacket.bytes_eq, List.length_append, ByteOrder.length_bigEndian,
      AudioPacket.psize]
  have hmax : AudioPacket.maxPsize + 16 = udpMaxDataSize := rfl
  have htake : packet.bytes.take udpMaxDataSize = packet.bytes :=
    List.take_of_length_le (by omega)
  rw [readPacket, htake]
  simp only [hlen]
  rw [if_neg (by omega), Nat.add_sub_cancel_left, AudioPacket.ofBuffer_bytes]

/-- Every packet that fits a datagram can be received. -/
theorem exists_datagram (h : packet.psize ≤ AudioPacket.maxPsize) :
    ∃ datagram, readPacket datagram = some packet :=
  ⟨packet.bytes, readPacket_bytes h⟩

/-- Packets that fit no datagram never arrive. -/
theorem OfSession.received_eq_nil (h : OfSession m actions) (hm : AudioPacket.maxPsize < m) :
    received actions = [] := by
  apply List.eq_nil_iff_forall_not_mem.mpr
  intro packet hpacket
  obtain ⟨datagram, hread⟩ := h.readable packet hpacket
  have hle := psize_le_of_readPacket hread
  rw [h.psize_eq packet hpacket] at hle
  omega

/-- Packet `k` of the stream of session 1, `m` bytes of silence. -/
def silence (first m k : Nat) : AudioPacket UInt8 :=
  AudioPacket.ofWords 1 (first + k * m) (List.replicate m 0)

@[simp] theorem silence_psize (first m k : Nat) : (silence first m k).psize = m :=
  List.length_replicate

theorem silence_firstByteNum {k : Nat} (h : first + k * m < 2 ^ 64) :
    (silence first m k).firstByteNum = first + k * m :=
  Nat.mod_eq_of_lt h

theorem isStream_silence (hpos : 0 < m) (hword : first + n * m ≤ 2 ^ 64) :
    IsStream first m 1 ((List.range n).map (silence first m)) := by
  intro k hk
  have hlt : k * m < n * m := Nat.mul_lt_mul_of_pos_right (by simpa using hk) hpos
  rw [List.getElem_map, List.getElem_range]
  exact ⟨rfl, silence_psize first m k, silence_firstByteNum (by omega)⟩

/-- The packets with these numbers, each put as it arrives. -/
def silences (first m : Nat) (numbers : List Nat) : List (Action UInt8) :=
  numbers.flatMap fun k => arrival (silence first m k)

theorem received_silences (first m : Nat) (numbers : List Nat) :
    received (silences first m numbers) = numbers.map (silence first m) := by
  induction numbers with
  | nil => rfl
  | cons k numbers ih => exact congrArg (silence first m k :: ·) ih

theorem ofSession_of_received (first : Nat) {numbers : List Nat} (hpos : 0 < m)
    (hm : m ≤ AudioPacket.maxPsize) (hword : first + n * m ≤ 2 ^ 64)
    (hlt : ∀ k ∈ numbers, k < n)
    (hreceived : received actions = numbers.map (silence first m)) : OfSession m actions := by
  refine ⟨⟨first, 1, _, isStream_silence hpos hword, ?_⟩, ?_⟩
  · rw [hreceived]
    intro packet hpacket
    obtain ⟨k, hk, rfl⟩ := List.mem_map.mp hpacket
    exact List.mem_map_of_mem (List.mem_range.mpr (hlt k hk))
  · rw [hreceived]
    intro packet hpacket
    obtain ⟨k, hk, rfl⟩ := List.mem_map.mp hpacket
    exact exists_datagram ((silence_psize first m k).trans_le hm)

end Session

/-! ## Steps of a run -/

section Steps

variable {α : Type} [Zero α] {s : Playback α} {packet : AudioPacket α}

theorem run_append (s : Playback α) (actions actions' : List (Action α)) :
    run s (actions ++ actions') = run s actions >>= fun s => run s actions' :=
  List.foldlM_append

theorem run_arrival (hhand : s.inHand = none) :
    run s (arrival packet) = s.handleAudioPacket packet := by
  simp only [run, arrival, List.foldlM_cons, List.foldlM_nil, step, hhand, handleAudioPacket,
    bind_pure]
  simp only [bind, Except.bind]
  cases (s.openSession packet).inHand with
  | none => rfl
  | some packet => rfl

/-- Between two arrivals in a session. -/
structure InSession (sid : Nat) (s : Playback α) : Prop where
  inHand_eq : s.inHand = none
  session_eq : s.curSession = sid
  ring : Ring s.buffer

/-- What a put leaves between two arrivals. -/
theorem exists_putPacket (packet : AudioPacket α) (hring : Ring s.buffer)
    {buffer : CircularBuffer α} (hput : s.buffer.tryPut packet = .ok buffer) :
    ∃ s', s.putPacket packet = .ok s' ∧ InSession s.curSession s' ∧ s'.buffer = buffer ∧
      s'.printing = s.printing ∧
      s'.printerQueue = if s.Prints packet then s.printerQueue ++ [.newJobs]
        else s.printerQueue := by
  obtain ⟨hpsize, hcap, hbyte0⟩ := tryPut_fields hring hput
  refine ⟨_, putPacket_eq_ok_iff.mpr ⟨buffer, hput, rfl⟩, ⟨?_, ?_, ?_⟩, ?_, ?_, ?_⟩
  · exact afterPut_inHand
  · exact afterPut_curSession
  · rw [afterPut_buffer]
    exact ring_tryPut hring hput
  · exact afterPut_buffer
  · exact afterPut_printing
  · exact afterPut_printerQueue hpsize hcap hbyte0

/-- The first packet of a session is put into an empty buffer. -/
theorem exists_opened {bsize : Nat} {buffer : CircularBuffer α} (packet : AudioPacket α)
    (hnew : CircularBuffer.new bsize = some buffer) (hsession : packet.sessionId ≠ noSession)
    (hpos : 0 < packet.psize) (h2 : 2 * packet.psize ≤ bsize) :
    ∃ s, run (init buffer) (arrival packet) = .ok s ∧ InSession packet.sessionId s ∧
      s.buffer = (buffer.resetAt packet.psize packet.firstByteNum).pushed packet ∧
      s.printing = false ∧ (s.printerQueue = [] ∨ s.printerQueue = [.newJobs]) := by
  have hcap := (new_fields hnew).2.1
  have hrep := represents_resetAt buffer hpos (hcap.symm ▸ h2) packet.firstByteNum_lt
  have hnear : (buffer.resetAt packet.psize packet.firstByteNum).headOffset packet ≤
      packet.psize := by
    rw [headOffset_eq le_rfl]
    exact (Nat.sub_self _).trans_le (Nat.zero_le _)
  have hput := hrep.tryPut_of_ahead rfl le_rfl hnear le_rfl
  obtain ⟨s, hs, hin, hbuffer, hprinting, hqueue⟩ :=
    exists_putPacket (s := ({ init buffer with log := [.handled packet] } :
      Playback α).restarted packet) packet hrep.ring hput
  have hrun := (run_arrival rfl).trans (handleAudioPacket_first hnew hsession)
  refine ⟨s, hrun.trans hs, hin, hbuffer, hprinting, ?_⟩
  rw [hqueue]
  split
  · exact .inr rfl
  · exact .inl rfl

/-- A later packet of the session is put. -/
theorem InSession.exists_next (packet : AudioPacket α) (h : InSession packet.sessionId s)
    (hin : s.buffer.byte0 ≤ packet.firstByteNum) {buffer : CircularBuffer α}
    (hput : s.buffer.tryPut packet = .ok buffer) :
    ∃ s', run s (arrival packet) = .ok s' ∧ InSession packet.sessionId s' ∧
      s'.buffer = buffer ∧ s'.printing = s.printing ∧
      s'.printerQueue = if s.Prints packet then s.printerQueue ++ [.newJobs]
        else s.printerQueue := by
  have hrun := (run_arrival h.inHand_eq).trans
    (handleAudioPacket_next h.inHand_eq h.session_eq.symm h.ring.psize_le hin)
  obtain ⟨s', hs, hsession, hrest⟩ := exists_putPacket
    (s := { s with log := s.log ++ [.handled packet] }) packet h.ring hput
  exact ⟨s', hrun.trans hs, h.session_eq ▸ hsession, hrest⟩

/-- A job is taken from the queue and handled. -/
theorem InSession.run_print {sid : Nat} (h : InSession sid s) (hprinting : s.printing = false)
    {queue : List EventType} (hqueue : s.printerQueue = .newJobs :: queue) :
    ∃ s', run s [.popEvent, .print] = .ok s' ∧ InSession sid s' ∧
      s'.buffer = s.buffer.dumped ∧ s'.printing = false ∧ s'.printerQueue = queue := by
  have hpop : s.step .popEvent =
      .ok { s with printerQueue := queue, printing := true } := by
    simp [step, popEvent, hprinting, hqueue]
  have hprint : run s [.popEvent, .print] =
      .ok ({ s with printerQueue := queue, printing := true } : Playback α).printed := by
    simp only [run, List.foldlM_cons, List.foldlM_nil, bind_eq_ok_iff, pure_eq_ok_iff,
      exists_eq_right]
    exact ⟨_, hpop, handlePrint_eq h.ring⟩
  exact ⟨_, hprint, ⟨h.inHand_eq, h.session_eq, ring_dumped h.ring⟩, rfl, rfl, rfl⟩

end Steps

/-! ## The first packet -/

section First

variable {bsize first m : Nat}

/-- Only the first packet of the session is there, at index zero. -/
structure HoldsFirst (bsize first m : Nat) (b : CircularBuffer UInt8) : Prop where
  psize_eq : b.psize = m
  capacity_eq : b.capacity = bsize
  byte0_eq : b.byte0 = first
  notEmpty : b.empty = false
  tail_eq : b.tail = 0
  head_eq : b.head = m
  occupied_eq : ∀ i < bsize, b.occupied i = decide (i = 0)
  window : ∃ w, Represents b w ∧ w.hi = first + m

theorem HoldsFirst.range_eq {b : CircularBuffer UInt8} (h : HoldsFirst bsize first m b) :
    b.range = m := by
  rw [range, h.tail_eq, h.head_eq, if_pos (Nat.zero_le m), Nat.sub_zero]

theorem holdsFirst_pushed (b : CircularBuffer UInt8) (hpos : 0 < m) (h2 : 2 * m ≤ b.capacity)
    (hword : first + m < 2 ^ 64) :
    HoldsFirst b.capacity first m ((b.resetAt m first).pushed (silence first m 0)) := by
  have hfbn : (silence first m 0).firstByteNum = first :=
    (silence_firstByteNum (by omega)).trans (by omega)
  have hrep := represents_resetAt b hpos h2 (show first < 2 ^ 64 by omega)
  have hring := hrep.ring
  have hoffset : (b.resetAt m first).headOffset (silence first m 0) = 0 := by
    rw [headOffset_eq hfbn.ge, hfbn]
    exact Nat.sub_self _
  have hdvd : (b.resetAt m first).psize ∣
      (b.resetAt m first).headOffset (silence first m 0) := by
    rw [hoffset]
    exact Nat.dvd_zero _
  have hnear : (b.resetAt m first).headOffset (silence first m 0) ≤
      (b.resetAt m first).psize := hoffset.trans_le (Nat.zero_le _)
  have htwo : 2 * m ≤ (b.resetAt m first).roundedCap := two_mul_le_div_mul hpos h2
  have hend : (silence first m 0).firstByteNum + m = first + m := by rw [hfbn]
  refine ⟨pushed_psize _ _, pushed_capacity _ _, pushed_byte0 _ _, pushed_empty _ _, ?_, ?_,
    fun i hi => ?_, _, hrep.pushed hfbn.ge hdvd hnear (silence_psize first m 0).ge ?_, hend⟩
  · rw [pushed_tail, tailAfterPush_keep hring h2]
    · rfl
    · rw [hoffset]
      exact lt_of_lt_of_le (show 0 + 0 + m < 2 * m by omega) htwo
  · rw [pushed_head, hoffset]
    exact (Nat.mod_eq_of_lt (show 0 + 0 + m < _ by omega)).trans (by omega)
  · have hwrite : ((b.resetAt m first).head + 0) % (b.resetAt m first).roundedCap = 0 :=
      Nat.zero_mod _
    rw [pushed_occupied, hoffset]
    simp only [hwrite, fill_zero, occupied_resetAt b m first hi]
    split
    case isTrue hzero => exact (decide_eq_true hzero).symm
    case isFalse hzero => exact (decide_eq_false hzero).symm
  · rwa [hfbn]

/-- The first packet of the session arrives. -/
theorem exists_first (first : Nat) {buffer : CircularBuffer UInt8}
    (hnew : CircularBuffer.new bsize = some buffer) (hpos : 0 < m) (h2 : 2 * m ≤ bsize)
    (hword : first + m < 2 ^ 64) :
    ∃ s, run (init buffer) (arrival (silence first m 0)) = .ok s ∧ InSession 1 s ∧
      HoldsFirst bsize first m s.buffer ∧ s.printing = false ∧
      (s.printerQueue = [] ∨ s.printerQueue = [.newJobs]) := by
  obtain ⟨-, hcap, -⟩ := new_fields hnew
  subst hcap
  obtain ⟨s, hs, hsession, hbuffer, hjobs⟩ := exists_opened (silence first m 0) hnew
    Nat.one_ne_zero (by rwa [silence_psize]) (by rwa [silence_psize])
  have hfbn : (silence first m 0).firstByteNum = first :=
    (silence_firstByteNum (by omega)).trans (by omega)
  rw [silence_psize, hfbn] at hbuffer
  exact ⟨s, hs, hsession, hbuffer ▸ holdsFirst_pushed buffer hpos h2 hword, hjobs⟩

end First

end Playback

end SikRadio.Receiver
