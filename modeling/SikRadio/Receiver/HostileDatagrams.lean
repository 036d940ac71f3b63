import SikRadio.Common.PutFaults
import SikRadio.Receiver.PlaybackSteps

/-!
# Hostile datagrams

Which datagrams the AudioReceiver survives, in every state that a sequence of
datagrams can lead to. The size check of a new session looks at the size of the
previous one, a payload may be empty or shorter than the packet size, and
alignment is only asserted, so the condition excludes datagrams that
`read_packet` lets through.
-/

namespace SikRadio.Receiver.Playback

open SikRadio.Common SikRadio.Common.CircularBuffer
open Foundations.CheckedRuns

variable {α : Type}

/-- The packets that `handle_audio_packet` survives: those of an old session, the first
of a new one when its payload fits, and those of the current one that are too late
or survive the put. -/
def SafePacket (s : Playback α) (packet : AudioPacket α) : Prop :=
  packet.sessionId < s.curSession ∨
    (s.curSession < packet.sessionId ∧ 0 < packet.psize ∧
      packet.psize ≤ s.buffer.capacity) ∨
    (packet.sessionId = s.curSession ∧ s.buffer.psize ≠ 0 ∧
      (packet.firstByteNum < s.buffer.byte0 ∨ s.buffer.SafePut packet))

/-- A datagram is safe when it is malformed or decodes to a safe packet. -/
def SafeDatagram (s : Playback UInt8) (datagram : List UInt8) : Prop :=
  ∀ packet ∈ readPacket datagram, SafePacket s packet

/-- The buffer before the first session. -/
structure Unused (s : Playback α) : Prop where
  psize_eq : s.buffer.psize = 0
  tail_eq : s.buffer.tail = s.buffer.head
  absHead_eq : s.buffer.absHead = 0
  byte0_eq : s.buffer.byte0 = 0
  session_eq : s.curSession = noSession

/-- The states between two packets. -/
structure Receiving (s : Playback α) : Prop where
  capacity_le : s.buffer.capacity ≤ ptrdiffMax
  absHead_lt : s.buffer.absHead < 2 ^ 64
  inHand_eq : s.inHand = none
  ring : Unused s ∨ Ring s.buffer

section Step

variable [Zero α] {s s' : Playback α} {packet : AudioPacket α}

/-- The exact condition under which one packet is handled without a fault. -/
theorem handleAudioPacket_ok_iff (hs : Receiving s) :
    (∃ s', s.handleAudioPacket packet = .ok s') ↔ SafePacket s packet := by
  have hfit : s.buffer.psize ≤ s.buffer.capacity := by
    rcases hs.ring with hunused | hring
    · rw [hunused.psize_eq]
      exact Nat.zero_le _
    · exact hring.psize_le
  simp only [handleAudioPacket_eq hs.inHand_eq, if_neg (Nat.not_lt.mpr hfit)]
  rcases Nat.lt_trichotomy packet.sessionId s.curSession with hold | heq | hnew
  · simp [SafePacket, hold]
  · simp only [SafePacket, heq, Nat.lt_irrefl, if_false, false_and, false_or, true_and]
    rcases Nat.lt_or_ge packet.firstByteNum s.buffer.byte0 with hlate | hin
    · rcases hs.ring with hunused | hring
      · rw [hunused.byte0_eq] at hlate
        exact absurd hlate (Nat.not_lt_zero _)
      · simp [hlate, hring.psize_pos.ne']
    · simp only [Nat.not_lt.mpr hin, if_false, putPacket_ok_iff, false_or]
      rcases hs.ring with hunused | hring
      · have hstop : ∀ b', s.buffer.tryPut packet ≠ .ok b' := by
          intro b'
          rw [tryPut_of_tail_eq_head hunused.tail_eq (hunused.absHead_eq ▸ Nat.zero_le _)]
          exact tryPushHead_of_psize_zero hunused.psize_eq
        constructor
        · rintro ⟨b', hput⟩
          exact absurd hput (hstop b')
        · rintro ⟨hne, _⟩
          exact absurd hunused.psize_eq hne
      · rw [tryPut_ok_iff hring hs.capacity_le hs.absHead_lt]
        exact ⟨fun h => ⟨hring.psize_pos.ne', h⟩, fun h => h.2⟩
  · simp only [SafePacket, Nat.not_lt.mpr hnew.le, if_false, hnew, if_true, false_or, true_and,
      hnew.ne', false_and, or_false, putPacket_ok_iff, restarted_buffer,
      tryPut_resetAt_ok_iff s.buffer]

/-- A put over a ring leads back to a state between two packets. -/
theorem receiving_put (h : s.putPacket packet = .ok s') (hring : Ring s.buffer)
    (hmax : s.buffer.capacity ≤ ptrdiffMax) (habs : s.buffer.absHead < 2 ^ 64) :
    Receiving s' := by
  obtain ⟨buffer, hput, rfl⟩ := putPacket_eq_ok_iff.mp h
  obtain ⟨_, hcap, _⟩ := tryPut_fields hring hput
  refine ⟨?_, ?_, afterPut_inHand, Or.inr ?_⟩
  · rw [afterPut_buffer, hcap]
    exact hmax
  · rw [afterPut_buffer]
    exact tryPut_absHead_lt hring habs hput
  · rw [afterPut_buffer]
    exact ring_tryPut hring hput

theorem receiving_handle (hs : Receiving s) (h : s.handleAudioPacket packet = .ok s') :
    Receiving s' := by
  have hsafe := (handleAudioPacket_ok_iff hs).mp ⟨s', h⟩
  simp only [handleAudioPacket_eq hs.inHand_eq] at h
  split at h
  · obtain rfl := Except.ok.inj h
    exact ⟨hs.capacity_le, hs.absHead_lt, hs.inHand_eq, hs.ring.imp (fun h => { h with }) id⟩
  · split at h
    · obtain rfl := Except.ok.inj h
      exact ⟨hs.capacity_le, hs.absHead_lt, hs.inHand_eq,
        hs.ring.imp (fun h => { h with session_eq := rfl }) id⟩
    · rename_i hnotold _
      split at h
      · rename_i hnew
        rcases hsafe with hold | ⟨_, hpos, hle⟩ | ⟨heq, _⟩
        · exact absurd hold hnotold
        · exact receiving_put h (ring_resetAt s.buffer hpos hle) hs.capacity_le
            packet.firstByteNum_lt
        · omega
      · rename_i hnotnew
        have hring : Ring s.buffer := by
          apply hs.ring.resolve_left
          intro hunused
          rcases hsafe with hold | ⟨hnew, _⟩ | ⟨_, hne, _⟩
          · exact hnotold hold
          · exact hnotnew hnew
          · exact hne hunused.psize_eq
        split at h
        · obtain rfl := Except.ok.inj h
          exact ⟨hs.capacity_le, hs.absHead_lt, hs.inHand_eq, Or.inr hring⟩
        · exact receiving_put h hring hs.capacity_le hs.absHead_lt

theorem receiving_init {bsize : Nat} {buffer : CircularBuffer α}
    (hnew : CircularBuffer.new bsize = some buffer) : Receiving (init buffer) := by
  unfold CircularBuffer.new at hnew
  split at hnew
  · obtain rfl := Option.some.inj hnew
    exact ⟨‹_›, Nat.two_pow_pos 64, rfl, Or.inl ⟨rfl, rfl, rfl, rfl, rfl⟩⟩
  · simp at hnew

end Step

theorem handleDatagram_ok_iff {s : Playback UInt8} {datagram : List UInt8} (hs : Receiving s) :
    (∃ s', s.handleDatagram datagram = .ok s') ↔ SafeDatagram s datagram := by
  unfold handleDatagram SafeDatagram
  cases readPacket datagram with
  | none => simp
  | some packet => simpa using handleAudioPacket_ok_iff hs

theorem receiving_handleDatagram {s s' : Playback UInt8} {datagram : List UInt8}
    (hs : Receiving s) (h : s.handleDatagram datagram = .ok s') : Receiving s' := by
  unfold handleDatagram at h
  split at h
  · exact Except.ok.inj h ▸ hs
  · exact receiving_handle hs h

/-- A sequence of datagrams leaves the receiver running exactly when each of them is
safe in the state it meets. -/
theorem survives_iff_safe (bsize : Nat) {buffer : CircularBuffer UInt8}
    (hnew : CircularBuffer.new bsize = some buffer) (datagrams : List (List UInt8)) :
    (∃ s, datagrams.foldlM handleDatagram (init buffer) = .ok s) ↔
      Guarded handleDatagram SafeDatagram (init buffer) datagrams :=
  ok_iff_guarded (fun _ _ _ hs => receiving_handleDatagram hs)
    (fun _ _ hs => handleDatagram_ok_iff hs) (receiving_init hnew)

/-- The header of session 1 without a payload: the push divides by the packet size zero. -/
theorem bare_header_stops :
    ∃ buffer, CircularBuffer.new 4 = some buffer ∧
      ¬ ∃ s, [[0, 0, 0, 0, 0, 0, 0, 1, 0, 0, 0, 0, 0, 0, 0, 0]].foldlM handleDatagram
        (init buffer) = .ok s :=
  ⟨_, rfl, fun ⟨_, hs⟩ => ne_ok_of_isOk (by decide) hs⟩

/-- Two packets of session 1, and then one of two bytes where packets are of one byte. -/
def uneven : List (List UInt8) :=
  [[0, 0, 0, 0, 0, 0, 0, 1, 0, 0, 0, 0, 0, 0, 0, 0, 7],
    [0, 0, 0, 0, 0, 0, 0, 1, 0, 0, 0, 0, 0, 0, 0, 2, 8],
    [0, 0, 0, 0, 0, 0, 0, 1, 0, 0, 0, 0, 0, 0, 0, 3, 9, 9]]

theorem survives_iff_safe_four :
    ∃ buffer, CircularBuffer.new 4 = some buffer ∧
      (∃ s, uneven.foldlM handleDatagram (init buffer) = .ok s) ∧
        ((∃ s, uneven.foldlM handleDatagram (init buffer) = .ok s) ↔
          Guarded handleDatagram SafeDatagram (init buffer) uneven) :=
  ⟨_, rfl, exists_ok_of_isOk (by decide), survives_iff_safe 4 rfl uneven⟩

end SikRadio.Receiver.Playback
