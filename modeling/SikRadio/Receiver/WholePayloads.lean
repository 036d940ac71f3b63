import SikRadio.Receiver.StationSwitch
import SikRadio.Receiver.Underrun

/-!
# Whole payloads

The buffer confuses slots, keeps jobs across resets and dumps windows that hold
nothing, and yet it never mixes bytes. Whatever packets arrive, every chunk that
is written is silence or the start of the payload of one packet handled before.
-/

namespace SikRadio.Receiver.Playback

open SikRadio.Common SikRadio.Common.CircularBuffer
open Foundations Foundations.CheckedRuns Foundations.Logs Foundations.MemoryCells

variable {α : Type}

/-- The bytes start the payload of a packet that was handled. -/
def FromHandled (log : List (Observation α)) (xs : List α) : Prop :=
  ∃ packet, .handled packet ∈ log ∧ xs = packet.audioData.take xs.length

/-- A chunk is silence, or comes from one packet. -/
def WholeOrSilent [Zero α] (before : List (Observation α)) : Observation α → Prop
  | .written _ _ _ chunk => chunk = List.replicate chunk.length 0 ∨ FromHandled before chunk
  | _ => True

theorem FromHandled.append {log : List (Observation α)} {xs : List α} (h : FromHandled log xs)
    (later : List (Observation α)) : FromHandled (log ++ later) xs := by
  obtain ⟨packet, hmem, hxs⟩ := h
  exact ⟨packet, List.mem_append_left _ hmem, hxs⟩

variable [Zero α]

/-- The invariant of every run. -/
structure Sourced (s : Playback α) : Prop where
  reached : Reached s
  capacity_le : s.buffer.capacity ≤ ptrdiffMax
  absHead_lt : s.buffer.absHead < 2 ^ 64
  provenance : Provenance (FromHandled s.log) s.buffer
  inHand : ∀ packet, s.inHand = some packet → .handled packet ∈ s.log
  written : Justified WholeOrSilent s.log

namespace Sourced

variable {s s' : Playback α} {packet : AudioPacket α} (h : Sourced s)

include h

/-- The log goes on with an observation that is no chunk. -/
theorem justified_concat {observation : Observation α}
    (hother : WholeOrSilent s.log observation) :
    Justified WholeOrSilent (s.log ++ [observation]) :=
  justified_concat_iff.mpr ⟨h.written, hother⟩

theorem receive {action : Action α} (hs : s.step action = .ok s')
    (heq : s' = { s.openSession packet with log := s.log ++ [.handled packet] }) :
    Sourced s' := by
  have hreached := reached_step h.reached hs
  have hprov : Provenance (FromHandled (s.log ++ [.handled packet])) s.buffer :=
    h.provenance.mono fun xs hxs => hxs.append _
  have hlog : Justified WholeOrSilent (s.log ++ [.handled packet]) := h.justified_concat trivial
  rw [heq] at hreached ⊢
  rcases openSession_cases s packet with
    ⟨-, e⟩ | ⟨-, -, e⟩ | ⟨-, -, e⟩ | ⟨-, -, -, e⟩ | ⟨-, -, -, e⟩ <;> rw [e] at hreached ⊢
  · exact ⟨hreached, h.capacity_le, h.absHead_lt, hprov,
      fun p hp => List.mem_append_left _ (h.inHand p hp), hlog⟩
  · exact ⟨hreached, h.capacity_le, h.absHead_lt, hprov,
      fun p hp => List.mem_append_left _ (h.inHand p hp), hlog⟩
  · refine ⟨hreached, h.capacity_le, packet.firstByteNum_lt, provenance_resetAt s.buffer _ _,
      fun p hp => ?_, hlog⟩
    obtain rfl : packet = p := Option.some.inj hp
    simp
  · exact ⟨hreached, h.capacity_le, h.absHead_lt, hprov,
      fun p hp => List.mem_append_left _ (h.inHand p hp), hlog⟩
  · refine ⟨hreached, h.capacity_le, h.absHead_lt, hprov, fun p hp => ?_, hlog⟩
    obtain rfl : packet = p := Option.some.inj hp
    simp

/-- Wherever the put stores the payload, it comes from the packet in hand. -/
theorem put {action : Action α} (hhand : s.inHand = some packet) (hs : s.step action = .ok s')
    (hput : s.putPacket packet = .ok s') : Sourced s' := by
  have hreached := reached_step h.reached hs
  have hring := h.reached.ring_of_put hhand hput
  obtain ⟨buffer, htry, rfl⟩ := putPacket_eq_ok_iff.mp hput
  have hP : FromHandled s.log (packet.audioData.take s.buffer.psize) :=
    ⟨packet, h.inHand packet hhand, by rw [List.length_take, ← List.take_eq_take_min]⟩
  have hprov := provenance_tryPut h.provenance hring h.capacity_le h.absHead_lt hP htry
  obtain ⟨-, hcap, -⟩ := tryPut_fields hring htry
  have hlog : ∃ later, (s.afterPut packet buffer).log = s.log ++ later ∧
      Justified WholeOrSilent (s.afterPut packet buffer).log := by
    rw [afterPut_log]
    split
    · exact ⟨[], by simp, h.written⟩
    · exact ⟨_, rfl, h.justified_concat trivial⟩
  obtain ⟨later, hlater, hjust⟩ := hlog
  refine ⟨hreached, ?_, ?_, ?_, by simp, hjust⟩ <;> rw [afterPut_buffer]
  · exact hcap ▸ h.capacity_le
  · exact tryPut_absHead_lt hring h.absHead_lt htry
  · exact hprov.mono fun xs hxs => hlater ▸ hxs.append later

/-- What is printed is the slot at the tail, and a slot that is not occupied is silent. -/
theorem print {action : Action α} (hprinting : s.printing = true) (hs : s.step action = .ok s')
    (hprint : s.handlePrint = .ok s') : Sourced s' := by
  have hreached := reached_step h.reached hs
  have hring := h.reached.ring_of_print hprinting hprint
  obtain rfl := Except.ok.inj ((handlePrint_eq hring).symm.trans hprint)
  have hin : s.buffer.tail < s.buffer.capacity := hring.tail_lt.trans_le (roundedCap_le _)
  refine ⟨hreached, by simpa using h.capacity_le, by simpa using h.absHead_lt,
    (provenance_dumped h.provenance hring).mono fun xs hxs => hxs.append _,
    fun p hp => List.mem_append_left _ (h.inHand p hp), h.justified_concat ?_⟩
  rcases Bool.eq_false_or_eq_true (s.buffer.occupied s.buffer.tail) with hocc | hocc
  · exact .inr (h.provenance.payload s.buffer.tail hin hocc)
  · left
    rw [slice_of_not_occupied h.provenance hring hocc, List.length_replicate]

theorem step {action : Action α} (hs : s.step action = .ok s') : Sourced s' := by
  rcases step_cases hs with rfl | ⟨packet, -, -, heq⟩ | ⟨packet, -, hhand, hput⟩ |
    ⟨-, hhand, rfl⟩ | ⟨event, rest, -, -, -, rfl⟩ | ⟨-, hprinting, hprint⟩
  · exact h
  · exact h.receive hs heq
  · exact h.put hhand hs hput
  · exact ⟨reached_step h.reached hs, h.capacity_le, h.absHead_lt,
      h.provenance.mono fun xs hxs => hxs.append _,
      fun p hp => List.mem_append_left _ (h.inHand p hp), h.justified_concat trivial⟩
  · exact { h with reached := reached_step h.reached hs }
  · exact h.print hprinting hs hprint

end Sourced

theorem sourced_init {bsize : Nat} {buffer : CircularBuffer α}
    (hnew : CircularBuffer.new bsize = some buffer) : Sourced (init buffer) := by
  have hrun : run (init buffer) [] = .ok (init buffer) := rfl
  have hreached := (reached_run hnew hrun).1
  unfold CircularBuffer.new at hnew
  split at hnew
  case isTrue hmax =>
    obtain rfl := Option.some.inj hnew
    exact ⟨hreached, hmax, by simp [init], ⟨by simp [init], by simp [init], fun _ _ _ => rfl⟩,
      by simp [init], justified_nil⟩
  case isFalse => cases hnew

/-- In every run of the workers, whatever packets they receive and however they are interleaved,
each chunk written is silence or the start of the payload of one packet handled before it. -/
theorem chunks_whole_or_silent {bsize : Nat} {buffer : CircularBuffer α}
    (hnew : CircularBuffer.new bsize = some buffer) {actions : List (Action α)} {s : Playback α}
    (hrun : run (init buffer) actions = .ok s) : Justified WholeOrSilent s.log := by
  have hsourced : Sourced s :=
    inv_of_run (fun _ _ _ h hs => Sourced.step h hs) (sourced_init hnew) hrun
  exact hsourced.written

section Example

/-- A packet of session 9 comes while a job of session 7 is pending, which then prints it. -/
theorem chunks_whole_or_silent_restart :
    ∃ buffer, CircularBuffer.new 4 = some buffer ∧
      ∃ s, run (init buffer) (fourArrivals ++ arrival (AudioPacket.oneByte 9 5) ++
          [.popEvent, .print]) = .ok s ∧ Justified WholeOrSilent s.log := by
  have hnew : (CircularBuffer.new 4 : Option (CircularBuffer UInt8)) = some _ := rfl
  exact ⟨_, hnew, exists_ok_and (by decide) fun s hrun => chunks_whole_or_silent hnew hrun⟩

end Example

end SikRadio.Receiver.Playback
