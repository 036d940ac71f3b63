import SikRadio.Receiver.HostileDatagrams

/-!
# The states that the workers reach

Whatever packets arrive and however the workers are interleaved, as long as no
step stops the program the buffer is unused, a ring, or the leftover of a
restart with a packet that does not fit, whose put is still to come and stops.
-/

namespace SikRadio.Receiver.Playback

open SikRadio.Common SikRadio.Common.CircularBuffer
open Foundations.CheckedRuns

variable {α : Type} {s s' : Playback α} {packet : AudioPacket α}

/-- A restart with a packet that does not fit, before its put. -/
def Stuck [Zero α] (s : Playback α) : Prop :=
  ∃ buffer packet, s.inHand = some packet ∧
    s.buffer = CircularBuffer.resetAt buffer packet.psize packet.firstByteNum ∧
    ¬ (0 < packet.psize ∧ packet.psize ≤ buffer.capacity)

inductive Reached [Zero α] (s : Playback α) : Prop where
  | unused (h : Unused s) (hjobs : s.pendingJobs = 0)
  | ring (h : Ring s.buffer)
  | stuck (h : Stuck s)

theorem Unused.of_eq (h : Unused s) (hbuffer : s'.buffer = s.buffer)
    (hsession : s'.curSession = s.curSession ∨ s'.curSession = noSession) : Unused s' := by
  obtain ⟨hpsize, htail, habs, hbyte0, hcur⟩ := h
  exact ⟨hbuffer ▸ hpsize, hbuffer ▸ htail, hbuffer ▸ habs, hbuffer ▸ hbyte0,
    hsession.elim (fun e => e.trans hcur) id⟩

/-- Taking an event from the queue keeps the number of pending jobs. -/
theorem pendingJobs_popEvent {event : EventType} {rest : List EventType}
    (hprinting : s.printing = false) (hqueue : s.printerQueue = event :: rest) :
    pendingJobs { s with printerQueue := rest, printing := event = .newJobs } =
      s.pendingJobs := by
  simp [pendingJobs, hqueue, hprinting, List.count_cons]

variable [Zero α]

theorem Unused.not_put (h : Unused s) : s.putPacket packet ≠ .ok s' := by
  intro hput
  obtain ⟨buffer, htry, -⟩ := putPacket_eq_ok_iff.mp hput
  rw [tryPut_of_tail_eq_head h.tail_eq (h.absHead_eq ▸ Nat.zero_le _)] at htry
  exact tryPushHead_of_psize_zero h.psize_eq htry

theorem Stuck.not_put (h : Stuck s) (hhand : s.inHand = some packet) :
    s.putPacket packet ≠ .ok s' := by
  obtain ⟨buffer, packet', hhand', hbuffer, hfit⟩ := h
  obtain rfl : packet = packet' := Option.some.inj (hhand.symm.trans hhand')
  intro hput
  obtain ⟨buffer', htry, -⟩ := putPacket_eq_ok_iff.mp hput
  exact hfit ((tryPut_resetAt_ok_iff buffer).mp ⟨buffer', hbuffer ▸ htry⟩)

/-- A dump of a packet that is empty or larger than the buffer stops as well. -/
theorem Stuck.not_print (h : Stuck s) : s.handlePrint ≠ .ok s' := by
  obtain ⟨buffer, packet, -, hbuffer, hfit⟩ := h
  intro hprint
  simp only [handlePrint, dumpTail, bind_eq_ok_iff, check_eq_ok_iff, readData_eq_ok_iff,
    hbuffer] at hprint
  obtain ⟨_, _, _, ⟨_, hne, _, _, _, ⟨hread, _⟩, _⟩, _⟩ := hprint
  simp only [resetAt, reset, Nat.lt_irrefl, false_and, if_false] at hread hne
  omega

/-- Only over a ring a put goes through. -/
theorem Reached.ring_of_put (h : Reached s) (hhand : s.inHand = some packet)
    (hput : s.putPacket packet = .ok s') : Ring s.buffer := by
  cases h with
  | unused h => exact absurd hput h.not_put
  | ring h => exact h
  | stuck h => exact absurd hput (h.not_put hhand)

/-- Only over a ring a print goes through. -/
theorem Reached.ring_of_print (h : Reached s) (hprinting : s.printing = true)
    (hprint : s.handlePrint = .ok s') : Ring s.buffer := by
  cases h with
  | unused h hzero => simp [pendingJobs, hprinting] at hzero
  | ring h => exact h
  | stuck h => exact absurd hprint h.not_print

/-- The buffer always fits its packet size when no packet is in hand. -/
theorem Reached.psize_le (h : Reached s) (hhand : s.inHand = none) :
    s.buffer.psize ≤ s.buffer.capacity := by
  cases h with
  | unused h => exact h.psize_eq ▸ Nat.zero_le _
  | ring h => exact h.psize_le
  | stuck h =>
      obtain ⟨_, _, hsome, _⟩ := h
      simp [hhand] at hsome

/-- A state with the buffer of a reached one and no packet in hand before is reached. -/
theorem Reached.of_eq (h : Reached s) (hhand : s.inHand = none) (hbuffer : s'.buffer = s.buffer)
    (hjobs : s'.pendingJobs = s.pendingJobs)
    (hsession : s'.curSession = s.curSession ∨ s'.curSession = noSession) : Reached s' := by
  cases h with
  | unused h hzero => exact .unused (h.of_eq hbuffer hsession) (hjobs.trans hzero)
  | ring h => exact .ring (hbuffer ▸ h)
  | stuck h =>
      obtain ⟨_, _, hsome, _⟩ := h
      simp [hhand] at hsome

theorem reached_restarted (s : Playback α) (packet : AudioPacket α) :
    Reached (s.restarted packet) := by
  by_cases hfit : 0 < packet.psize ∧ packet.psize ≤ s.buffer.capacity
  · exact .ring (ring_resetAt s.buffer hfit.1 hfit.2)
  · exact .stuck ⟨s.buffer, packet, rfl, rfl, hfit⟩

theorem reached_step {action : Action α} (h : Reached s) (hs : s.step action = .ok s') :
    Reached s' := by
  rcases step_cases hs with rfl | ⟨packet, rfl, hhand, rfl⟩ | ⟨packet, rfl, hhand, hput⟩ |
    ⟨rfl, hhand, rfl⟩ | ⟨event, rest, rfl, hprinting, hqueue, rfl⟩ | ⟨rfl, hprinting, hprint⟩
  · exact h
  · rcases openSession_cases s packet with
      ⟨_, e⟩ | ⟨_, _, e⟩ | ⟨_, _, e⟩ | ⟨_, _, _, e⟩ | ⟨_, _, _, e⟩ <;> rw [e]
    · exact h.of_eq hhand rfl rfl (Or.inl rfl)
    · exact h.of_eq hhand rfl rfl (Or.inr rfl)
    · cases reached_restarted s packet with
      | unused h hzero => exact .unused (h.of_eq rfl (Or.inl rfl)) hzero
      | ring h => exact .ring h
      | stuck h => exact .stuck h
    · exact h.of_eq hhand rfl rfl (Or.inl rfl)
    · exact h.of_eq hhand rfl rfl (Or.inl rfl)
  · have hring := h.ring_of_put hhand hput
    obtain ⟨buffer, htry, rfl⟩ := putPacket_eq_ok_iff.mp hput
    exact .ring (afterPut_buffer ▸ ring_tryPut hring htry)
  · exact h.of_eq hhand rfl rfl (Or.inr rfl)
  · cases h with
    | unused h hzero =>
        exact .unused (h.of_eq rfl (Or.inl rfl))
          ((pendingJobs_popEvent hprinting hqueue).trans hzero)
    | ring h => exact .ring h
    | stuck h => exact .stuck h
  · have hring := h.ring_of_print hprinting hprint
    obtain rfl := Except.ok.inj ((handlePrint_eq hring).symm.trans hprint)
    exact .ring (ring_dumped hring)

/-- What a step does to the buffer: nothing, a reset for a newer session, a put or a dump. -/
theorem buffer_step_cases {action : Action α} (h : Reached s) (hs : s.step action = .ok s') :
    s'.buffer = s.buffer ∨
      (∃ packet, action = .receive packet ∧
        s'.buffer = s.buffer.resetAt packet.psize packet.firstByteNum) ∨
      (∃ packet, action = .put ∧ Ring s.buffer ∧ s.buffer.tryPut packet = .ok s'.buffer) ∨
      (action = .print ∧ Ring s.buffer ∧ s'.buffer = s.buffer.dumped) := by
  rcases step_cases hs with rfl | ⟨packet, rfl, hhand, rfl⟩ | ⟨packet, rfl, hhand, hput⟩ |
    ⟨rfl, hhand, rfl⟩ | ⟨event, rest, rfl, hprinting, hqueue, rfl⟩ | ⟨rfl, hprinting, hprint⟩
  · exact .inl rfl
  · rcases openSession_cases s packet with
      ⟨_, e⟩ | ⟨_, _, e⟩ | ⟨_, _, e⟩ | ⟨_, _, _, e⟩ | ⟨_, _, _, e⟩ <;> rw [e]
    · exact .inl rfl
    · exact .inl rfl
    · exact .inr (.inl ⟨packet, rfl, rfl⟩)
    · exact .inl rfl
    · exact .inl rfl
  · have hring := h.ring_of_put hhand hput
    obtain ⟨buffer, htry, rfl⟩ := putPacket_eq_ok_iff.mp hput
    exact .inr (.inr (.inl ⟨packet, rfl, hring, by rwa [afterPut_buffer]⟩))
  · exact .inl rfl
  · exact .inl rfl
  · have hring := h.ring_of_print hprinting hprint
    obtain rfl := Except.ok.inj ((handlePrint_eq hring).symm.trans hprint)
    exact .inr (.inr (.inr ⟨rfl, hring, printed_buffer s⟩))

/-- No step changes the capacity. -/
theorem capacity_step {action : Action α} (h : Reached s) (hs : s.step action = .ok s') :
    s'.buffer.capacity = s.buffer.capacity := by
  rcases buffer_step_cases h hs with e | ⟨packet, -, e⟩ | ⟨packet, -, hring, hput⟩ | ⟨-, -, e⟩
  · rw [e]
  · rw [e]
    rfl
  · exact (tryPut_fields hring hput).2.1
  · rw [e, dumped_capacity]

/-- Every state that a run leads to is of one of the three kinds, with the capacity of the start. -/
theorem reached_run {bsize : Nat} {buffer : CircularBuffer α}
    (hnew : CircularBuffer.new bsize = some buffer) {actions : List (Action α)}
    (hrun : run (init buffer) actions = .ok s) :
    Reached s ∧ s.buffer.capacity = bsize := by
  refine inv_of_run (I := fun s => Reached s ∧ s.buffer.capacity = bsize)
    (fun s action s' hs hstep => ?_) ⟨?_, (new_fields hnew).2.1⟩ hrun
  · exact ⟨reached_step hs.1 hstep, (capacity_step hs.1 hstep).trans hs.2⟩
  · rcases (receiving_init hnew).ring with hunused | hring
    · exact .unused hunused rfl
    · exact .ring hring

end SikRadio.Receiver.Playback
