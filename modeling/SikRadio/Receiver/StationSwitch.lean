import SikRadio.Receiver.Sessions

/-!
# Switching stations

Handling a station change closes the session but leaves the buffer and the
printer's queue as they are: until the first packet of the new station clears
the buffer, every pending job prints the next slot of the old one. The old
station is silent from the change on when these slots are empty.

## Implementation notes

Where a written byte came from is told by the type of bytes being arbitrary: a
chunk is silence or a payload handled since the change for every such type, in
particular for bytes that carry the packet they came from.
-/

namespace SikRadio.Receiver.Playback

open SikRadio.Common SikRadio.Common.CircularBuffer
open Foundations Foundations.CheckedRuns Foundations.Logs Foundations.MemoryCells
open Foundations.RingOffsets

variable {α : Type}

/-- The slots that the pending jobs will print hold nothing. -/
def JobsFindNothing (s : Playback α) : Prop :=
  ∀ k < s.pendingJobs, s.buffer.occupied (s.buffer.slot (k * s.buffer.psize)) = false

/-- The condition on the steps of a run: the pending jobs find nothing at a station
change, and no packet of session 0 arrives while no session is open. -/
def Silenceable (s : Playback α) : Action α → Prop
  | .receive packet =>
      s.inHand = none → s.curSession = noSession → packet.sessionId ≠ noSession
  | .changeStation => s.inHand = none → JobsFindNothing s
  | _ => True

instance (s : Playback α) : Decidable (JobsFindNothing s) :=
  inferInstanceAs (Decidable (∀ k < s.pendingJobs, _ = false))

instance (s : Playback α) : (action : Action α) → Decidable (Silenceable s action)
  | .receive _ => inferInstanceAs (Decidable (s.inHand = none → _ → _))
  | .changeStation => inferInstanceAs (Decidable (s.inHand = none → JobsFindNothing s))
  | .put | .popEvent | .print => isTrue trivial

/-- The block is the start of a payload handled since the last station change. -/
def FromSince (log : List (Observation α)) (xs : List α) : Prop :=
  ∃ packet ∈ handledSince log, xs = packet.audioData.take xs.length

/-- A chunk is silence, or comes from a packet handled since the last station change. -/
def SilencesOld [Zero α] (before : List (Observation α)) : Observation α → Prop
  | .written _ _ _ chunk => chunk = List.replicate chunk.length 0 ∨ FromSince before chunk
  | _ => True

instance [DecidableEq α] (log : List (Observation α)) (xs : List α) :
    Decidable (FromSince log xs) :=
  inferInstanceAs (Decidable (∃ packet ∈ handledSince log, _))

instance [Zero α] [DecidableEq α] (before : List (Observation α)) :
    (entry : Observation α) → Decidable (SilencesOld before entry)
  | .written _ _ _ chunk => inferInstanceAs (Decidable (chunk = _ ∨ FromSince before chunk))
  | .handled _ | .kept _ | .stationChanged => isTrue trivial

theorem FromSince.handled {log : List (Observation α)} {packet : AudioPacket α} {xs : List α}
    (h : FromSince log xs) : FromSince (log ++ [.handled packet]) xs := by
  obtain ⟨p, hp, hxs⟩ := h
  exact ⟨p, by rw [handledSince_handled]; exact List.mem_append_left _ hp, hxs⟩

variable [Zero α] {s s' : Playback α} {packet : AudioPacket α} {buffer : CircularBuffer α}

/-- The buffer holds packets of the current station only. -/
structure Fresh (s : Playback α) : Prop where
  ring : Ring s.buffer
  absHead_lt : s.buffer.absHead < 2 ^ 64
  provenance : Provenance (FromSince s.log) s.buffer
  inHand : ∀ packet ∈ s.inHand, packet ∈ handledSince s.log

/-- The buffer is the old station's, and the pending jobs find nothing in it. -/
structure Silent (s : Playback α) : Prop where
  ring : Ring s.buffer
  provenance : Provenance (fun _ => True) s.buffer
  inHand_eq : s.inHand = none
  session_eq : s.curSession = noSession
  jobs : JobsFindNothing s

inductive Phase (s : Playback α) : Prop where
  | unused (h : Unused s) (hjobs : s.pendingJobs = 0)
  | stuck (h : Stuck s)
  | fresh (h : Fresh s)
  | silent (h : Silent s)

/-- A slot that is not occupied is silent. -/
theorem slice_of_not_occupied {b : CircularBuffer α} {P : List α → Prop} (h : Provenance P b)
    (hring : Ring b) (hocc : b.occupied b.tail = false) :
    slice b.data b.tail b.psize = List.replicate b.psize 0 := by
  have htail := hring.tail_add_le
  have hcap := roundedCap_le b
  apply slice_eq_replicate
  intro i hlo hhi
  apply h.silent i (by omega)
  intro j hj hoccj
  have hne : j ≠ b.tail := by
    rintro rfl
    simp [hocc] at hoccj
  rcases slots_disjoint (h.dvd j hj hoccj) hring.tail_dvd hne with hleft | hright
  · exact Or.inr (by omega)
  · exact Or.inl (by omega)

/-- What the printer writes next is silence or the payload in the slot at the tail. -/
theorem silencesOld_written {log : List (Observation α)} {b : CircularBuffer α}
    (h : Provenance (FromSince log) b) (hring : Ring b) (p b0 ah : Nat) :
    SilencesOld log (.written p b0 ah (slice b.data b.tail b.psize)) := by
  have htail := hring.tail_lt
  have hcap := roundedCap_le b
  rcases Bool.eq_false_or_eq_true (b.occupied b.tail) with hocc | hocc
  · exact Or.inr (h.payload b.tail (by omega) hocc)
  · left
    rw [slice_of_not_occupied h hring hocc, List.length_replicate]

theorem Phase.reached (h : Phase s) : Reached s := by
  cases h with
  | unused h hjobs => exact .unused h hjobs
  | stuck h => exact .stuck h
  | fresh h => exact .ring h.ring
  | silent h => exact .ring h.ring

/-! ## The critical sections -/

theorem phase_restarted (s : Playback α) (packet : AudioPacket α) :
    Phase { s.restarted packet with log := s.log ++ [.handled packet] } := by
  by_cases hfit : 0 < packet.psize ∧ packet.psize ≤ s.buffer.capacity
  · refine .fresh ⟨ring_resetAt s.buffer hfit.1 hfit.2, packet.firstByteNum_lt,
      provenance_resetAt s.buffer _ _, fun p hp => ?_⟩
    obtain rfl : packet = p := Option.some.inj hp
    simp
  · exact .stuck ⟨s.buffer, packet, rfl, rfl, hfit⟩

theorem Fresh.handled (h : Fresh s) : Fresh { s with log := s.log ++ [.handled packet] } := by
  refine ⟨h.ring, h.absHead_lt, h.provenance.mono fun xs hxs => hxs.handled, fun p hp => ?_⟩
  rw [handledSince_handled]
  exact List.mem_append_left _ (h.inHand p hp)

theorem phase_receive (h : Phase s) (hhand : s.inHand = none)
    (hsession : s.curSession = noSession → packet.sessionId ≠ noSession) :
    Phase { s.openSession packet with log := s.log ++ [.handled packet] } := by
  -- without a session every packet starts one
  have hfresh : packet.sessionId ≤ s.curSession → Fresh s := by
    intro hle
    have hopen : s.curSession ≠ noSession := by
      intro hzero
      rw [hzero] at hle
      exact hsession hzero (Nat.le_zero.mp hle)
    cases h with
    | unused h => exact absurd h.session_eq hopen
    | stuck h =>
        obtain ⟨_, _, hsome, _⟩ := h
        simp [hhand] at hsome
    | fresh h => exact h
    | silent h => exact absurd h.session_eq hopen
  rcases openSession_cases s packet with
    ⟨hold, e⟩ | ⟨_, hbig, e⟩ | ⟨hnew, _, e⟩ | ⟨heq, _, _, e⟩ | ⟨heq, _, hin, e⟩ <;> rw [e]
  · exact .fresh (hfresh hold.le).handled
  · exact absurd (h.reached.psize_le hhand) (Nat.not_le.mpr hbig)
  · exact phase_restarted s packet
  · exact .fresh (hfresh heq.le).handled
  · have hkept : Fresh { s with log := s.log ++ [.handled packet] } := (hfresh heq.le).handled
    refine .fresh { hkept with inHand := fun p hp => ?_ }
    obtain rfl : packet = p := Option.some.inj hp
    simp

theorem phase_put (h : Phase s) (hmax : s.buffer.capacity ≤ ptrdiffMax)
    (hhand : s.inHand = some packet) (hput : s.putPacket packet = .ok s') : Phase s' := by
  cases h with
  | unused h => exact absurd hput h.not_put
  | stuck h => exact absurd hput (h.not_put hhand)
  | silent h => simp [h.inHand_eq] at hhand
  | fresh h =>
      obtain ⟨buffer, htry, rfl⟩ := putPacket_eq_ok_iff.mp hput
      have hP : FromSince s.log (packet.audioData.take s.buffer.psize) :=
        ⟨packet, h.inHand packet hhand, by rw [List.length_take, ← List.take_eq_take_min]⟩
      have hsince : ∀ xs, FromSince s.log xs → FromSince (s.afterPut packet buffer).log xs := by
        unfold FromSince
        rw [handledSince_afterPut]
        exact fun _ hxs => hxs
      refine .fresh ⟨?_, ?_, ?_, by simp⟩ <;> rw [afterPut_buffer]
      · exact ring_tryPut h.ring htry
      · exact tryPut_absHead_lt h.ring h.absHead_lt htry
      · exact (provenance_tryPut h.provenance h.ring hmax h.absHead_lt hP htry).mono hsince

/-- The station change: the buffer becomes the old station's. -/
theorem phase_changeStation (h : Phase s) (hhand : s.inHand = none) (hjobs : JobsFindNothing s) :
    Phase s.changeStation := by
  cases h with
  | unused h hzero => exact .unused (h.of_eq rfl (Or.inr rfl)) hzero
  | stuck h =>
      obtain ⟨_, _, hsome, _⟩ := h
      simp [hhand] at hsome
  | fresh h =>
      exact .silent ⟨h.ring, h.provenance.mono fun _ _ => trivial, hhand, rfl, hjobs⟩
  | silent h => exact .silent ⟨h.ring, h.provenance, hhand, rfl, hjobs⟩

theorem phase_popEvent (h : Phase s) {event : EventType} {rest : List EventType}
    (hprinting : s.printing = false) (hqueue : s.printerQueue = event :: rest) :
    Phase { s with printerQueue := rest, printing := event = .newJobs } := by
  have hjobs := pendingJobs_popEvent hprinting hqueue
  cases h with
  | unused h hzero => exact .unused (h.of_eq rfl (Or.inl rfl)) (hjobs.trans hzero)
  | stuck h => exact .stuck h
  | fresh h => exact .fresh { h with }
  | silent h => exact .silent { h with jobs := fun k hk => h.jobs k (hjobs ▸ hk) }

/-- A print of the old station's buffer moves on to the next slot. -/
theorem Silent.printed (h : Silent s) (hprinting : s.printing = true) : Silent s.printed := by
  have hjobs : s.pendingJobs = s.printed.pendingJobs + 1 := pendingJobs_printed hprinting
  refine ⟨ring_dumped h.ring, provenance_dumped h.provenance h.ring, h.inHand_eq, h.session_eq,
    fun k hk => ?_⟩
  rw [printed_buffer, dumped_psize, slot_of_tail_eq roundedCap_dumped (dumped_tail _),
    dumped_occupied]
  have hnext := h.jobs (k + 1) (by omega)
  rw [Nat.add_mul, Nat.one_mul, Nat.add_comm] at hnext
  simp only [fill]
  split
  · rfl
  · exact hnext

theorem phase_print (h : Phase s) (hprinting : s.printing = true)
    (hprint : s.handlePrint = .ok s') :
    Phase s' ∧ (Justified SilencesOld s.log → Justified SilencesOld s'.log) := by
  cases h with
  | unused h hzero => simp [pendingJobs, hprinting] at hzero
  | stuck h => exact absurd hprint h.not_print
  | fresh h =>
      obtain rfl := Except.ok.inj ((handlePrint_eq h.ring).symm.trans hprint)
      refine ⟨.fresh ⟨ring_dumped h.ring, ?_, ?_, ?_⟩, fun hlog => ?_⟩
      · rw [printed_buffer, dumped_absHead]
        exact h.absHead_lt
      · exact (provenance_dumped h.provenance h.ring).mono fun xs hxs => by
          rwa [FromSince, printed_log, handledSince_written]
      · rw [printed_log, handledSince_written]
        exact h.inHand
      · exact justified_concat_iff.mpr ⟨hlog, silencesOld_written h.provenance h.ring _ _ _⟩
  | silent h =>
      obtain rfl := Except.ok.inj ((handlePrint_eq h.ring).symm.trans hprint)
      have hpos : 0 < s.pendingJobs := pendingJobs_printed hprinting ▸ Nat.succ_pos _
      have hocc : s.buffer.occupied s.buffer.tail = false := by
        have hslot := h.jobs 0 hpos
        rwa [Nat.zero_mul, slot_zero h.ring] at hslot
      refine ⟨.silent (h.printed hprinting), fun hlog => justified_concat_iff.mpr ⟨hlog, ?_⟩⟩
      left
      rw [slice_of_not_occupied h.provenance h.ring hocc, List.length_replicate]

/-! ## Runs -/

/-- The invariant of a run. -/
structure Quiet (bsize : Nat) (s : Playback α) : Prop where
  capacity_eq : s.buffer.capacity = bsize
  phase : Phase s
  justified : Justified SilencesOld s.log

theorem quiet_step {bsize : Nat} (hmax : bsize ≤ ptrdiffMax) {action : Action α}
    (h : Quiet bsize s) (hguard : Silenceable s action) (hs : s.step action = .ok s') :
    Quiet bsize s' := by
  have hcap := (capacity_step h.phase.reached hs).trans h.capacity_eq
  have hlog := h.justified
  rcases step_cases hs with rfl | ⟨packet, rfl, hhand, rfl⟩ | ⟨packet, rfl, hhand, hput⟩ |
    ⟨rfl, hhand, rfl⟩ | ⟨event, rest, rfl, hprinting, hqueue, rfl⟩ | ⟨rfl, hprinting, hprint⟩
  · exact h
  · exact ⟨hcap, phase_receive h.phase hhand (hguard hhand),
      justified_concat_iff.mpr ⟨hlog, trivial⟩⟩
  · refine ⟨hcap, phase_put h.phase (h.capacity_eq ▸ hmax) hhand hput, ?_⟩
    obtain ⟨buffer, -, rfl⟩ := putPacket_eq_ok_iff.mp hput
    rw [afterPut_log]
    split
    · exact hlog
    · exact justified_concat_iff.mpr ⟨hlog, trivial⟩
  · exact ⟨hcap, phase_changeStation h.phase hhand (hguard hhand),
      justified_concat_iff.mpr ⟨hlog, trivial⟩⟩
  · exact ⟨hcap, phase_popEvent h.phase hprinting hqueue, hlog⟩
  · obtain ⟨hphase, hprinted⟩ := phase_print h.phase hprinting hprint
    exact ⟨hcap, hphase, hprinted hlog⟩

/-- After a station change nothing of the old station is written, in every run whose
steps meet the condition. -/
theorem old_station_silenced (bsize : Nat) {buffer : CircularBuffer α}
    (hnew : CircularBuffer.new bsize = some buffer) {actions : List (Action α)}
    (hguard : Guarded step Silenceable (init buffer) actions) {s : Playback α}
    (hrun : run (init buffer) actions = .ok s) : Justified SilencesOld s.log := by
  have hmax : bsize ≤ ptrdiffMax := (new_fields hnew).2.1 ▸ (new_fields hnew).2.2
  have hinit : Quiet bsize (init buffer) := by
    refine ⟨(new_fields hnew).2.1, ?_, justified_nil⟩
    rcases (receiving_init hnew).ring with hunused | hring
    · exact .unused hunused rfl
    · exact absurd (new_fields hnew).1 hring.psize_pos.ne'
  exact (inv_of_guarded_run (fun _ _ _ => quiet_step hmax) hinit hguard hrun).justified

section Example

/-- Packets 0 to 3 of session 7, of which the last one queues a job. -/
def oldStation : List (Action UInt8) :=
  (List.range 4).flatMap fun n => arrival (AudioPacket.oneByte 7 n)

/-- Packets 0, 2 and 3 of session 7; the last one queues a job, which finds packet 1 lost. -/
def oldStationWithGap : List (Action UInt8) :=
  [0, 2, 3].flatMap fun n => arrival (AudioPacket.oneByte 7 n)

/-- The job is handled after the change and writes zeros. -/
theorem old_station_silenced_idle :
    ∃ buffer, CircularBuffer.new 4 = some buffer ∧ ∃ s,
      run (init buffer) (oldStationWithGap ++ [.changeStation, .popEvent, .print]) = .ok s ∧
        Justified SilencesOld s.log :=
  ⟨_, rfl, exists_ok_and (by decide) fun _ hrun =>
    old_station_silenced 4 rfl (by decide) hrun⟩

/-- The job is handled after the change and writes byte 11 of the old station. -/
theorem pending_job_plays_old_station :
    ∃ buffer, CircularBuffer.new 4 = some buffer ∧ ∃ s,
      run (init buffer) (oldStation ++ [.changeStation, .popEvent, .print]) = .ok s ∧
        ¬ Justified SilencesOld s.log := by
  refine ⟨_, rfl, exists_ok_and (by decide) fun s hrun => ?_⟩
  have hlog : decide (Justified SilencesOld s.log) = false :=
    eq_of_toOption_map (fun s => decide (Justified SilencesOld s.log)) (by decide) hrun
  exact of_decide_eq_false hlog

end Example

end SikRadio.Receiver.Playback
