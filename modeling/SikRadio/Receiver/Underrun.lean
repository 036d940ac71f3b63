import SikRadio.Receiver.Reached

/-!
# Underruns

Every put that passes the threshold queues a print job, whether or not it
stored a packet, and jobs survive the reset of a new session. The window never
runs empty under the printer as long as the pending jobs are covered by what is
buffered: at each put that queues a job, and at each restart, where nothing is
buffered yet.
-/

namespace SikRadio.Receiver.Playback

open SikRadio.Common SikRadio.Common.CircularBuffer
open Foundations.CheckedRuns Foundations.RingOffsets Foundations.Word64

variable {α : Type}

/-- The packets that senders emit to a receiver with a buffer of `bsize` bytes. -/
structure FromSenders (bsize : Nat) (packets : List (AudioPacket α)) : Prop where
  pos : ∀ packet ∈ packets, 0 < packet.psize
  fits : ∀ packet ∈ packets, packet.psize ≤ bsize / 2
  constant : ∀ packet ∈ packets, ∀ packet' ∈ packets,
    packet.sessionId = packet'.sessionId → packet.psize = packet'.psize
  aligned : ∀ packet ∈ packets, packet.psize ∣ packet.firstByteNum

/-- The steps that reset the buffer for a newer session. -/
def Restarts (s : Playback α) : Action α → Prop
  | .receive packet => s.inHand = none ∧ s.curSession < packet.sessionId
  | _ => False

/-- The length of the window after a put: an accepted packet extends it as far as
the ring allows, any other one leaves it as it is. -/
def rangeAfterPut (b : CircularBuffer α) (packet : AudioPacket α) : Nat :=
  if b.absHead ≤ packet.firstByteNum ∧ b.headOffset packet ≤ b.psize then
    min (b.range + b.headOffset packet + b.psize) (b.roundedCap - b.psize)
  else b.range

/-- The condition on the steps of a run: no job is pending at a restart, a job is queued
only when the window then covers all pending jobs, and stream positions do not wrap. -/
def JobsCovered (s : Playback α) : Action α → Prop
  | .receive packet => s.inHand = none → s.curSession < packet.sessionId → s.pendingJobs = 0
  | .put => ∀ packet ∈ s.inHand,
      (s.Prints packet → (s.pendingJobs + 1) * s.buffer.psize ≤ rangeAfterPut s.buffer packet) ∧
      (s.buffer.absHead ≤ packet.firstByteNum → s.buffer.headOffset packet ≤ s.buffer.psize →
        packet.firstByteNum + s.buffer.psize < 2 ^ 64)
  | _ => True

instance (s : Playback α) : (action : Action α) → Decidable (JobsCovered s action)
  | .receive _ => inferInstanceAs (Decidable (s.inHand = none → _ < _ → _ = 0))
  | .put => inferInstanceAs (Decidable (∀ packet ∈ s.inHand, _ ∧ _))
  | .changeStation | .popEvent | .print => isTrue trivial

/-- What the playback window promises about one step. While the printer has a job in
hand, which is when `dump_tail` can run, the window holds a packet. -/
structure WindowKept (s : Playback α) (action : Action α) (s' : Playback α) : Prop where
  no_underrun : s'.printing = true → s'.buffer.psize ≤ s'.buffer.range
  no_wrap : s'.buffer.range ≤ s'.buffer.absHead
  byte0_le : s'.buffer.byte0 ≤ s'.buffer.absTail
  absTail_le : s'.buffer.absTail ≤ s'.buffer.absHead
  monotone : ¬ Restarts s action → s.buffer.absTail ≤ s'.buffer.absTail

/-- The invariant of the buffer and the jobs once a session has started. -/
structure Covered (s : Playback α) : Prop where
  ring : Ring s.buffer
  two_fit : 2 * s.buffer.psize ≤ s.buffer.capacity
  absHead_lt : s.buffer.absHead < 2 ^ 64
  inside : s.buffer.byte0 + s.buffer.range ≤ s.buffer.absHead
  jobs_le : s.pendingJobs * s.buffer.psize ≤ s.buffer.range

/-- The states of a run: before the first session there is no job either. -/
structure Buffering (bsize : Nat) (s : Playback α) : Prop where
  capacity_eq : s.buffer.capacity = bsize
  covered : (Unused s ∧ s.pendingJobs = 0) ∨ Covered s

variable {bsize : Nat} {s s' : Playback α} {packet : AudioPacket α}

theorem Unused.range_eq (h : Unused s) : s.buffer.range = 0 := by
  simp [range, h.tail_eq]

theorem Unused.absTail_eq (h : Unused s) : s.buffer.absTail = 0 := by
  rw [absTail, h.range_eq, h.absHead_eq]
  rfl

theorem Covered.absTail_eq (h : Covered s) :
    s.buffer.absTail = s.buffer.absHead - s.buffer.range := by
  have := h.inside
  exact wsub_of_le (by omega) h.absHead_lt

theorem psize_le_of_printing (hprinting : s.printing = true)
    (hjobs : s.pendingJobs * s.buffer.psize ≤ s.buffer.range) :
    s.buffer.psize ≤ s.buffer.range := by
  have hpos : 0 < s.pendingJobs := by
    unfold pendingJobs
    rw [if_pos hprinting]
    omega
  exact (Nat.le_mul_of_pos_left _ hpos).trans hjobs

/-- A job in hand finds a packet. -/
theorem Buffering.psize_le (h : Buffering bsize s) (hprinting : s.printing = true) :
    s.buffer.psize ≤ s.buffer.range := by
  rcases h.covered with ⟨_, hzero⟩ | hcov
  · simp [pendingJobs, hprinting] at hzero
  · exact psize_le_of_printing hprinting hcov.jobs_le

/-- The bounds of the window in every state of a run. -/
theorem Buffering.bounds (h : Buffering bsize s) :
    s.buffer.range ≤ s.buffer.absHead ∧ s.buffer.byte0 ≤ s.buffer.absTail ∧
      s.buffer.absTail ≤ s.buffer.absHead := by
  rcases h.covered with ⟨hunused, _⟩ | hcov
  · rw [hunused.range_eq, hunused.absTail_eq, hunused.byte0_eq]
    omega
  · have := hcov.inside
    rw [hcov.absTail_eq]
    omega

/-- The invariant reads the buffer and the number of jobs only. -/
theorem Covered.of_eq (h : Covered s) (hbuffer : s'.buffer = s.buffer)
    (hjobs : s'.pendingJobs = s.pendingJobs) : Covered s' := by
  obtain ⟨h1, h2, h3, h4, h5⟩ := h
  constructor <;> simp only [hbuffer, hjobs] <;> assumption

theorem Buffering.of_eq (h : Buffering bsize s) (hbuffer : s'.buffer = s.buffer)
    (hjobs : s'.pendingJobs = s.pendingJobs)
    (hsession : s'.curSession = s.curSession ∨ s'.curSession = noSession) :
    Buffering bsize s' := by
  exact ⟨hbuffer ▸ h.capacity_eq, h.covered.imp
    (fun ⟨hunused, hzero⟩ => ⟨hunused.of_eq hbuffer hsession, hjobs ▸ hzero⟩)
    (fun hcov => hcov.of_eq hbuffer hjobs)⟩

/-! ## Preservation -/

variable [Zero α]

theorem covered_restarted (hpos : 0 < packet.psize)
    (h2 : 2 * packet.psize ≤ s.buffer.capacity) (hjobs : s.pendingJobs = 0) :
    Covered (s.restarted packet) where
  ring := ring_resetAt s.buffer hpos (by omega)
  two_fit := h2
  absHead_lt := packet.firstByteNum_lt
  inside := le_refl _
  jobs_le := by
    change s.pendingJobs * packet.psize ≤ _
    rw [hjobs, Nat.zero_mul]
    exact Nat.zero_le _

/-- What a put does to the window's length and bounds. -/
structure PutKeeps (s : Playback α) (packet : AudioPacket α) (buffer : CircularBuffer α) :
    Prop where
  range_eq : buffer.range = rangeAfterPut s.buffer packet
  grows : s.buffer.range ≤ buffer.range
  advances : s.buffer.absHead + buffer.range ≤ buffer.absHead + s.buffer.range
  absHead_lt : buffer.absHead < 2 ^ 64

theorem Covered.put (h : Covered s) {buffer : CircularBuffer α}
    (hput : s.buffer.tryPut packet = .ok buffer)
    (hword : s.buffer.absHead ≤ packet.firstByteNum →
      s.buffer.headOffset packet ≤ s.buffer.psize →
      packet.firstByteNum + s.buffer.psize < 2 ^ 64) : PutKeeps s packet buffer := by
  have hring := h.ring
  rcases tryPut_cases hring hput with
    ⟨hd, rfl⟩ | ⟨_, _, hnear, hout, _, rfl⟩ | ⟨hahead, hdvd, hnear, _, _, rfl⟩ |
    ⟨hin, hlt, _, _, _, _, rfl⟩
  · refine ⟨?_, le_refl _, le_refl _, h.absHead_lt⟩
    rw [rangeAfterPut, if_neg]
    rintro ⟨hahead, hnear⟩
    rcases hd with hbehind | ⟨_, hfar⟩
    · have := h.absTail_eq
      omega
    · omega
  · have hpos := hring.psize_pos
    have hcap : 2 * s.buffer.psize ≤ s.buffer.roundedCap := two_mul_le_div_mul hpos h.two_fit
    omega
  · have hrange := (range_pushed hring h.two_fit hdvd hnear).1
    have hoffset := headOffset_eq hahead
    have hroom := hring.range_add_le (hring.head_lt_of_two h.two_fit)
    have hword' := hword hahead hnear
    have habs : (s.buffer.pushed packet).absHead = packet.firstByteNum + s.buffer.psize := by
      rw [pushed_absHead, wadd_of_lt hword']
    refine ⟨?_, ?_, ?_, habs ▸ hword'⟩
    · rw [hrange, rangeAfterPut, if_pos ⟨hahead, hnear⟩]
    · rw [hrange]
      exact le_min (by omega) (by omega)
    · have hle : (s.buffer.pushed packet).range ≤
          s.buffer.range + s.buffer.headOffset packet + s.buffer.psize :=
        hrange ▸ Nat.min_le_left _ _
      clear hrange
      omega
  · refine ⟨?_, le_of_eq range_gapFilled.symm, ?_, ?_⟩
    · rw [rangeAfterPut, if_neg (by omega), range_gapFilled]
    · rw [range_gapFilled, gapFilled_absHead]
    · rw [gapFilled_absHead]
      exact h.absHead_lt

theorem Covered.afterPut (h : Covered s) {buffer : CircularBuffer α}
    (hput : s.buffer.tryPut packet = .ok buffer) (hkeeps : PutKeeps s packet buffer)
    (hjobs : s.Prints packet →
      (s.pendingJobs + 1) * s.buffer.psize ≤ rangeAfterPut s.buffer packet) :
    Covered (s.afterPut packet buffer) := by
  obtain ⟨hpsize, hcap, hbyte0⟩ := tryPut_fields h.ring hput
  have hin := h.inside
  have hadv := hkeeps.advances
  refine ⟨?_, ?_, ?_, ?_, ?_⟩ <;> simp only [afterPut_buffer]
  · exact ring_tryPut h.ring hput
  · rw [hpsize, hcap]
    exact h.two_fit
  · exact hkeeps.absHead_lt
  · rw [hbyte0]
    omega
  · rw [afterPut_pendingJobs hpsize hcap hbyte0, hpsize]
    split
    · rename_i hprints
      exact hkeeps.range_eq ▸ hjobs hprints
    · exact h.jobs_le.trans hkeeps.grows

/-- A print takes one job and one packet. -/
theorem Covered.printed (h : Covered s) (hprinting : s.printing = true) :
    Covered s.printed ∧ s.buffer.absTail ≤ s.printed.buffer.absTail := by
  have hring := h.ring
  have hlt := hring.head_lt_of_two h.two_fit
  have hne := psize_le_of_printing hprinting h.jobs_le
  have hrange := range_dumped hring hlt hne
  have hin := h.inside
  have hjobs := pendingJobs_printed hprinting
  have hcov : Covered s.printed := by
    refine ⟨ring_dumped hring, ?_, ?_, ?_, ?_⟩ <;> rw [printed_buffer]
    · rw [dumped_psize, dumped_capacity]
      exact h.two_fit
    · rw [dumped_absHead]
      exact h.absHead_lt
    · rw [dumped_byte0, dumped_absHead, hrange]
      omega
    · rw [dumped_psize, hrange]
      have hle := h.jobs_le
      rw [hjobs, Nat.add_mul, Nat.one_mul] at hle
      omega
  refine ⟨hcov, ?_⟩
  rw [h.absTail_eq, hcov.absTail_eq, printed_buffer, dumped_absHead, hrange]
  omega

/-- A step under the condition keeps the invariant, and the tail does not go back
unless the step is a restart. -/
theorem buffering_step {action : Action α} (h : Buffering bsize s)
    (hsizes : ∀ packet, action = .receive packet → 0 < packet.psize ∧ packet.psize ≤ bsize / 2)
    (hguard : JobsCovered s action) (hs : s.step action = .ok s') :
    Buffering bsize s' ∧ (¬ Restarts s action → s.buffer.absTail ≤ s'.buffer.absTail) := by
  rcases step_cases hs with rfl | ⟨packet, rfl, hhand, rfl⟩ | ⟨packet, rfl, hhand, hput⟩ |
    ⟨rfl, hhand, rfl⟩ | ⟨event, rest, rfl, hprinting, hqueue, rfl⟩ | ⟨rfl, hprinting, hprint⟩
  · exact ⟨h, fun _ => le_refl _⟩
  · obtain ⟨hpos, hle⟩ := hsizes packet rfl
    have hcapacity := h.capacity_eq
    rcases openSession_cases s packet with
      ⟨_, e⟩ | ⟨_, _, e⟩ | ⟨hnew, _, e⟩ | ⟨_, _, _, e⟩ | ⟨_, _, _, e⟩ <;> rw [e]
    · exact ⟨h.of_eq rfl rfl (Or.inl rfl), fun _ => le_refl _⟩
    · exact ⟨h.of_eq rfl rfl (Or.inr rfl), fun _ => le_refl _⟩
    · have hcov : Covered (s.restarted packet) :=
        covered_restarted hpos (by omega) (hguard hhand hnew)
      exact ⟨⟨hcapacity, Or.inr (hcov.of_eq rfl rfl)⟩, fun hno => absurd ⟨hhand, hnew⟩ hno⟩
    · exact ⟨h.of_eq rfl rfl (Or.inl rfl), fun _ => le_refl _⟩
    · exact ⟨h.of_eq rfl rfl (Or.inl rfl), fun _ => le_refl _⟩
  · obtain ⟨buffer, htry, rfl⟩ := putPacket_eq_ok_iff.mp hput
    rcases h.covered with ⟨hunused, _⟩ | hcov
    · exact absurd hput hunused.not_put
    · obtain ⟨hjobs, hword⟩ := hguard packet hhand
      have hkeeps := hcov.put htry hword
      have hcov' := hcov.afterPut htry hkeeps hjobs
      refine ⟨⟨?_, Or.inr hcov'⟩, fun _ => ?_⟩
      · rw [afterPut_buffer, (tryPut_fields hcov.ring htry).2.1]
        exact h.capacity_eq
      · have hadv := hkeeps.advances
        have hin := hcov.inside
        rw [hcov.absTail_eq, hcov'.absTail_eq, afterPut_buffer]
        omega
  · exact ⟨h.of_eq rfl rfl (Or.inr rfl), fun _ => le_refl _⟩
  · exact ⟨h.of_eq rfl (pendingJobs_popEvent hprinting hqueue) (Or.inl rfl),
      fun _ => le_refl _⟩
  · rcases h.covered with ⟨hunused, hzero⟩ | hcov
    · simp [pendingJobs, hprinting] at hzero
    · obtain rfl := Except.ok.inj ((handlePrint_eq hcov.ring).symm.trans hprint)
      obtain ⟨hcov', hmono⟩ := hcov.printed hprinting
      refine ⟨⟨?_, Or.inr hcov'⟩, fun _ => hmono⟩
      rw [printed_buffer, dumped_capacity]
      exact h.capacity_eq

theorem buffering_init {buffer : CircularBuffer α}
    (hnew : CircularBuffer.new bsize = some buffer) : Buffering bsize (init buffer) := by
  have hunused : Unused (init buffer) := by
    rcases (receiving_init hnew).ring with hunused | hring
    · exact hunused
    · exact absurd (new_fields hnew).1 hring.psize_pos.ne'
  exact ⟨(new_fields hnew).2.1, Or.inl ⟨hunused, rfl⟩⟩

/-- The playback window never underruns or wraps, and its start never goes back except
at a restart, in every run whose jobs are covered. -/
theorem window_kept (bsize : Nat) {buffer : CircularBuffer α}
    (hnew : CircularBuffer.new bsize = some buffer) {actions : List (Action α)}
    (hpackets : FromSenders bsize (received actions))
    (hjobs : Guarded step JobsCovered (init buffer) actions) :
    EveryStep step WindowKept (init buffer) actions := by
  have hsized : ∀ action ∈ actions, ∀ packet, action = .receive packet →
      0 < packet.psize ∧ packet.psize ≤ bsize / 2 := by
    rintro action hmem packet rfl
    have hpacket : packet ∈ received actions := List.mem_filterMap.mpr ⟨_, hmem, rfl⟩
    exact ⟨hpackets.pos packet hpacket, hpackets.fits packet hpacket⟩
  refine everyStep_of_guarded (I := Buffering bsize)
    (fun s action s' hs hg hstep => (buffering_step hs hg.1 hg.2 hstep).1)
    (fun s action s' hs hg hstep => ?_) (buffering_init hnew) (hjobs.restrict hsized)
  obtain ⟨hs', hmono⟩ := buffering_step hs hg.1 hg.2 hstep
  obtain ⟨hwrap, hlo, hhi⟩ := hs'.bounds
  exact ⟨hs'.psize_le, hwrap, hlo, hhi, hmono⟩

section Example

/-- Packets 0 to 3 of session 7; the last one passes the threshold. -/
def fourArrivals : List (Action UInt8) :=
  (List.range 4).flatMap fun n => arrival (AudioPacket.oneByte 7 n)

theorem window_kept_four :
    ∃ buffer, CircularBuffer.new 4 = some buffer ∧
      EveryStep step WindowKept (init buffer) (fourArrivals ++ [.popEvent, .print]) :=
  ⟨_, rfl, window_kept 4 rfl ⟨by decide, by decide, by decide, by decide⟩ (by decide)⟩

/-- Three duplicates of packet 0 are dismissed, but each of them queues a job. -/
def surplusJobs : List (Action UInt8) :=
  fourArrivals ++ (List.replicate 3 (arrival (AudioPacket.oneByte 7 0))).flatten ++
    (List.replicate 3 [.popEvent, .print]).flatten

/-- The fourth job finds an empty window. -/
theorem surplus_jobs_underrun :
    ∃ buffer, CircularBuffer.new 4 = some buffer ∧
      FromSenders 4 (received (surplusJobs ++ [.popEvent])) ∧
      ¬ EveryStep step WindowKept (init buffer) (surplusJobs ++ [.popEvent]) := by
  refine ⟨_, rfl, ⟨by decide, by decide, by decide, by decide⟩, fun h => ?_⟩
  obtain ⟨_, s, hrun, hkept⟩ := h.exists_last (by decide)
  have hstate : (s.printing, s.buffer.psize, s.buffer.range) = (true, 1, 0) :=
    eq_of_toOption_map (fun s => (s.printing, s.buffer.psize, s.buffer.range)) (by decide) hrun
  simp only [Prod.mk.injEq] at hstate
  have hle := hkept.no_underrun hstate.1
  omega

end Example

end SikRadio.Receiver.Playback
