import SikRadio.Common.RingWindow
import SikRadio.Foundations.Logs
import SikRadio.Receiver.Playback

/-!
# What one step of the workers does

One lemma for each critical section says everything it can do; the properties of
runs are derived from these lemmas and never unfold the sections.
-/

namespace SikRadio.Receiver.Playback

open SikRadio.Common SikRadio.Common.CircularBuffer
open Foundations.CheckedRuns Foundations.Word64 Foundations.MemoryCells

variable {α : Type} {s s' : Playback α} {packet : AudioPacket α} {buffer : CircularBuffer α}

/-! ## The fields after a put -/

@[simp] theorem afterPut_buffer : (s.afterPut packet buffer).buffer = buffer := by
  unfold afterPut
  dsimp only
  split <;> rfl

@[simp] theorem afterPut_inHand : (s.afterPut packet buffer).inHand = none := by
  unfold afterPut
  dsimp only
  split <;> rfl

@[simp] theorem afterPut_curSession : (s.afterPut packet buffer).curSession = s.curSession := by
  unfold afterPut
  dsimp only
  split <;> rfl

@[simp] theorem afterPut_printing : (s.afterPut packet buffer).printing = s.printing := by
  unfold afterPut
  dsimp only
  split <;> rfl

theorem afterPut_log : (s.afterPut packet buffer).log =
    if s.buffer.Dismisses packet then s.log else s.log ++ [.kept packet] := by
  unfold afterPut
  dsimp only
  split <;> rfl

/-- After a put that keeps the sizes, the test about the job can be made before it. -/
theorem afterPut_eq (hpsize : buffer.psize = s.buffer.psize)
    (hcap : buffer.capacity = s.buffer.capacity) (hbyte0 : buffer.byte0 = s.buffer.byte0) :
    s.afterPut packet buffer =
      if s.Prints packet then
        { s.stored packet buffer with
          hasPrinted := true
          printerQueue := s.printerQueue ++ [.newJobs] }
      else s.stored packet buffer := by
  have hprints : (s.stored packet buffer).Prints packet ↔ s.Prints packet := by
    simp only [Prints, stored, printingThreshold, hpsize, hcap, hbyte0]
  exact if_congr hprints rfl rfl

/-- A put that keeps the sizes queues one print job when `Prints` holds, and none otherwise. -/
theorem afterPut_printerQueue (hpsize : buffer.psize = s.buffer.psize)
    (hcap : buffer.capacity = s.buffer.capacity) (hbyte0 : buffer.byte0 = s.buffer.byte0) :
    (s.afterPut packet buffer).printerQueue =
      if s.Prints packet then s.printerQueue ++ [.newJobs] else s.printerQueue := by
  rw [afterPut_eq hpsize hcap hbyte0]
  split
  · rfl
  · rfl

theorem afterPut_pendingJobs (hpsize : buffer.psize = s.buffer.psize)
    (hcap : buffer.capacity = s.buffer.capacity) (hbyte0 : buffer.byte0 = s.buffer.byte0) :
    (s.afterPut packet buffer).pendingJobs =
      s.pendingJobs + if s.Prints packet then 1 else 0 := by
  unfold pendingJobs
  rw [afterPut_printerQueue hpsize hcap hbyte0, afterPut_printing]
  split
  · rw [List.count_append, List.count_singleton_self]
    omega
  · omega

/-! ## The critical sections -/

variable [Zero α]

/-- The state that a packet of a newer session leaves for the put. -/
@[simps] def restarted (s : Playback α) (packet : AudioPacket α) : Playback α :=
  { s with
    curSession := packet.sessionId
    hasPrinted := false
    buffer := s.buffer.resetAt packet.psize packet.firstByteNum
    inHand := some packet }

/-- The five ways through the checks before the put. -/
theorem openSession_cases (s : Playback α) (packet : AudioPacket α) :
    (packet.sessionId < s.curSession ∧ s.openSession packet = s) ∨
      (s.curSession ≤ packet.sessionId ∧ s.buffer.capacity < s.buffer.psize ∧
        s.openSession packet = { s with curSession := noSession }) ∨
      (s.curSession < packet.sessionId ∧ s.buffer.psize ≤ s.buffer.capacity ∧
        s.openSession packet = s.restarted packet) ∨
      (packet.sessionId = s.curSession ∧ s.buffer.psize ≤ s.buffer.capacity ∧
        packet.firstByteNum < s.buffer.byte0 ∧ s.openSession packet = s) ∨
      (packet.sessionId = s.curSession ∧ s.buffer.psize ≤ s.buffer.capacity ∧
        s.buffer.byte0 ≤ packet.firstByteNum ∧
        s.openSession packet = { s with inHand := some packet }) := by
  rcases Nat.lt_or_ge packet.sessionId s.curSession with hold | hcur
  · exact Or.inl ⟨hold, by simp [openSession, hold]⟩
  · rcases Nat.lt_or_ge s.buffer.capacity s.buffer.psize with hbig | hfit
    · exact Or.inr (Or.inl ⟨hcur, hbig, by simp [openSession, Nat.not_lt.mpr hcur, hbig]⟩)
    · rcases Nat.lt_or_ge s.curSession packet.sessionId with hnew | hsame
      · refine Or.inr (Or.inr (Or.inl ⟨hnew, hfit, ?_⟩))
        simp [openSession, Nat.not_lt.mpr hcur, Nat.not_lt.mpr hfit, hnew, restarted, resetAt,
          reset]
      · have heq : packet.sessionId = s.curSession := le_antisymm hsame hcur
        rcases Nat.lt_or_ge packet.firstByteNum s.buffer.byte0 with hlate | hin
        · refine Or.inr (Or.inr (Or.inr (Or.inl ⟨heq, hfit, hlate, ?_⟩)))
          simp [openSession, heq, Nat.not_lt.mpr hfit, hlate]
        · refine Or.inr (Or.inr (Or.inr (Or.inr ⟨heq, hfit, hin, ?_⟩)))
          simp [openSession, heq, Nat.not_lt.mpr hfit, Nat.not_lt.mpr hin]

theorem putPacket_eq_ok_iff :
    s.putPacket packet = .ok s' ↔
      ∃ buffer, s.buffer.tryPut packet = .ok buffer ∧ s.afterPut packet buffer = s' := by
  simp only [putPacket, bind_eq_ok_iff, pure_eq_ok_iff]

theorem putPacket_ok_iff :
    (∃ s', s.putPacket packet = .ok s') ↔ ∃ buffer, s.buffer.tryPut packet = .ok buffer := by
  simp only [putPacket_eq_ok_iff]
  exact ⟨fun ⟨_, buffer, hput, _⟩ => ⟨buffer, hput⟩, fun ⟨buffer, hput⟩ => ⟨_, buffer, hput, rfl⟩⟩

/-- `handle_audio_packet` without another worker in between, branch by branch. -/
theorem handleAudioPacket_eq (hhand : s.inHand = none) :
    s.handleAudioPacket packet =
      let logged := { s with log := s.log ++ [.handled packet] }
      if packet.sessionId < s.curSession then .ok logged
      else if s.buffer.capacity < s.buffer.psize then .ok { logged with curSession := noSession }
      else if s.curSession < packet.sessionId then (logged.restarted packet).putPacket packet
      else if packet.firstByteNum < s.buffer.byte0 then .ok logged
      else logged.putPacket packet := by
  rcases openSession_cases s packet with
    ⟨hold, e⟩ | ⟨hcur, hbig, e⟩ | ⟨hnew, hfit, e⟩ | ⟨heq, hfit, hlate, e⟩ | ⟨heq, hfit, hin, e⟩
  · simp [handleAudioPacket, e, hold, hhand]
  · simp [handleAudioPacket, e, hbig, hhand, Nat.not_lt.mpr hcur]
  · simp only [handleAudioPacket, e, if_neg (Nat.not_lt.mpr hnew.le),
      if_neg (Nat.not_lt.mpr hfit), if_pos hnew]
    rfl
  · simp [handleAudioPacket, e, hhand, heq, Nat.not_lt.mpr hfit, hlate]
  · simp only [handleAudioPacket, e, heq, Nat.lt_irrefl, if_false, if_neg (Nat.not_lt.mpr hfit),
      if_neg (Nat.not_lt.mpr hin)]
    rfl

/-- The first packet restarts the buffer. -/
theorem handleAudioPacket_first {bsize : Nat} (hnew : CircularBuffer.new bsize = some buffer)
    (hsession : packet.sessionId ≠ noSession) :
    (init buffer).handleAudioPacket packet =
      (({ init buffer with log := [.handled packet] } : Playback α).restarted packet).putPacket
        packet := by
  have hold : ¬packet.sessionId < (init buffer).curSession := Nat.not_lt_zero _
  have hnewer : (init buffer).curSession < packet.sessionId := Nat.pos_of_ne_zero hsession
  have hfit : ¬(init buffer).buffer.capacity < (init buffer).buffer.psize := by
    simp [init, (new_fields hnew).1]
  rw [handleAudioPacket_eq rfl]
  simp only [if_neg hold, if_neg hfit, if_pos hnewer]
  rfl

/-- A packet of the current session that does not lie before the start goes to the put. -/
theorem handleAudioPacket_next (hhand : s.inHand = none)
    (hsession : packet.sessionId = s.curSession) (hfit : s.buffer.psize ≤ s.buffer.capacity)
    (hin : s.buffer.byte0 ≤ packet.firstByteNum) : s.handleAudioPacket packet =
      ({ s with log := s.log ++ [.handled packet] } : Playback α).putPacket packet := by
  rw [handleAudioPacket_eq hhand, hsession]
  simp only [Nat.lt_irrefl, if_false, if_neg (Nat.not_lt.mpr hfit), if_neg (Nat.not_lt.mpr hin)]

/-- The state after one packet is printed. -/
@[simps] def printed (s : Playback α) : Playback α :=
  { s with
    buffer := s.buffer.dumped
    printing := false
    log := s.log ++ [.written s.buffer.absTail s.buffer.byte0 s.buffer.absHead
      (slice s.buffer.data s.buffer.tail s.buffer.psize)] }

/-- A print takes the job in hand. -/
theorem pendingJobs_printed (hprinting : s.printing = true) :
    s.pendingJobs = s.printed.pendingJobs + 1 := by
  simp only [pendingJobs, printed_printerQueue, printed_printing, hprinting, if_true,
    Bool.false_eq_true, if_false]

/-- A print only moves the buffer and writes. -/
theorem exists_of_handlePrint (hprint : s.handlePrint = .ok s') :
    ∃ buffer chunk, s' = { s with
      buffer
      printing := false
      log := s.log ++ [.written s.buffer.absTail s.buffer.byte0 s.buffer.absHead chunk] } := by
  simp only [handlePrint, bind_eq_ok_iff, pure_eq_ok_iff] at hprint
  obtain ⟨_, _, ⟨buffer, chunk⟩, _, rfl⟩ := hprint
  exact ⟨buffer, chunk, rfl⟩

/-- Over a ring `handle_print` never stops. -/
theorem handlePrint_eq (h : Ring s.buffer) : s.handlePrint = .ok s.printed := by
  have hcap := roundedCap_le s.buffer
  have htail := h.tail_lt
  simp only [handlePrint, h.dumpTail_psize, bind_eq_ok_iff, check_eq_ok_iff]
  exact ⟨(), by omega, _, rfl, rfl⟩

/-- Every step that does not stop, with the action that takes it. -/
theorem step_cases {action : Action α} (h : s.step action = .ok s') :
    s' = s ∨
      (∃ packet, action = .receive packet ∧ s.inHand = none ∧
        s' = { s.openSession packet with log := s.log ++ [.handled packet] }) ∨
      (∃ packet, action = .put ∧ s.inHand = some packet ∧ s.putPacket packet = .ok s') ∨
      (action = .changeStation ∧ s.inHand = none ∧ s' = s.changeStation) ∨
      (∃ event rest, action = .popEvent ∧ s.printing = false ∧
        s.printerQueue = event :: rest ∧
        s' = { s with printerQueue := rest, printing := event = .newJobs }) ∨
      (action = .print ∧ s.printing = true ∧ s.handlePrint = .ok s') := by
  cases action with
  | receive packet =>
      simp only [step] at h
      split at h
      · exact Or.inl (Except.ok.inj h).symm
      · exact Or.inr (Or.inl ⟨packet, rfl, ‹_›, (Except.ok.inj h).symm⟩)
  | put =>
      simp only [step] at h
      split at h
      · exact Or.inr (Or.inr (Or.inl ⟨_, rfl, ‹_›, h⟩))
      · exact Or.inl (Except.ok.inj h).symm
  | changeStation =>
      simp only [step] at h
      split at h
      · exact Or.inl (Except.ok.inj h).symm
      · exact Or.inr (Or.inr (Or.inr (Or.inl ⟨rfl, ‹_›, (Except.ok.inj h).symm⟩)))
  | popEvent =>
      simp only [step, popEvent] at h
      split at h
      · exact Or.inl (Except.ok.inj h).symm
      · split at h
        · exact Or.inl (Except.ok.inj h).symm
        · exact Or.inr (Or.inr (Or.inr (Or.inr (Or.inl
            ⟨_, _, rfl, Bool.eq_false_iff.mpr ‹_›, ‹_›, (Except.ok.inj h).symm⟩))))
  | print =>
      simp only [step] at h
      split at h
      · exact Or.inr (Or.inr (Or.inr (Or.inr (Or.inr ⟨rfl, ‹_›, h⟩))))
      · exact Or.inl (Except.ok.inj h).symm

/-- To take a step and keep `I`, it is enough to do so for every section on its own.
The put and the print are the only sections that can stop. -/
theorem exists_step {I : Playback α → Prop} {action : Action α} (hs : I s)
    (hreceive : ∀ packet, action = .receive packet → s.inHand = none →
      I { s.openSession packet with log := s.log ++ [.handled packet] })
    (hput : ∀ packet, action = .put → s.inHand = some packet →
      ∃ s', s.putPacket packet = .ok s' ∧ I s')
    (hchange : action = .changeStation → s.inHand = none → I s.changeStation)
    (hpop : ∀ event rest, s.printing = false → s.printerQueue = event :: rest →
      I { s with printerQueue := rest, printing := event = .newJobs })
    (hprint : action = .print → s.printing = true → ∃ s', s.handlePrint = .ok s' ∧ I s') :
    ∃ s', s.step action = .ok s' ∧ I s' := by
  cases action with
  | receive packet =>
      simp only [step]
      split
      · exact ⟨s, rfl, hs⟩
      · exact ⟨_, rfl, hreceive packet rfl ‹_›⟩
  | put =>
      simp only [step]
      split
      · exact hput _ rfl ‹_›
      · exact ⟨s, rfl, hs⟩
  | changeStation =>
      simp only [step]
      split
      · exact ⟨s, rfl, hs⟩
      · exact ⟨_, rfl, hchange rfl ‹_›⟩
  | popEvent =>
      simp only [step, popEvent]
      split
      · exact ⟨s, rfl, hs⟩
      · split
        · exact ⟨s, rfl, hs⟩
        · exact ⟨_, rfl, hpop _ _ (Bool.eq_false_iff.mpr ‹_›) ‹_›⟩
  | print =>
      simp only [step]
      split
      · exact hprint rfl ‹_›
      · exact ⟨s, rfl, hs⟩

end SikRadio.Receiver.Playback
