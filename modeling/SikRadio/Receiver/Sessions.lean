import SikRadio.Common.SlotProvenance
import SikRadio.Receiver.Reached

/-!
# Session isolation

Between two station changes the session is the largest one handled, older
packets change nothing, and every slot of the buffer belongs to the session,
from the first packet on and on every interleaving with the printer.
-/

namespace SikRadio.Receiver.Playback

open SikRadio.Common SikRadio.Common.CircularBuffer
open Foundations Foundations.CheckedRuns Foundations.MemoryCells

variable {α : Type}

/-- The packets handled since the last station change. -/
def handledSince (log : List (Observation α)) : List (AudioPacket α) :=
  log.foldl (fun acc observation =>
    match observation with
    | .handled packet => acc ++ [packet]
    | .stationChanged => []
    | _ => acc) []

/-- The largest session id of the packets, or `NO_SESSION`. -/
def largestSession (packets : List (AudioPacket α)) : Nat :=
  packets.foldl (fun largest packet => max largest packet.sessionId) noSession

/-- The packets considered here: real session ids, and payloads that fit
and have one size in each session. -/
structure Sized (bsize : Nat) (packets : List (AudioPacket α)) : Prop where
  session_pos : ∀ packet ∈ packets, 1 ≤ packet.sessionId
  pos : ∀ packet ∈ packets, 1 ≤ packet.psize
  fits : ∀ packet ∈ packets, packet.psize ≤ bsize
  constant : ∀ packet ∈ packets, ∀ packet' ∈ packets,
    packet.sessionId = packet'.sessionId → packet.psize = packet'.psize

instance (bsize : Nat) (packets : List (AudioPacket α)) : Decidable (Sized bsize packets) :=
  decidable_of_iff ((∀ packet ∈ packets, 1 ≤ packet.sessionId) ∧
      (∀ packet ∈ packets, 1 ≤ packet.psize) ∧ (∀ packet ∈ packets, packet.psize ≤ bsize) ∧
      ∀ packet ∈ packets, ∀ packet' ∈ packets,
        packet.sessionId = packet'.sessionId → packet.psize = packet'.psize)
    ⟨fun ⟨hsession, hpos, hfits, hconstant⟩ => ⟨hsession, hpos, hfits, hconstant⟩,
      fun h => ⟨h.session_pos, h.pos, h.fits, h.constant⟩⟩

/-- The payload of some packet of session `sid`, not before `byte0`. -/
def FromSession (packets : List (AudioPacket α)) (sid byte0 : Nat) (xs : List α) : Prop :=
  ∃ packet ∈ packets, packet.sessionId = sid ∧ byte0 ≤ packet.firstByteNum ∧
    packet.audioData = xs

section Log

variable {log : List (Observation α)} {packet : AudioPacket α} {packets : List (AudioPacket α)}

@[simp] theorem handledSince_handled :
    handledSince (log ++ [.handled packet]) = handledSince log ++ [packet] := by
  simp [handledSince]

@[simp] theorem handledSince_kept : handledSince (log ++ [.kept packet]) = handledSince log := by
  simp [handledSince]

@[simp] theorem handledSince_written {p b0 ah : Nat} {chunk : List α} :
    handledSince (log ++ [.written p b0 ah chunk]) = handledSince log := by
  simp [handledSince]

@[simp] theorem handledSince_stationChanged :
    handledSince (log ++ [.stationChanged]) = [] := by
  simp [handledSince]

@[simp] theorem largestSession_concat :
    largestSession (packets ++ [packet]) = max (largestSession packets) packet.sessionId := by
  simp [largestSession]

theorem FromSession.append {sid byte0 : Nat} {xs : List α}
    (h : FromSession packets sid byte0 xs) :
    FromSession (packets ++ [packet]) sid byte0 xs := by
  obtain ⟨p, hp, hrest⟩ := h
  exact ⟨p, List.mem_append_left _ hp, hrest⟩

end Log

variable [Zero α]

/-- What sessions promise about one step. -/
structure Isolates (s : Playback α) (action : Action α) (s' : Playback α) : Prop where
  largest : s'.curSession = largestSession (handledSince s'.log)
  older : ∀ packet, action = .receive packet → s.inHand = none →
    packet.sessionId < s.curSession → s'.buffer = s.buffer ∧ s'.hasPrinted = s.hasPrinted ∧
      s'.printerQueue = s.printerQueue ∧ s'.inHand = none
  newer : ∀ packet, action = .receive packet → s.inHand = none →
    s.curSession < packet.sessionId → (∀ i < s'.buffer.capacity,
        s'.buffer.occupied i = false ∧ s'.buffer.data i = 0) ∧
      s'.buffer.byte0 = packet.firstByteNum ∧ s'.buffer.psize = packet.psize ∧
      s'.hasPrinted = false ∧ s'.inHand = some packet
  isolated : handledSince s'.log ≠ [] →
    Provenance (FromSession (handledSince s'.log) s'.curSession s'.buffer.byte0) s'.buffer

/-- The invariant of the buffer once a packet was handled since the change. -/
structure Started (s : Playback α) : Prop where
  ring : Ring s.buffer
  absHead_lt : s.buffer.absHead < 2 ^ 64
  size : ∃ packet ∈ handledSince s.log,
    packet.sessionId = s.curSession ∧ packet.psize = s.buffer.psize
  inHand : ∀ packet, s.inHand = some packet → packet ∈ handledSince s.log ∧
    packet.sessionId = s.curSession ∧ s.buffer.byte0 ≤ packet.firstByteNum
  provenance :
    Provenance (FromSession (handledSince s.log) s.curSession s.buffer.byte0) s.buffer

/-- The invariant since the last station change, for a run that receives `packets`. -/
structure SinceChange (bsize : Nat) (packets : List (AudioPacket α)) (s : Playback α) :
    Prop where
  reached : Reached s
  capacity_eq : s.buffer.capacity = bsize
  handled_mem : ∀ packet ∈ handledSince s.log, packet ∈ packets
  largest : s.curSession = largestSession (handledSince s.log)
  phase : (handledSince s.log = [] ∧ s.inHand = none) ∨ Started s

/-- The packets that a run receives matter only for those handled so far. -/
theorem SinceChange.of_mem {bsize : Nat} {packets packets' : List (AudioPacket α)}
    {s : Playback α} (h : SinceChange bsize packets s)
    (hmem : ∀ packet ∈ handledSince s.log, packet ∈ packets') : SinceChange bsize packets' s :=
  { h with handled_mem := hmem }

section Step

variable {bsize : Nat} {packets : List (AudioPacket α)} {s s' : Playback α}
  {packet : AudioPacket α} {buffer : CircularBuffer α}

omit [Zero α] in
theorem handledSince_afterPut :
    handledSince (s.afterPut packet buffer).log = handledSince s.log := by
  rw [afterPut_log]
  split
  · rfl
  · exact handledSince_kept

/-- One more handled packet that leaves buffer, session and hand alone. -/
theorem Started.handled (h : Started s) :
    Started { s with log := s.log ++ [.handled packet] } := by
  obtain ⟨hring, habs, ⟨p, hp, hsize⟩, hhand, hprov⟩ := h
  have hmem : ∀ p ∈ handledSince s.log, p ∈ handledSince (s.log ++ [.handled packet]) := by
    intro p hp
    rw [handledSince_handled]
    exact List.mem_append_left _ hp
  refine ⟨hring, habs, ⟨p, hmem p hp, hsize⟩,
    fun p hp => ⟨hmem p (hhand p hp).1, (hhand p hp).2⟩, hprov.mono fun xs hxs => ?_⟩
  rw [handledSince_handled]
  exact hxs.append

theorem started_restarted (hpos : 1 ≤ packet.psize) (hfit : packet.psize ≤ s.buffer.capacity) :
    Started { s.restarted packet with log := s.log ++ [.handled packet] } where
  ring := ring_resetAt s.buffer hpos hfit
  absHead_lt := packet.firstByteNum_lt
  size := ⟨packet, by simp, rfl, rfl⟩
  inHand p hp := by
    obtain rfl : packet = p := Option.some.inj hp
    exact ⟨by simp, rfl, le_refl _⟩
  provenance := provenance_resetAt s.buffer _ _

theorem Started.put (h : Started s) (hmax : s.buffer.capacity ≤ ptrdiffMax)
    (hconstant : ∀ p ∈ handledSince s.log, ∀ p' ∈ handledSince s.log,
      p.sessionId = p'.sessionId → p.psize = p'.psize)
    (hhand : s.inHand = some packet) (hput : s.buffer.tryPut packet = .ok buffer) :
    Started (s.afterPut packet buffer) := by
  obtain ⟨hpsize, -, hbyte0⟩ := tryPut_fields h.ring hput
  obtain ⟨p, hp, hsession, hsize⟩ := h.size
  obtain ⟨hmem, hid, hb0⟩ := h.inHand packet hhand
  have hlen : packet.psize = s.buffer.psize :=
    (hconstant packet hmem p hp (hid.trans hsession.symm)).trans hsize
  have htake : packet.audioData.take s.buffer.psize = packet.audioData :=
    List.take_of_length_le (le_of_eq hlen)
  have hP : FromSession (handledSince s.log) s.curSession s.buffer.byte0
      (packet.audioData.take s.buffer.psize) :=
    ⟨packet, hmem, hid, hb0, htake.symm⟩
  refine ⟨?_, ?_, ⟨p, ?_, ?_, ?_⟩, by simp, ?_⟩
  · rw [afterPut_buffer]
    exact ring_tryPut h.ring hput
  · rw [afterPut_buffer]
    exact tryPut_absHead_lt h.ring h.absHead_lt hput
  · rwa [handledSince_afterPut]
  · rw [afterPut_curSession, hsession]
  · rw [afterPut_buffer, hpsize, hsize]
  · rw [handledSince_afterPut, afterPut_curSession, afterPut_buffer, hbyte0]
    exact provenance_tryPut h.provenance h.ring hmax h.absHead_lt hP hput

theorem Started.printed (h : Started s) : Started s.printed := by
  obtain ⟨hring, habs, hsize, hhand, hprov⟩ := h
  refine ⟨ring_dumped hring, ?_, ?_, ?_, ?_⟩ <;>
    simp only [printed_log, handledSince_written, printed_curSession, printed_inHand,
      printed_buffer, dumped_psize, dumped_byte0, dumped_absHead]
  · exact habs
  · exact hsize
  · exact hhand
  · exact provenance_dumped hprov hring

/-- Before the first packet the session is 0, so that every packet is newer. -/
theorem SinceChange.ne_nil_of_le (h : SinceChange bsize packets s) (hid : 1 ≤ packet.sessionId)
    (hle : packet.sessionId ≤ s.curSession) : handledSince s.log ≠ [] := by
  intro hnil
  have hzero : s.curSession = noSession := by
    rw [h.largest, hnil]
    rfl
  rw [hzero] at hle
  exact absurd hid (Nat.not_le.mpr (Nat.lt_succ_of_le hle))

/-- A station change starts over. -/
theorem sinceChange_changeStation (hreached : Reached s) (hcap : s.buffer.capacity = bsize)
    (hhand : s.inHand = none) : SinceChange bsize packets s.changeStation := by
  refine ⟨hreached.of_eq hhand rfl rfl (Or.inr rfl), hcap, ?_, ?_, Or.inl ⟨?_, hhand⟩⟩ <;>
    simp [changeStation, largestSession]

/-- The handling of one packet, up to its put. -/
theorem SinceChange.receive (h : SinceChange bsize packets s) (hsized : Sized bsize packets)
    (hmem : packet ∈ packets) (hhand : s.inHand = none) :
    (s.openSession packet).curSession = max s.curSession packet.sessionId ∧
      Started { s.openSession packet with log := s.log ++ [.handled packet] } := by
  have hid := hsized.session_pos packet hmem
  have hcapacity := h.capacity_eq
  have hfit := hsized.fits packet hmem
  have hfirst (hle : packet.sessionId ≤ s.curSession) : Started s :=
    h.phase.resolve_left fun hphase => h.ne_nil_of_le hid hle hphase.1
  rcases openSession_cases s packet with
    ⟨hold, e⟩ | ⟨_, hbig, e⟩ | ⟨hnew, _, e⟩ | ⟨heq, _, _, e⟩ | ⟨heq, _, hin, e⟩
  · rw [e]
    exact ⟨(max_eq_left hold.le).symm, (hfirst hold.le).handled⟩
  · exact absurd (h.reached.psize_le hhand) (Nat.not_le.mpr hbig)
  · rw [e]
    exact ⟨(max_eq_right hnew.le).symm,
      started_restarted (hsized.pos packet hmem) (hcapacity ▸ hfit)⟩
  · rw [e]
    exact ⟨(max_eq_left heq.le).symm, (hfirst heq.le).handled⟩
  · rw [e]
    refine ⟨(max_eq_left heq.le).symm, ?_⟩
    have hstarted : Started { s with log := s.log ++ [.handled packet] } :=
      (hfirst heq.le).handled
    refine { hstarted with inHand := fun p hp => ?_ }
    obtain rfl : packet = p := Option.some.inj hp
    exact ⟨by simp, heq, hin⟩

theorem sinceChange_step {action : Action α} (hsized : Sized bsize packets)
    (hmax : bsize ≤ ptrdiffMax) (h : SinceChange bsize packets s)
    (hchange : action ≠ .changeStation) (hreceive : ∀ p, action = .receive p → p ∈ packets)
    (hs : s.step action = .ok s') : SinceChange bsize packets s' := by
  have hreached := reached_step h.reached hs
  have hcap := (capacity_step h.reached hs).trans h.capacity_eq
  rcases step_cases hs with rfl | ⟨packet, rfl, hhand, rfl⟩ | ⟨packet, rfl, hhand, hput⟩ |
    ⟨rfl, hhand, rfl⟩ | ⟨event, rest, rfl, hprinting, hqueue, rfl⟩ | ⟨rfl, hprinting, hprint⟩
  · exact h
  · have hmem := hreceive packet rfl
    obtain ⟨hsession, hstarted⟩ := h.receive hsized hmem hhand
    refine ⟨hreached, hcap, fun p hp => ?_, ?_, Or.inr hstarted⟩
    · rw [handledSince_handled, List.mem_append, List.mem_singleton] at hp
      exact hp.elim (h.handled_mem p) fun e => e ▸ hmem
    · rw [handledSince_handled, largestSession_concat, ← h.largest]
      exact hsession
  · have hstarted := h.phase.resolve_left fun ⟨_, hnone⟩ => by simp [hhand] at hnone
    obtain ⟨buffer, htry, rfl⟩ := putPacket_eq_ok_iff.mp hput
    refine ⟨hreached, hcap, ?_, ?_, Or.inr (hstarted.put (h.capacity_eq ▸ hmax) ?_ hhand htry)⟩
    · rw [handledSince_afterPut]
      exact h.handled_mem
    · rw [handledSince_afterPut, afterPut_curSession]
      exact h.largest
    · exact fun p hp p' hp' =>
        hsized.constant p (h.handled_mem p hp) p' (h.handled_mem p' hp')
  · exact absurd rfl hchange
  · refine ⟨hreached, hcap, h.handled_mem, h.largest, h.phase.imp id fun hstarted => ?_⟩
    exact { hstarted with }
  · have hlog : handledSince s'.log = handledSince s.log ∧ s'.curSession = s.curSession ∧
        s'.inHand = s.inHand := by
      obtain ⟨buffer, chunk, rfl⟩ := exists_of_handlePrint hprint
      exact ⟨handledSince_written, rfl, rfl⟩
    refine ⟨hreached, hcap, hlog.1 ▸ h.handled_mem, by rw [hlog.1, hlog.2.1, h.largest], ?_⟩
    refine h.phase.imp (fun hnil => by rw [hlog.1, hlog.2.2]; exact hnil) fun hstarted => ?_
    obtain rfl := Except.ok.inj ((handlePrint_eq hstarted.ring).symm.trans hprint)
    exact hstarted.printed

/-- What every step keeps, given the invariant before and after it. -/
theorem isolates_of_sinceChange {action : Action α} (h : SinceChange bsize packets s)
    (h' : SinceChange bsize packets s') (hs : s.step action = .ok s') : Isolates s action s' := by
  refine ⟨h'.largest, ?_, ?_, fun hne => ?_⟩
  · rintro packet rfl hhand hold
    have hopen : s.openSession packet = s := by
      rcases openSession_cases s packet with
        ⟨_, e⟩ | ⟨hle, _⟩ | ⟨hnew, _⟩ | ⟨heq, _⟩ | ⟨heq, _⟩
      · exact e
      all_goals omega
    simp only [step, hhand, hopen] at hs
    obtain rfl := Except.ok.inj hs
    exact ⟨rfl, rfl, rfl, rfl⟩
  · rintro packet rfl hhand hnew
    have hopen : s.openSession packet = s.restarted packet := by
      rcases openSession_cases s packet with
        ⟨hold, _⟩ | ⟨_, hbig, _⟩ | ⟨_, _, e⟩ | ⟨heq, _⟩ | ⟨heq, _⟩
      · omega
      · exact absurd (h.reached.psize_le hhand) (Nat.not_le.mpr hbig)
      · exact e
      all_goals omega
    simp only [step, hhand, hopen] at hs
    obtain rfl := Except.ok.inj hs
    refine ⟨fun i hi => ?_, rfl, rfl, rfl, rfl⟩
    exact ⟨occupied_resetAt s.buffer _ _ hi, data_resetAt s.buffer _ _ hi⟩
  · exact (h'.phase.resolve_left fun hphase => hne hphase.1).provenance

end Step

/-- Sessions are isolated in every step after a station change, from any state that the
workers can have reached before it. -/
theorem sessions_isolated (bsize : Nat) {buffer : CircularBuffer α}
    (hnew : CircularBuffer.new bsize = some buffer) (before after : List (Action α))
    {s : Playback α} (hbefore : run (init buffer) before = .ok s) (hhand : s.inHand = none)
    (hsized : Sized bsize (received after)) (hchange : .changeStation ∉ after) :
    EveryStep step Isolates s.changeStation after := by
  obtain ⟨hreached, hcap⟩ := reached_run hnew hbefore
  have hmax : bsize ≤ ptrdiffMax := (new_fields hnew).2.1 ▸ (new_fields hnew).2.2
  have hstart : SinceChange bsize (received after) s.changeStation :=
    sinceChange_changeStation hreached hcap hhand
  have hactions : ∀ action ∈ after,
      action ≠ .changeStation ∧ ∀ p, action = .receive p → p ∈ received after := by
    intro action hmem
    refine ⟨fun e => hchange (e ▸ hmem), ?_⟩
    rintro p rfl
    exact List.mem_filterMap.mpr ⟨_, hmem, rfl⟩
  exact everyStep_of_guarded
    (fun s action s' hs hg hstep => sinceChange_step hsized hmax hs hg.1 hg.2 hstep)
    (fun s action s' hs hg hstep => isolates_of_sinceChange hs
      (sinceChange_step hsized hmax hs hg.1 hg.2 hstep) hstep)
    hstart (Guarded.of_forall hactions)

/-- Two sessions in a row after a change, the second with a larger id. -/
theorem sessions_isolated_restart :
    ∃ buffer, CircularBuffer.new 4 = some buffer ∧
      EveryStep step Isolates (init buffer).changeStation
        (arrival (AudioPacket.oneByte 7 0) ++ arrival (AudioPacket.oneByte 9 5)) :=
  ⟨_, rfl, sessions_isolated 4 rfl [] _ rfl rfl
    ⟨by decide, by decide, by decide, by decide⟩ (by simp [arrival])⟩

end SikRadio.Receiver.Playback
