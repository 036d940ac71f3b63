import SikRadio.Receiver.LossBurst
import SikRadio.Receiver.PlaybackOrder
import SikRadio.Receiver.PlaybackStart

/-!
# Playback without gaps

When the packets of a session arrive in order and none of them is lost, the
receiver plays one after the other from the first that it got, as long as the
printer keeps up. How far it may lag behind follows from the sizes: the window
holds one packet fewer than fit, and all but one of the packets that start the
playback stay buffered behind the jobs.

## Implementation notes

The positions of the stream stay below `2 ^ 63`, so that the threshold of the
playback does not wrap around.
-/

namespace SikRadio.Receiver.Playback

open SikRadio.Common SikRadio.Common.CircularBuffer
open Foundations Foundations.CheckedRuns Foundations.MemoryCells Foundations.RingOffsets
  Foundations.Word64

variable {α : Type}

/-- How many packets in a row start a playback. -/
def startup (bsize m : Nat) : Nat := bsize / 4 * 3 / m + 1

/-- The packets handled are those of the stream, one after the other. -/
def ArrivesInOrder (sent : List (AudioPacket α)) (s : Playback α) : Action α → Prop
  | .receive packet => s.inHand = none → sent[(handledSince s.log).length]? = some packet
  | .changeStation => False
  | _ => True

/-- No job is queued when so many are pending that the window has no room for the packet. -/
def KeepsUp (bsize m : Nat) (s : Playback α) : Action α → Prop
  | .put => ∀ packet ∈ s.inHand, s.Prints packet → s.pendingJobs + startup bsize m < bsize / m
  | _ => True

/-- What was written so far, each chunk with its position. -/
def chunks (log : List (Observation α)) : List (Nat × List α) :=
  log.filterMap fun
    | .written position _ _ chunk => some (position, chunk)
    | _ => none

/-- What is written when a packet is played. -/
def entry (packet : AudioPacket α) : Nat × List α := (packet.firstByteNum, packet.audioData)

/-- Packet after packet of the stream was written, and the next one is at the tail. -/
structure Gapless (first m : Nat) (sent : List (AudioPacket α)) (s : Playback α) : Prop where
  played : chunks s.log <+: sent.map entry
  next : s.curSession ≠ noSession → s.buffer.absTail = first + (chunks s.log).length * m

instance [DecidableEq α] : DecidableEq (AudioPacket α) := fun p q =>
  decidable_of_iff (p.sessionId = q.sessionId ∧ p.firstByteNum = q.firstByteNum ∧
    p.audioData = q.audioData) (by cases p; cases q; simp)

instance [DecidableEq α] (sent : List (AudioPacket α)) (s : Playback α) :
    (action : Action α) → Decidable (ArrivesInOrder sent s action)
  | .receive _ => inferInstanceAs (Decidable (s.inHand = none → _ = _))
  | .changeStation => isFalse id
  | .put | .popEvent | .print => isTrue trivial

instance (bsize m : Nat) (s : Playback α) :
    (action : Action α) → Decidable (KeepsUp bsize m s action)
  | .put => inferInstanceAs (Decidable (∀ packet ∈ s.inHand, s.Prints packet → _ < _))
  | .receive _ | .changeStation | .popEvent | .print => isTrue trivial

section Log

variable {log : List (Observation α)} {packet : AudioPacket α}

@[simp] theorem chunks_handled : chunks (log ++ [.handled packet]) = chunks log := by
  simp [chunks]

@[simp] theorem chunks_kept : chunks (log ++ [.kept packet]) = chunks log := by
  simp [chunks]

@[simp] theorem chunks_written {p b0 ah : Nat} {chunk : List α} :
    chunks (log ++ [.written p b0 ah chunk]) = chunks log ++ [(p, chunk)] := by
  simp [chunks]

end Log

theorem IsStream.of_getElem? {first m sid n : Nat} {sent : List (AudioPacket α)}
    {packet : AudioPacket α} (h : IsStream first m sid sent) (hnext : sent[n]? = some packet) :
    packet.sessionId = sid ∧ packet.psize = m ∧ packet.firstByteNum = first + n * m := by
  obtain ⟨hn, rfl⟩ := List.getElem?_eq_some_iff.mp hnext
  exact h n hn

/-- A packet of the stream ends inside it. -/
theorem end_le_of_getElem? {sent : List (AudioPacket α)} {n : Nat} {packet : AudioPacket α}
    (hnext : sent[n]? = some packet) (first m : Nat) :
    first + (n + 1) * m ≤ first + sent.length * m := by
  have hn : n + 1 ≤ sent.length := (List.getElem?_eq_some_iff.mp hnext).1
  exact Nat.add_le_add_left (Nat.mul_le_mul_right m hn) first

/-- One packet more is played. -/
theorem map_entry_take_succ {sent : List (AudioPacket α)} {c : Nat} {packet : AudioPacket α}
    (h : sent[c]? = some packet) :
    (sent.take (c + 1)).map entry = (sent.take c).map entry ++ [entry packet] := by
  rw [List.take_add_one, h, List.map_append]
  rfl

variable [Zero α]

/-- The invariant of a session without losses: of the stream `n` packets are put and `c` are
played. -/
structure Flowing (bsize first m sid n c : Nat) (sent : List (AudioPacket α))
    (w : StreamWindow α) (s : Playback α) : Prop where
  represents : Represents s.buffer w
  psize_eq : s.buffer.psize = m
  capacity_eq : s.buffer.capacity = bsize
  session_eq : s.curSession = sid
  byte0_eq : s.buffer.byte0 = first
  lo_eq : w.lo = first + c * m
  hi_eq : w.hi = first + n * m
  inHand : ∀ packet, s.inHand = some packet → sent[n]? = some packet
  handled_eq : (handledSince s.log).length = n + s.inHand.toList.length
  held_eq : ∀ i, c ≤ i → i < n → ∃ packet, sent[i]? = some packet ∧
    w.held (first + i * m) = some packet.audioData
  chunks_eq : chunks s.log = (sent.take c).map entry
  length_eq : (chunks s.log).length = c
  printed_iff : s.hasPrinted = true ↔ startup bsize m ≤ n
  jobs_eq : s.pendingJobs + c = n + 1 - startup bsize m

namespace Flowing

variable {bsize first m sid n c : Nat} {sent : List (AudioPacket α)} {w : StreamWindow α}
  {s : Playback α} {packet : AudioPacket α} (h : Flowing bsize first m sid n c sent w s)

include h

theorem pos : 0 < m := h.psize_eq ▸ h.represents.ring.psize_pos

theorem le : c ≤ n := by
  have hle := w.lo_le
  rw [h.lo_eq, h.hi_eq] at hle
  exact Nat.le_of_mul_le_mul_right (by omega) h.pos

theorem range_eq : s.buffer.range = (n - c) * m := by
  have hlength := h.represents.length_eq
  rw [h.lo_eq, h.hi_eq] at hlength
  rw [Nat.sub_mul]
  omega

theorem gapless : Gapless first m sent s where
  played := by
    rw [h.chunks_eq]
    exact (List.take_prefix c sent).map entry
  next _ := by rw [h.represents.absTail_eq, h.lo_eq, h.length_eq]

omit [Zero α] h in
theorem startup_le_iff (hm : 0 < m) : startup bsize m ≤ n + 1 ↔ bsize / 4 * 3 < (n + 1) * m := by
  unfold startup
  rw [Nat.add_le_add_iff_right, ← Nat.lt_succ_iff, Nat.div_lt_iff_lt_mul hm]

/-- The packet in hand is put with a job when it is the one that starts the playback, or later. -/
theorem prints_iff (hmax : bsize ≤ ptrdiffMax) (hfbn : packet.firstByteNum = first + n * m)
    (hword : first + (n + 1) * m ≤ 2 ^ 63) : s.Prints packet ↔ startup bsize m ≤ n + 1 := by
  have hpos := h.pos
  have hsum : first + n * m + m = first + (n + 1) * m := by ring
  have hbig : bsize / 4 * 3 ≤ bsize := by omega
  unfold ptrdiffMax at hmax
  unfold Prints printingThreshold
  rw [h.printed_iff, h.byte0_eq, h.capacity_eq, h.psize_eq, hfbn, wadd_of_lt (by omega),
    wadd_of_lt (by omega), wsub_of_le (by omega) (by omega)]
  constructor
  · rintro (hstarted | hreached)
    · omega
    · exact (startup_le_iff hpos).mpr (by omega)
  · intro hle
    right
    have := (startup_le_iff hpos).mp hle
    omega

/-! ## Steps -/

/-- The next packet of the stream is received. -/
theorem receive (hhand : s.inHand = none) (hnext : sent[n]? = some packet)
    (hid : packet.sessionId = sid) (hfbn : packet.firstByteNum = first + n * m) :
    Flowing bsize first m sid n c sent w
      { s.openSession packet with log := s.log ++ [.handled packet] } := by
  have hfit := h.represents.ring.psize_le
  have hbyte0 := h.byte0_eq
  have hsession := h.session_eq
  have hopen : s.openSession packet = { s with inHand := some packet } := by
    rcases openSession_cases s packet with
      ⟨hold, -⟩ | ⟨-, hbig, -⟩ | ⟨hnew, -⟩ | ⟨-, -, hbefore, -⟩ | ⟨-, -, -, e⟩
    · omega
    · omega
    · omega
    · omega
    · exact e
  have hhandled := h.handled_eq
  rw [hhand] at hhandled
  rw [hopen]
  exact { h with
    inHand := fun p hp => Option.some.inj hp ▸ hnext
    handled_eq := by simpa using hhandled
    chunks_eq := by simpa using h.chunks_eq
    length_eq := by simpa using h.length_eq }

section Put

variable (hhand : s.inHand = some packet) (hlen : packet.psize = m)
  (hfbn : packet.firstByteNum = first + n * m) (hword : first + (n + 1) * m ≤ 2 ^ 63)

include hlen hfbn hword

/-- The packet is put right behind the window. -/
theorem tryPut_eq : s.buffer.tryPut packet = .ok (s.buffer.pushed packet) ∧
    ∃ hahead : w.hi ≤ packet.firstByteNum, Represents (s.buffer.pushed packet)
      (w.push m (bsize / m * m - m) packet.firstByteNum packet.audioData hahead) := by
  have hrep := h.represents
  have hpsize := h.psize_eq
  have hcap := h.capacity_eq
  have hsum : first + n * m + m = first + (n + 1) * m := by ring
  have hahead : w.hi ≤ packet.firstByteNum := by rw [h.hi_eq, hfbn]
  have hhead : s.buffer.headOffset packet = 0 := by
    rw [headOffset_eq (hrep.hi_eq ▸ hahead), hrep.hi_eq, h.hi_eq, hfbn, Nat.sub_self]
  have halign : packet.firstByteNum ≡ w.lo [MOD s.buffer.psize] := by
    rw [hfbn, ← h.hi_eq]
    exact hrep.lo_modEq_hi.symm
  have htake : packet.audioData.take s.buffer.psize = packet.audioData :=
    List.take_of_length_le (le_of_eq (hlen.trans hpsize.symm))
  have hpushed := hrep.pushed hahead (hhead ▸ dvd_zero _) (by omega) (by omega) (by omega)
  rw [htake, roundedCap, hpsize, hcap] at hpushed
  exact ⟨hrep.tryPut_of_ahead halign hahead (by omega) (by omega), hahead, hpushed⟩

include hhand in
/-- With room in the window the put only adds the packet. -/
theorem put (hnext : sent[n]? = some packet) (hmax : bsize ≤ ptrdiffMax)
    (hroom : n + 1 - c < bsize / m) :
    ∃ s', s.putPacket packet = .ok s' ∧ ∃ w', Flowing bsize first m sid (n + 1) c sent w' s' := by
  obtain ⟨htry, hahead, hrep⟩ := h.tryPut_eq hlen hfbn hword
  refine ⟨_, putPacket_eq_ok_iff.mpr ⟨_, htry, rfl⟩,
    w.push m (bsize / m * m - m) packet.firstByteNum packet.audioData hahead, ?_⟩
  have hle := h.le
  have hpos := h.pos
  have hlog : handledSince (s.afterPut packet (s.buffer.pushed packet)).log = handledSince s.log ∧
      chunks (s.afterPut packet (s.buffer.pushed packet)).log = chunks s.log := by
    rw [afterPut_log]
    split <;> simp
  have hend : first + n * m + m = first + (n + 1) * m := by ring
  have hprints := h.prints_iff hmax hfbn hword
  have hjobs := h.jobs_eq
  refine ⟨by simpa using hrep, by simpa using h.psize_eq, by simpa using h.capacity_eq,
    by simpa using h.session_eq, by simpa using h.byte0_eq, ?_, ?_, by simp, ?_,
    fun i hi hlt => ?_, hlog.2 ▸ h.chunks_eq, hlog.2 ▸ h.length_eq, ?_, ?_⟩
  · have hfit : (n + 1 - c) * m + m ≤ bsize / m * m := by
      rw [← Nat.succ_mul]
      exact Nat.mul_le_mul_right m hroom
    have hsplit : (n + 1) * m = (n + 1 - c) * m + c * m := by
      rw [← Nat.add_mul, Nat.sub_add_cancel (by omega)]
    rw [StreamWindow.lo_push, h.lo_eq]
    omega
  · change packet.firstByteNum + m = _
    omega
  · rw [hlog.1, h.handled_eq, hhand]
    simp
  · rcases Nat.lt_or_ge i n with hold | hnew
    · obtain ⟨p, hp, hheld⟩ := h.held_eq i hi hold
      refine ⟨p, hp, ?_⟩
      rw [StreamWindow.held_push_of_lt hahead, hheld]
      rw [h.hi_eq, Nat.add_lt_add_iff_left]
      exact Nat.mul_lt_mul_of_pos_right hold hpos
    · obtain rfl : i = n := by omega
      refine ⟨packet, hnext, ?_⟩
      rw [← hfbn, StreamWindow.held_push_self]
  · rw [afterPut_hasPrinted (pushed_psize _ _) (pushed_capacity _ _) (pushed_byte0 _ _), hprints]
  · rw [afterPut_pendingJobs (pushed_psize _ _) (pushed_capacity _ _) (pushed_byte0 _ _)]
    split
    case isTrue hp =>
      have := hprints.mp hp
      omega
    case isFalse hp =>
      have := mt hprints.mpr hp
      omega

/-- Without room the put drives out a packet that was never played. -/
theorem not_gapless_put (hroom : bsize / m ≤ n + 1 - c) {s' : Playback α}
    (hput : s.putPacket packet = .ok s') (hsid : sid ≠ noSession) :
    ¬Gapless first m sent s' := by
  obtain ⟨htry, hahead, hrep⟩ := h.tryPut_eq hlen hfbn hword
  obtain ⟨buffer, htry', rfl⟩ := putPacket_eq_ok_iff.mp hput
  obtain rfl := Except.ok.inj (htry.symm.trans htry')
  intro hgapless
  have hnext := hgapless.next (by simpa [h.session_eq] using hsid)
  have hchunks : chunks (s.afterPut packet (s.buffer.pushed packet)).log = chunks s.log := by
    rw [afterPut_log]
    split <;> simp
  rw [afterPut_buffer, hrep.absTail_eq, StreamWindow.lo_push, hchunks, h.length_eq, h.lo_eq]
    at hnext
  have hle := h.le
  have hpos := h.pos
  have hfit : bsize / m * m ≤ (n + 1 - c) * m := Nat.mul_le_mul_right m hroom
  have hsplit : (n + 1) * m = (n + 1 - c) * m + c * m := by
    rw [← Nat.add_mul, Nat.sub_add_cancel (by omega)]
  have hend : first + n * m + m = first + (n + 1) * m := by ring
  have hone : m ≤ bsize / m * m := by
    have h2 := h.represents.two_fit
    rw [h.psize_eq, h.capacity_eq] at h2
    exact le_div_mul hpos (by omega)
  omega

end Put

/-- A job plays the next packet. -/
theorem print (hstream : IsStream first m sid sent) (hprinting : s.printing = true) :
    ∃ s', s.handlePrint = .ok s' ∧
      ∃ w', Flowing bsize first m sid n (c + 1) sent w' s' := by
  have hrep := h.represents
  have hpos := h.pos
  have hpsize := h.psize_eq
  have hpending := pendingJobs_printed hprinting
  have hjobs := h.jobs_eq
  have hlt : c < n := by
    unfold startup at hjobs
    generalize bsize / 4 * 3 / m = q at hjobs
    omega
  have hrange : s.buffer.psize ≤ s.buffer.range := by
    rw [h.range_eq, hpsize]
    exact Nat.le_mul_of_pos_left m (by omega)
  have hplay : w.lo + s.buffer.psize ≤ w.hi := by
    have := hrep.length_eq
    omega
  obtain ⟨packet, hnext, hheld⟩ := h.held_eq c (le_refl c) hlt
  have hchunk : slice s.buffer.data s.buffer.tail s.buffer.psize = packet.audioData := by
    rw [hrep.slice_tail hrange, StreamWindow.chunk, h.lo_eq, hheld]
    rfl
  obtain ⟨-, -, hfbn⟩ := hstream.of_getElem? hnext
  have hchunks : chunks s.printed.log = chunks s.log ++ [entry packet] := by
    rw [printed_log, chunks_written, hchunk, hrep.absTail_eq, h.lo_eq, entry, hfbn]
  refine ⟨_, handlePrint_eq hrep.ring, w.play s.buffer.psize hplay, ?_⟩
  refine ⟨hrep.dumped hrange hplay, by simpa using hpsize, by simpa using h.capacity_eq,
    h.session_eq, by simpa using h.byte0_eq, ?_, h.hi_eq, h.inHand, ?_, fun i hi hlt => ?_, ?_, ?_,
    h.printed_iff, ?_⟩
  · change w.lo + s.buffer.psize = _
    rw [h.lo_eq, hpsize]
    ring
  · rw [printed_log, handledSince_written]
    exact h.handled_eq
  · exact h.held_eq i (by omega) hlt
  · rw [hchunks, h.chunks_eq, map_entry_take_succ hnext]
  · rw [hchunks, List.length_append, h.length_eq]
    rfl
  · omega

end Flowing

/-! ## Runs -/

section Run

variable {bsize first m sid : Nat} {sent : List (AudioPacket α)} {buffer : CircularBuffer α}
  {s : Playback α} {packet : AudioPacket α}

/-- The first packet of the stream restarts the buffer. -/
theorem flowing_of_first (hm : 0 < m) (h2 : 2 * m ≤ bsize) (hsid : sid ≠ noSession)
    (hnew : CircularBuffer.new bsize = some buffer) (hstream : IsStream first m sid sent)
    (hnext : sent[0]? = some packet) :
    Flowing bsize first m sid 0 0 sent (StreamWindow.start packet.firstByteNum)
      { (init buffer).openSession packet with log := [.handled packet] } := by
  obtain ⟨hpsize, hcap, -⟩ := new_fields hnew
  obtain ⟨hid, hlen, hfbn⟩ := hstream.of_getElem? hnext
  rw [Nat.zero_mul, Nat.add_zero] at hfbn
  have hopen : (init buffer).openSession packet = (init buffer).restarted packet := by
    rcases openSession_cases (init buffer) packet with
      ⟨hold, -⟩ | ⟨-, hbig, -⟩ | ⟨-, -, e⟩ | ⟨heq, -⟩ | ⟨heq, -⟩
    · exact absurd hold (Nat.not_lt_zero _)
    · simp only [init, hpsize] at hbig
      omega
    · exact e
    · exact absurd (hid.symm.trans heq) hsid
    · exact absurd (hid.symm.trans heq) hsid
  rw [hopen]
  refine ⟨represents_resetAt buffer (hlen ▸ hm) (by rw [hlen, hcap]; exact h2)
    packet.firstByteNum_lt, hlen, hcap, hid, hfbn, ?_, ?_, fun p hp => ?_, rfl,
    fun i _ hlt => absurd hlt (Nat.not_lt_zero i), rfl, rfl, ?_, ?_⟩
  · rw [Nat.zero_mul, Nat.add_zero]
    exact hfbn
  · rw [Nat.zero_mul, Nat.add_zero]
    exact hfbn
  · exact Option.some.inj hp ▸ hnext
  · exact iff_of_false Bool.false_ne_true (Nat.not_succ_le_zero _)
  · simp [pendingJobs, restarted, init, startup]

/-- Before its first packet the session is in the initial state, then it flows. -/
def Steady (bsize first m sid : Nat) (sent : List (AudioPacket α)) (buffer : CircularBuffer α)
    (s : Playback α) : Prop :=
  s = init buffer ∨ ∃ n c w, Flowing bsize first m sid n c sent w s

theorem Steady.gapless (h : Steady bsize first m sid sent buffer s) : Gapless first m sent s := by
  rcases h with rfl | ⟨n, c, w, hflow⟩
  · exact ⟨List.nil_prefix, fun hsession => absurd rfl hsession⟩
  · exact hflow.gapless

section Step

variable (hstart : startup bsize m < bsize / m) (hsid : sid ≠ noSession)
  (hnew : CircularBuffer.new bsize = some buffer) (hstream : IsStream first m sid sent)
  (hword : first + sent.length * m ≤ 2 ^ 63) {action : Action α}
  (hs : Steady bsize first m sid sent buffer s) (horder : ArrivesInOrder sent s action)

include hstart hsid hnew hstream hword hs horder

theorem steady_step (hkeeps : KeepsUp bsize m s action) :
    ∃ s', s.step action = .ok s' ∧ Steady bsize first m sid sent buffer s' := by
  have hm : 0 < m := Nat.pos_of_ne_zero fun h0 => by simp [h0] at hstart
  have h2 : 2 * m ≤ bsize := by
    have hone : 1 ≤ startup bsize m := Nat.succ_le_succ (Nat.zero_le _)
    have htwo : 2 ≤ bsize / m := by omega
    exact (Nat.le_div_iff_mul_le hm).mp htwo
  obtain ⟨-, hcap, hmax⟩ := new_fields hnew
  rcases hs with rfl | ⟨n, c, w, hflow⟩
  · cases action with
    | receive packet => exact ⟨_, rfl, .inr ⟨0, 0, _,
        flowing_of_first hm h2 hsid hnew hstream (horder rfl)⟩⟩
    | changeStation => exact horder.elim
    | put => exact ⟨_, rfl, .inl rfl⟩
    | popEvent => exact ⟨_, rfl, .inl rfl⟩
    | print => exact ⟨_, rfl, .inl rfl⟩
  · apply exists_step (.inr ⟨n, c, w, hflow⟩)
    · rintro packet rfl hhand
      have hnext : sent[n]? = some packet := by
        have := horder hhand
        rwa [hflow.handled_eq, hhand] at this
      obtain ⟨hid, -, hfbn⟩ := hstream.of_getElem? hnext
      exact .inr ⟨n, c, w, hflow.receive hhand hnext hid hfbn⟩
    · rintro packet rfl hhand
      have hnext := hflow.inHand packet hhand
      obtain ⟨-, hlen, hfbn⟩ := hstream.of_getElem? hnext
      have hend := (end_le_of_getElem? hnext first m).trans hword
      have hroom : n + 1 - c < bsize / m := by
        have hjobs := hflow.jobs_eq
        have hprints := hflow.prints_iff (hcap ▸ hmax) hfbn hend
        by_cases hp : s.Prints packet
        · have hlag := hkeeps packet hhand hp
          have := hprints.mp hp
          omega
        · have := mt hprints.mpr hp
          omega
      obtain ⟨s', hput, w', hflow'⟩ := hflow.put hhand hlen hfbn hend hnext (hcap ▸ hmax) hroom
      exact ⟨s', hput, .inr ⟨_, _, w', hflow'⟩⟩
    · rintro rfl
      exact horder.elim
    · intro event rest hprinting hqueue
      have hpending := pendingJobs_popEvent hprinting hqueue
      exact .inr ⟨n, c, w, { hflow with jobs_eq := hpending ▸ hflow.jobs_eq }⟩
    · rintro rfl hprinting
      obtain ⟨s', hprint, w', hflow'⟩ := hflow.print hstream hprinting
      exact ⟨s', hprint, .inr ⟨_, _, w', hflow'⟩⟩

/-- A step after which nothing is skipped was taken by a printer that keeps up. -/
theorem keepsUp_of_gapless {s' : Playback α} (hstep : s.step action = .ok s')
    (hgapless : Gapless first m sent s') : KeepsUp bsize m s action := by
  cases action with
  | put =>
      intro packet hhand hp
      obtain ⟨-, hcap, hmax⟩ := new_fields hnew
      rcases hs with rfl | ⟨n, c, w, hflow⟩
      · cases hhand
      · have hnext := hflow.inHand packet hhand
        obtain ⟨-, hlen, hfbn⟩ := hstream.of_getElem? hnext
        have hend := (end_le_of_getElem? hnext first m).trans hword
        have hjobs := hflow.jobs_eq
        have hprints := (hflow.prints_iff (hcap ▸ hmax) hfbn hend).mp hp
        by_contra hlag
        simp only [step, Option.mem_def.mp hhand] at hstep
        exact hflow.not_gapless_put hlen hfbn hend (by omega) hstep hsid hgapless
  | receive packet => trivial
  | changeStation => trivial
  | popEvent => trivial
  | print => trivial

end Step

/-- Without losses on the way, no packet of the session is skipped exactly when the printer never
lags behind by more packets than the window has room for. -/
theorem gapless_iff_keepsUp (bsize : Nat) (hstart : startup bsize m < bsize / m)
    (hsid : sid ≠ noSession) (hnew : CircularBuffer.new bsize = some buffer)
    (hstream : IsStream first m sid sent) (hword : first + sent.length * m ≤ 2 ^ 63)
    {actions : List (Action α)} (horder : Guarded step (ArrivesInOrder sent) (init buffer) actions) :
    AfterEach step (fun s _ => Gapless first m sent s) (init buffer) actions ↔
      Guarded step (KeepsUp bsize m) (init buffer) actions := by
  apply afterEach_iff_guarded (I := Steady bsize first m sid sent buffer) _ _ (.inl rfl) horder
  · intro s action hs horder hkeeps
    obtain ⟨s', hstep, hs'⟩ :=
      steady_step hstart hsid hnew hstream hword hs horder hkeeps
    exact ⟨s', hstep, hs', hs'.gapless⟩
  · intro s action s' hs horder hstep hgapless
    exact keepsUp_of_gapless hstart hsid hnew hstream hword hs horder hstep hgapless

end Run

section Example

/-- Three packets in a buffer of three bytes, two of them before the first is played. -/
def promptRun : List (Action UInt8) :=
  arrival (AudioPacket.oneByte 7 0) ++ arrival (AudioPacket.oneByte 7 1) ++
    [.popEvent, .print] ++ arrival (AudioPacket.oneByte 7 2) ++ [.popEvent, .print]

theorem gapless_iff_keepsUp_three :
    ∃ buffer, CircularBuffer.new 3 = some buffer ∧
      AfterEach step (fun s _ => Gapless 0 1 fourPackets s) (init buffer) promptRun :=
  ⟨_, rfl, (gapless_iff_keepsUp 3 (by decide) (by decide) rfl isStream_fourPackets (by decide)
    (by decide)).mpr (by decide)⟩

end Example

end SikRadio.Receiver.Playback
