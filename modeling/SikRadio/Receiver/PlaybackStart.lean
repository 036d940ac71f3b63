import SikRadio.Receiver.Sessions

/-!
# The start of a playback

A playback is to start with the first byte that is `⌊3 * bsize / 4⌋` or more
after its first one. The code multiplies the quotient, so its threshold is lower
by one or two for sizes that leave a remainder of two or three, and a packet
that ends between the two thresholds starts the playback too early.

## Implementation notes

The playback is followed over the packets handled and the station changes alone.
An ignored packet is none of its packets.
-/

namespace SikRadio.Receiver.Playback

open SikRadio.Common SikRadio.Common.CircularBuffer
open Foundations Foundations.CheckedRuns Foundations.Word64

variable {α : Type}

/-- A playback with its packets so far. -/
structure SoFar (α : Type) where
  session : Nat
  byte0 : Nat
  packets : List (AudioPacket α)

/-- The packet belongs to an old session or lies before the start. -/
def SoFar.Ignores (p : SoFar α) (packet : AudioPacket α) : Prop :=
  packet.sessionId < p.session ∨
    (packet.sessionId = p.session ∧ packet.firstByteNum < p.byte0)

instance (p : SoFar α) (packet : AudioPacket α) : Decidable (p.Ignores packet) :=
  inferInstanceAs (Decidable (_ ∨ _))

/-- A newer session restarts the playback, and a station change forgets the session. -/
def SoFar.follow (p : SoFar α) : Observation α → SoFar α
  | .handled packet =>
      if p.Ignores packet then p
      else if p.session < packet.sessionId then
        { session := packet.sessionId, byte0 := packet.firstByteNum, packets := [packet] }
      else { p with packets := p.packets ++ [packet] }
  | .stationChanged => { p with session := noSession }
  | _ => p

/-- The playback that a log has led to. -/
def soFar (log : List (Observation α)) : SoFar α :=
  log.foldl SoFar.follow { session := noSession, byte0 := 0, packets := [] }

/-- Some packet contains a byte at `position` or later. -/
def ReachedBy (packets : List (AudioPacket α)) (position : Nat) : Prop :=
  ∃ packet ∈ packets, ∃ p, packet.firstByteNum ≤ p ∧
    p < packet.firstByteNum + packet.psize ∧ position ≤ p

/-- The packets reach the code's threshold and not the right one. -/
def BetweenThresholds (bsize : Nat) (p : SoFar α) : Prop :=
  ReachedBy p.packets (p.byte0 + bsize / 4 * 3) ∧ ¬ReachedBy p.packets (p.byte0 + 3 * bsize / 4)

/-- The packets handled since the last change of the station, with the one that comes now, are
real packets of one size in each session. -/
def SizedSince (bsize : Nat) (s : Playback α) (action : Action α) : Prop :=
  Sized bsize (handledSince s.log ++ received [action])

instance (bsize : Nat) (s : Playback α) (action : Action α) :
    Decidable (SizedSince bsize s action) :=
  inferInstanceAs (Decidable (Sized _ _))

/-- What the start of a playback promises about one step. -/
structure StartsAtThreshold (bsize : Nat) (s : Playback α) (action : Action α)
    (s' : Playback α) : Prop where
  taken_iff : ∀ packet, action = .receive packet → s.inHand = none →
    (s'.inHand = some packet ↔ ¬(soFar s.log).Ignores packet)
  last : ∀ packet, s.inHand = some packet → (soFar s.log).packets.getLast? = some packet
  pushed : action = .put → s.inHand ≠ none →
    ReachedBy (soFar s.log).packets ((soFar s.log).byte0 + 3 * bsize / 4) →
      s'.printerQueue = s.printerQueue ++ [.newJobs]
  not_pushed : ¬(action = .put ∧ s.inHand ≠ none ∧
    ReachedBy (soFar s.log).packets ((soFar s.log).byte0 + 3 * bsize / 4)) →
      s'.printerQueue <:+ s.printerQueue

section Log

variable {log : List (Observation α)} {packet : AudioPacket α} {packets : List (AudioPacket α)}
  {position : Nat}

theorem soFar_concat {observation : Observation α} :
    soFar (log ++ [observation]) = (soFar log).follow observation := by
  rw [soFar, List.foldl_append]
  rfl

@[simp] theorem soFar_kept : soFar (log ++ [.kept packet]) = soFar log := soFar_concat

@[simp] theorem soFar_written {p b0 ah : Nat} {chunk : List α} :
    soFar (log ++ [.written p b0 ah chunk]) = soFar log := soFar_concat

theorem reachedBy_concat_iff :
    ReachedBy (packets ++ [packet]) position ↔
      ReachedBy packets position ∨
        (0 < packet.psize ∧ position < packet.firstByteNum + packet.psize) := by
  unfold ReachedBy
  constructor
  · rintro ⟨q, hq, p, hlo, hhi, hp⟩
    rcases List.mem_append.mp hq with hq | hq
    · exact .inl ⟨q, hq, p, hlo, hhi, hp⟩
    · obtain rfl := List.mem_singleton.mp hq
      exact .inr ⟨by omega, by omega⟩
  · rintro (⟨q, hq, hreach⟩ | ⟨hpos, hlt⟩)
    · exact ⟨q, List.mem_append_left _ hq, hreach⟩
    · refine ⟨packet, List.mem_append_right _ (List.mem_singleton_self packet),
        packet.firstByteNum + packet.psize - 1, by omega, by omega, by omega⟩

theorem ReachedBy.mono {position' : Nat} (h : ReachedBy packets position)
    (hle : position' ≤ position) : ReachedBy packets position' := by
  obtain ⟨q, hq, p, hlo, hhi, hp⟩ := h
  exact ⟨q, hq, p, hlo, hhi, hle.trans hp⟩

end Log

/-! ## The invariant -/

/-- The state agrees with the playback so far. -/
structure Followed (p : SoFar α) (s : Playback α) : Prop where
  byte0_eq : p.byte0 = s.buffer.byte0
  byte0_lt : s.buffer.byte0 < 2 ^ 63
  sizes : ∀ packet ∈ p.packets, packet.psize = s.buffer.psize ∧ packet.firstByteNum < 2 ^ 63
  printed : ∃ before, p.packets = before ++ s.inHand.toList ∧
    (s.hasPrinted = true ↔ ReachedBy before (s.buffer.byte0 + s.buffer.capacity / 4 * 3))

/-- The state of a run, `packets` being those that it receives. -/
structure Tracks [Zero α] (bsize : Nat) (packets : List (AudioPacket α)) (s : Playback α) :
    Prop where
  since : SinceChange bsize packets s
  session_eq : (soFar s.log).session = s.curSession
  followed : handledSince s.log ≠ [] → Followed (soFar s.log) s

theorem Tracks.of_mem [Zero α] {bsize : Nat} {packets packets' : List (AudioPacket α)}
    {s : Playback α} (h : Tracks bsize packets s)
    (hmem : ∀ packet ∈ handledSince s.log, packet ∈ packets') : Tracks bsize packets' s :=
  { h with since := h.since.of_mem hmem }

section Followed

variable {bsize : Nat} {p : SoFar α} {s s' : Playback α} {packet : AudioPacket α}

/-- A step that leaves buffer sizes, hand and latch alone. -/
theorem Followed.of_eq (h : Followed p s) (hbyte0 : s'.buffer.byte0 = s.buffer.byte0)
    (hpsize : s'.buffer.psize = s.buffer.psize) (hcap : s'.buffer.capacity = s.buffer.capacity)
    (hhand : s'.inHand = s.inHand) (hprinted : s'.hasPrinted = s.hasPrinted) :
    Followed p s' where
  byte0_eq := h.byte0_eq.trans hbyte0.symm
  byte0_lt := hbyte0 ▸ h.byte0_lt
  sizes := hpsize ▸ h.sizes
  printed := by
    rw [hhand, hprinted, hbyte0, hcap]
    exact h.printed

/-- A packet of the playback is taken. -/
theorem Followed.taken (h : Followed p s) (hhand : s.inHand = none)
    (hsize : packet.psize = s.buffer.psize) (hfbn : packet.firstByteNum < 2 ^ 63) :
    Followed { p with packets := p.packets ++ [packet] } { s with inHand := some packet } := by
  obtain ⟨before, hpackets, hprinted⟩ := h.printed
  rw [hhand, Option.toList_none, List.append_nil] at hpackets
  refine ⟨h.byte0_eq, h.byte0_lt, fun q hq => ?_, before, by simp [hpackets], hprinted⟩
  rcases List.mem_append.mp hq with hq | hq
  · exact h.sizes q hq
  · rw [List.mem_singleton.mp hq]
    exact ⟨hsize, hfbn⟩

/-- A packet is put with a job exactly when the playback has reached the code's threshold. -/
theorem Followed.prints_iff (h : Followed p s) (hmax : s.buffer.capacity ≤ ptrdiffMax)
    (hring : Ring s.buffer) (hhand : s.inHand = some packet) :
    s.Prints packet ↔ ReachedBy p.packets (p.byte0 + s.buffer.capacity / 4 * 3) := by
  obtain ⟨before, hpackets, hprinted⟩ := h.printed
  rw [hhand, Option.toList_some] at hpackets
  obtain ⟨hpsize, hfbn⟩ := h.sizes packet (by rw [hpackets]; simp)
  have hpos := hring.psize_pos
  have hfits := hring.psize_le
  have hbyte0 := h.byte0_lt
  unfold ptrdiffMax at hmax
  have hthreshold : s.buffer.printingThreshold =
      s.buffer.byte0 + s.buffer.capacity / 4 * 3 := wadd_of_lt (by omega)
  have hlast : wsub (wadd packet.firstByteNum s.buffer.psize) 1 =
      packet.firstByteNum + s.buffer.psize - 1 := by
    rw [wadd_of_lt (by omega), wsub_of_le (by omega) (by omega)]
  rw [hpackets, reachedBy_concat_iff, h.byte0_eq, ← hprinted, hpsize, Prints, hthreshold, hlast]
  apply or_congr_right
  omega

/-- The latch after a put. -/
theorem afterPut_hasPrinted {buffer : CircularBuffer α} (hpsize : buffer.psize = s.buffer.psize)
    (hcap : buffer.capacity = s.buffer.capacity) (hbyte0 : buffer.byte0 = s.buffer.byte0) :
    (s.afterPut packet buffer).hasPrinted = true ↔ s.Prints packet := by
  rw [afterPut_eq hpsize hcap hbyte0]
  split
  case isTrue h => exact iff_of_true rfl h
  case isFalse h => exact iff_of_false (fun hprinted => h (.inl hprinted)) h

/-- The packet in hand is put. -/
theorem Followed.put (h : Followed p s) (hmax : s.buffer.capacity ≤ ptrdiffMax)
    (hring : Ring s.buffer) (hhand : s.inHand = some packet) {buffer : CircularBuffer α}
    (hpsize : buffer.psize = s.buffer.psize) (hcap : buffer.capacity = s.buffer.capacity)
    (hbyte0 : buffer.byte0 = s.buffer.byte0) : Followed p (s.afterPut packet buffer) := by
  have hprints := h.prints_iff hmax hring hhand
  rw [h.byte0_eq, ← afterPut_hasPrinted hpsize hcap hbyte0] at hprints
  refine ⟨?_, ?_, ?_, p.packets, ?_, ?_⟩
  · rw [afterPut_buffer, hbyte0]
    exact h.byte0_eq
  · rw [afterPut_buffer, hbyte0]
    exact h.byte0_lt
  · rw [afterPut_buffer, hpsize]
    exact h.sizes
  · rw [afterPut_inHand, Option.toList_none, List.append_nil]
  · rw [hprints, afterPut_buffer, hbyte0, hcap]

theorem soFar_afterPut {buffer : CircularBuffer α} :
    soFar (s.afterPut packet buffer).log = soFar s.log := by
  rw [afterPut_log]
  split
  · rfl
  · exact soFar_kept

end Followed

/-! ## Steps -/

section Step

variable [Zero α] {bsize : Nat} {packets : List (AudioPacket α)} {s s' : Playback α}
  {packet : AudioPacket α}

theorem followed_restarted (hfbn : packet.firstByteNum < 2 ^ 63) :
    Followed { session := packet.sessionId, byte0 := packet.firstByteNum, packets := [packet] }
      (s.restarted packet) := by
  refine ⟨rfl, hfbn, fun q hq => ?_, [], rfl, ?_⟩
  · rw [List.mem_singleton.mp hq]
    exact ⟨rfl, hfbn⟩
  · refine iff_of_false Bool.false_ne_true ?_
    rintro ⟨q, hq, -⟩
    exact List.not_mem_nil hq

/-- A packet is received, and taken unless it is to be ignored. -/
theorem Tracks.receive (h : Tracks bsize packets s) (hsized : Sized bsize packets)
    (hfbn : packet.firstByteNum < 2 ^ 63) (hmem : packet ∈ packets) (hhand : s.inHand = none) :
    ((s.openSession packet).inHand = some packet ↔ ¬(soFar s.log).Ignores packet) ∧
      (soFar (s.log ++ [.handled packet])).session = (s.openSession packet).curSession ∧
      Followed (soFar (s.log ++ [.handled packet])) (s.openSession packet) := by
  have hid := hsized.session_pos packet hmem
  have hsession := h.session_eq
  have hne (hle : packet.sessionId ≤ s.curSession) : handledSince s.log ≠ [] :=
    h.since.ne_nil_of_le hid hle
  have hsofar : soFar (s.log ++ [.handled packet]) = (soFar s.log).follow (.handled packet) :=
    soFar_concat
  rcases openSession_cases s packet with
    ⟨hold, e⟩ | ⟨-, hbig, -⟩ | ⟨hnew, -, e⟩ | ⟨heq, -, hlate, e⟩ | ⟨heq, -, hin, e⟩
  · have hignored : (soFar s.log).Ignores packet := .inl (hsession.symm ▸ hold)
    rw [SoFar.follow, if_pos hignored] at hsofar
    rw [e, hsofar, hhand]
    exact ⟨iff_of_false (by simp) (not_not.mpr hignored), hsession, h.followed (hne hold.le)⟩
  · exact absurd (h.since.reached.psize_le hhand) (Nat.not_le.mpr hbig)
  · have hignored : ¬(soFar s.log).Ignores packet := by
      rintro (hold | ⟨hsame, -⟩)
      · omega
      · omega
    rw [SoFar.follow, if_neg hignored, if_pos (hsession.symm ▸ hnew)] at hsofar
    rw [e, hsofar]
    exact ⟨iff_of_true rfl hignored, rfl, followed_restarted hfbn⟩
  · have hfollowed := h.followed (hne heq.le)
    have hignored : (soFar s.log).Ignores packet :=
      .inr ⟨heq.trans hsession.symm, hfollowed.byte0_eq.symm ▸ hlate⟩
    rw [SoFar.follow, if_pos hignored] at hsofar
    rw [e, hsofar, hhand]
    exact ⟨iff_of_false (by simp) (not_not.mpr hignored), hsession, hfollowed⟩
  · have hfollowed := h.followed (hne heq.le)
    have hignored : ¬(soFar s.log).Ignores packet := by
      rintro (hold | ⟨-, hlate⟩)
      · omega
      · rw [hfollowed.byte0_eq] at hlate
        omega
    have hsize : packet.psize = s.buffer.psize := by
      obtain ⟨q, hq, hqid, hqsize⟩ :=
        (h.since.phase.resolve_left fun hphase => hne heq.le hphase.1).size
      exact (hsized.constant packet hmem q (h.since.handled_mem q hq)
        (heq.trans hqid.symm)).trans hqsize
    rw [SoFar.follow, if_neg hignored, if_neg (by omega)] at hsofar
    rw [e, hsofar]
    exact ⟨iff_of_true rfl hignored, hsession, hfollowed.taken hhand hsize hfbn⟩

/-- The receiver puts the packet in hand. -/
theorem tracks_afterPut {buffer : CircularBuffer α} (hmax : bsize ≤ ptrdiffMax)
    (h : Tracks bsize packets s) (hhand : s.inHand = some packet)
    (htry : s.buffer.tryPut packet = .ok buffer)
    (hsince : SinceChange bsize packets (s.afterPut packet buffer)) :
    Tracks bsize packets (s.afterPut packet buffer) := by
  have hstarted := h.since.phase.resolve_left fun hidle => by simp [hhand] at hidle
  obtain ⟨hpsize, hcap, hbyte0⟩ := tryPut_fields hstarted.ring htry
  refine ⟨hsince, ?_, fun hne => ?_⟩
  · rw [soFar_afterPut, afterPut_curSession]
    exact h.session_eq
  · rw [handledSince_afterPut] at hne
    rw [soFar_afterPut]
    exact (h.followed hne).put (h.since.capacity_eq ▸ hmax) hstarted.ring hhand hpsize hcap hbyte0

/-- The printer handles a job. -/
theorem tracks_handlePrint (h : Tracks bsize packets s) (hprint : s.handlePrint = .ok s')
    (hsince : SinceChange bsize packets s') : Tracks bsize packets s' := by
  obtain ⟨buffer, chunk, hs'⟩ := exists_of_handlePrint hprint
  have hlog : soFar s'.log = soFar s.log := by
    rw [hs']
    exact soFar_written
  refine ⟨hsince, ?_, fun hne => ?_⟩
  · rw [hlog, h.session_eq, hs']
  · have hne' : handledSince s.log ≠ [] := by
      rw [hs', handledSince_written] at hne
      exact hne
    have hring := (h.since.phase.resolve_left fun hphase => hne' hphase.1).ring
    obtain rfl := Except.ok.inj ((handlePrint_eq hring).symm.trans hprint)
    rw [hlog]
    apply (h.followed hne').of_eq
    · rw [printed_buffer, dumped_byte0]
    · rw [printed_buffer, dumped_psize]
    · rw [printed_buffer, dumped_capacity]
    · rfl
    · rfl

theorem tracks_step {action : Action α} (hsized : Sized bsize packets)
    (hmax : bsize ≤ ptrdiffMax) (hfbn : ∀ packet ∈ packets, packet.firstByteNum < 2 ^ 63)
    (h : Tracks bsize packets s) (hreceive : ∀ p, action = .receive p → p ∈ packets)
    (hs : s.step action = .ok s') : Tracks bsize packets s' := by
  have hsince : action ≠ .changeStation → SinceChange bsize packets s' := fun hne =>
    sinceChange_step hsized hmax h.since hne hreceive hs
  rcases step_cases hs with hsame | ⟨packet, rfl, hhand, rfl⟩ | ⟨packet, rfl, hhand, hput⟩ |
    ⟨rfl, hhand, rfl⟩ | ⟨event, rest, rfl, hprinting, hqueue, rfl⟩ | ⟨rfl, hprinting, hprint⟩
  · rw [hsame]
    exact h
  · have hmem := hreceive packet rfl
    obtain ⟨-, hsession, hfollowed⟩ := h.receive hsized (hfbn packet hmem) hmem hhand
    exact ⟨hsince (by simp), hsession, fun _ => hfollowed.of_eq rfl rfl rfl rfl rfl⟩
  · obtain ⟨buffer, htry, rfl⟩ := putPacket_eq_ok_iff.mp hput
    exact tracks_afterPut hmax h hhand htry (hsince (by simp))
  · refine ⟨sinceChange_changeStation h.since.reached h.since.capacity_eq hhand, ?_, ?_⟩
    · simp [changeStation, soFar_concat, SoFar.follow]
    · simp [changeStation]
  · exact ⟨hsince (by simp), h.session_eq, fun hne => (h.followed hne).of_eq rfl rfl rfl rfl rfl⟩
  · exact tracks_handlePrint h hprint (hsince (by simp))

/-- What a put does to the queue of the printer. -/
theorem Tracks.put (h : Tracks bsize packets s) (hmax : bsize ≤ ptrdiffMax)
    (hhand : s.inHand = some packet) (hput : s.putPacket packet = .ok s') :
    (ReachedBy (soFar s.log).packets ((soFar s.log).byte0 + bsize / 4 * 3) →
        s'.printerQueue = s.printerQueue ++ [.newJobs]) ∧
      (¬ReachedBy (soFar s.log).packets ((soFar s.log).byte0 + bsize / 4 * 3) →
        s'.printerQueue = s.printerQueue) := by
  have hstarted := h.since.phase.resolve_left fun hidle => by simp [hhand] at hidle
  have hne : handledSince s.log ≠ [] := by
    obtain ⟨q, hq, -⟩ := hstarted.size
    exact List.ne_nil_of_mem hq
  obtain ⟨buffer, htry, rfl⟩ := putPacket_eq_ok_iff.mp hput
  obtain ⟨hpsize, hcap, hbyte0⟩ := tryPut_fields hstarted.ring htry
  have hprints := (h.followed hne).prints_iff (h.since.capacity_eq ▸ hmax) hstarted.ring hhand
  rw [h.since.capacity_eq] at hprints
  rw [afterPut_printerQueue hpsize hcap hbyte0, ← hprints]
  exact ⟨fun h => if_pos h, fun h => if_neg h⟩

/-- No other step pushes a job. -/
theorem printerQueue_suffix {action : Action α} (hs : s.step action = .ok s')
    (hput : ¬(action = .put ∧ s.inHand ≠ none)) : s'.printerQueue <:+ s.printerQueue := by
  rcases step_cases hs with hsame | ⟨packet, rfl, hhand, rfl⟩ | ⟨packet, rfl, hhand, -⟩ |
    ⟨rfl, hhand, rfl⟩ | ⟨event, rest, rfl, hprinting, hqueue, rfl⟩ | ⟨rfl, hprinting, hprint⟩
  · rw [hsame]
  · have hqueue : (s.openSession packet).printerQueue = s.printerQueue := by
      rcases openSession_cases s packet with
        ⟨-, e⟩ | ⟨-, -, e⟩ | ⟨-, -, e⟩ | ⟨-, -, -, e⟩ | ⟨-, -, -, e⟩ <;> rw [e]
      rfl
    rw [hqueue]
  · exact absurd ⟨rfl, by simp [hhand]⟩ hput
  · exact List.suffix_refl _
  · rw [hqueue]
    exact List.suffix_cons event rest
  · obtain ⟨buffer, chunk, rfl⟩ := exists_of_handlePrint hprint
    exact List.suffix_refl _

/-- The packet in hand is the last one of the playback. -/
theorem Tracks.getLast_eq (h : Tracks bsize packets s) (hhand : s.inHand = some packet) :
    (soFar s.log).packets.getLast? = some packet := by
  have hstarted := h.since.phase.resolve_left fun hidle => by simp [hhand] at hidle
  obtain ⟨q, hq, -⟩ := hstarted.size
  obtain ⟨before, hpackets, -⟩ := (h.followed (List.ne_nil_of_mem hq)).printed
  rw [hpackets, hhand, Option.toList_some, List.getLast?_concat]

/-- A step is as promised unless it is a put between the two thresholds. -/
theorem Tracks.startsAtThreshold_iff {action : Action α} (h : Tracks bsize packets s)
    (hsized : Sized bsize packets) (hmax : bsize ≤ ptrdiffMax)
    (hfbn : ∀ packet ∈ packets, packet.firstByteNum < 2 ^ 63)
    (hreceive : ∀ p, action = .receive p → p ∈ packets) (hs : s.step action = .ok s') :
    StartsAtThreshold bsize s action s' ↔
      (action = .put → s.inHand ≠ none → ¬BetweenThresholds bsize (soFar s.log)) := by
  by_cases hput : action = .put ∧ s.inHand ≠ none
  · obtain ⟨rfl, hne⟩ := hput
    obtain ⟨packet, hhand⟩ := Option.ne_none_iff_exists'.mp hne
    have hstep : s.putPacket packet = .ok s' := by
      rw [step, hhand] at hs
      exact hs
    obtain ⟨hjob, hnojob⟩ := h.put hmax hhand hstep
    have hlower : (soFar s.log).byte0 + bsize / 4 * 3 ≤ (soFar s.log).byte0 + 3 * bsize / 4 := by
      omega
    constructor
    · rintro hstarts - - ⟨hreached, hnot⟩
      have hsuffix := hstarts.not_pushed fun hall => hnot hall.2.2
      rw [hjob hreached] at hsuffix
      have := hsuffix.length_le
      simp at this
    · intro hbetween
      refine ⟨fun packet haction => (by cases haction), fun packet => h.getLast_eq,
        fun _ _ hreached => hjob (hreached.mono hlower), fun hnot => ?_⟩
      have hnotYet : ¬ReachedBy (soFar s.log).packets ((soFar s.log).byte0 + bsize / 4 * 3) :=
        fun hreached => hbetween rfl hne ⟨hreached, fun hright => hnot ⟨rfl, hne, hright⟩⟩
      rw [hnojob hnotYet]
  · refine iff_of_true ⟨?_, fun packet => h.getLast_eq, ?_, fun _ => printerQueue_suffix hs hput⟩
      fun haction hne => absurd ⟨haction, hne⟩ hput
    · rintro packet rfl hhand
      have hmem := hreceive packet rfl
      obtain ⟨htaken, -⟩ := h.receive hsized (hfbn packet hmem) hmem hhand
      rw [step, hhand] at hs
      obtain rfl := Except.ok.inj hs
      exact htaken
    · intro haction hne
      exact absurd ⟨haction, hne⟩ hput

end Step

/-- In every step of every run a playback starts as promised exactly when the step is no put of a
playback between the two thresholds. -/
theorem playback_starts_iff [Zero α] {bsize : Nat} {buffer : CircularBuffer α}
    (hnew : CircularBuffer.new bsize = some buffer) {actions : List (Action α)}
    (hsized : Guarded step (SizedSince bsize) (init buffer) actions)
    (hfbn : ∀ packet ∈ received actions, packet.firstByteNum < 2 ^ 63) :
    EveryStep step (fun s action s' => StartsAtThreshold bsize s action s' ↔
      (action = .put → s.inHand ≠ none → ¬BetweenThresholds bsize (soFar s.log)))
      (init buffer) actions := by
  have hmax : bsize ≤ ptrdiffMax := (new_fields hnew).2.1 ▸ (new_fields hnew).2.2
  obtain ⟨hreached, hcap⟩ := reached_run hnew (show run (init buffer) [] = .ok _ from rfl)
  have hinit : Tracks bsize (received actions) (init buffer) :=
    ⟨⟨hreached, hcap, by simp [init, handledSince], rfl, .inl ⟨rfl, rfl⟩⟩, rfl,
      fun hne => absurd rfl hne⟩
  have hactions : ∀ action ∈ actions, ∀ p ∈ received [action], p ∈ received actions := by
    rintro action hmem p hp
    obtain ⟨action', hmem', hreceived⟩ := List.mem_filterMap.mp hp
    rw [List.mem_singleton.mp hmem'] at hreceived
    exact List.mem_filterMap.mpr ⟨action, hmem, hreceived⟩
  have hreceive (s : Playback α) (action : Action α) (p : AudioPacket α)
      (haction : action = .receive p) : p ∈ handledSince s.log ++ received [action] := by
    subst haction
    exact List.mem_append_right _ (List.mem_singleton_self p)
  -- of the packets of the run only those since the last change and the one that comes matter
  have hnow {s : Playback α} {action : Action α} (h : Tracks bsize (received actions) s)
      (hguard : (∀ p ∈ received [action], p ∈ received actions) ∧ SizedSince bsize s action) :
      Tracks bsize (handledSince s.log ++ received [action]) s ∧
        ∀ p ∈ handledSince s.log ++ received [action], p ∈ received actions := by
    refine ⟨h.of_mem fun p hp => List.mem_append_left _ hp, fun p hp => ?_⟩
    exact (List.mem_append.mp hp).elim (h.since.handled_mem p) (hguard.1 p)
  refine everyStep_of_guarded (fun s action s' h hguard hs => ?_)
    (fun s action s' h hguard hs => ?_) hinit (hsized.restrict hactions)
  · obtain ⟨htracks, hmem⟩ := hnow h hguard
    have htracks' := tracks_step hguard.2 hmax (fun p hp => hfbn p (hmem p hp)) htracks
      (hreceive s action) hs
    exact htracks'.of_mem fun p hp => hmem p (htracks'.since.handled_mem p hp)
  · obtain ⟨htracks, hmem⟩ := hnow h hguard
    exact htracks.startsAtThreshold_iff hguard.2 hmax (fun p hp => hfbn p (hmem p hp))
      (hreceive s action) hs

section Example

/-- Packets 0 to 3 of one byte in a buffer of seven bytes. -/
def fourBytesOfSeven : List (Action UInt8) :=
  (List.range 4).flatMap fun n => arrival (AudioPacket.oneByte 7 n)

theorem playback_starts_iff_seven :
    ∃ buffer, CircularBuffer.new 7 = some buffer ∧
      EveryStep step (fun s action s' => StartsAtThreshold 7 s action s' ↔
        (action = .put → s.inHand ≠ none → ¬BetweenThresholds 7 (soFar s.log)))
        (init buffer) fourBytesOfSeven :=
  ⟨_, rfl, playback_starts_iff rfl (by decide) (by decide)⟩

/-- In a buffer of seven bytes byte 3 starts the playback, and byte 5 should. -/
theorem byte_three_starts_playback :
    ∃ buffer, CircularBuffer.new 7 = some buffer ∧
      ∃ s, run (init buffer) fourBytesOfSeven.dropLast = .ok s ∧
        ¬ReachedBy (soFar s.log).packets ((soFar s.log).byte0 + 3 * 7 / 4) ∧
        ∃ s', s.step .put = .ok s' ∧ s'.printerQueue = [.newJobs] ∧
          ¬StartsAtThreshold 7 s .put s' := by
  refine ⟨_, rfl, exists_ok_and (by decide) fun s hrun => ?_⟩
  have hfields := eq_of_toOption_map (v := (0, true, []))
    (fun s => ((soFar s.log).byte0, (soFar s.log).packets.all fun q =>
      decide (q.firstByteNum + q.psize ≤ 4), s.printerQueue)) (by decide) hrun
  obtain ⟨hbyte0, hpackets, hempty⟩ : (soFar s.log).byte0 = 0 ∧
      (∀ q ∈ (soFar s.log).packets, q.firstByteNum + q.psize ≤ 4) ∧ s.printerQueue = [] := by
    simpa using hfields
  have hnot : ¬ReachedBy (soFar s.log).packets ((soFar s.log).byte0 + 3 * 7 / 4) := by
    rintro ⟨q, hq, p, -, hlt, hle⟩
    have hlast := hpackets q hq
    omega
  refine ⟨hnot, ?_⟩
  have hstep := eq_of_toOption_map (v := true) (fun s => (s.step .put).isOk) (by decide) hrun
  have hqueue := eq_of_toOption_map (v := some [.newJobs])
    (fun s => (s.step .put).toOption.map fun s' => s'.printerQueue) (by decide) hrun
  refine exists_ok_and hstep fun s' hs => ?_
  have hjob : s'.printerQueue = [.newJobs] := by
    rw [hs] at hqueue
    exact Option.some.inj hqueue
  refine ⟨hjob, fun hstarts => ?_⟩
  have hsuffix := hstarts.not_pushed fun hall => hnot hall.2.2
  rw [hjob, hempty] at hsuffix
  exact absurd hsuffix (by decide)

end Example

end SikRadio.Receiver.Playback
