import SikRadio.Receiver.PlaybackSteps

/-!
# Playback order

The chunks of one session are written in the order of the stream, each with the
payload kept for its position, on every run in which late packets find their
slot, jobs find a packet to print and stream positions do not wrap around.
`fill_gap` asks for the side of an offset instead of an index, and print jobs
are queued for dropped and duplicate packets, so neither condition holds by
itself.
-/

namespace SikRadio.Receiver.Playback

open SikRadio.Common SikRadio.Common.CircularBuffer
open Foundations Foundations.CheckedRuns Foundations.Logs Foundations.MemoryCells

variable {α : Type}

/-- The packets of one session: fixed payload size and numbers in step with `r`. -/
def OneSession (m sid r : Nat) : Action α → Prop
  | .receive packet =>
      packet.sessionId = sid ∧ packet.psize = m ∧ packet.firstByteNum ≡ r [MOD m]
  | .changeStation => False
  | _ => True

/-- The payloads kept with first byte number `q`, oldest first. -/
def keptAt (log : List (Observation α)) (q : Nat) : List (List α) :=
  log.filterMap fun
    | .kept packet => if packet.firstByteNum = q then some packet.audioData else none
    | _ => none

/-- The stream positions written so far. -/
def positions (log : List (Observation α)) : List Nat :=
  log.filterMap fun
    | .written position _ _ _ => some position
    | _ => none

/-- A chunk belongs to a new position inside the window and holds the payload kept
for it, or zeros. -/
def WrittenInOrder [Zero α] (m : Nat) (before : List (Observation α)) : Observation α → Prop
  | .written position byte0 absHead chunk =>
      (∀ q ∈ positions before, q < position) ∧ byte0 ≤ position ∧ position < absHead ∧
        chunk = ((keptAt before position).getLast?).getD (List.replicate m 0)
  | _ => True

/-- Every chunk written in a run is written in order. -/
def PlaysInOrder [Zero α] (m : Nat) (log : List (Observation α)) : Prop :=
  Justified (WrittenInOrder m) log

/-- A late packet finds its slot, and an accepted one does not end past the last position. -/
def FindsSlot (b : CircularBuffer α) (packet : AudioPacket α) : Prop :=
  (b.absTail ≤ packet.firstByteNum → packet.firstByteNum < b.absHead →
    b.tail ≤ b.tailOffset packet ∧ b.tail + b.tailOffset packet < b.roundedCap) ∧
  (b.absHead ≤ packet.firstByteNum → b.headOffset packet ≤ b.psize →
    packet.firstByteNum + b.psize < 2 ^ 64)

/-- The condition on the steps of a run. -/
def Orderly (s : Playback α) : Action α → Prop
  | .receive packet => packet.sessionId ≠ noSession
  | .put => ∀ packet ∈ s.inHand, FindsSlot s.buffer packet
  | .print => s.printing = true → s.buffer.psize ≤ s.buffer.range
  | _ => True

instance (m sid r : Nat) : (action : Action α) → Decidable (OneSession m sid r action)
  | .receive packet => inferInstanceAs (Decidable (packet.sessionId = sid ∧ packet.psize = m ∧ _))
  | .changeStation => isFalse id
  | .put | .popEvent | .print => isTrue trivial

instance (b : CircularBuffer α) (packet : AudioPacket α) : Decidable (FindsSlot b packet) :=
  inferInstanceAs (Decidable (_ ∧ _))

instance (s : Playback α) : (action : Action α) → Decidable (Orderly s action)
  | .receive packet => inferInstanceAs (Decidable (packet.sessionId ≠ noSession))
  | .put => inferInstanceAs (Decidable (∀ packet ∈ s.inHand, FindsSlot s.buffer packet))
  | .print => inferInstanceAs (Decidable (s.printing = true → _ ≤ _))
  | .changeStation | .popEvent => isTrue trivial

section Log

variable {log : List (Observation α)} {packet : AudioPacket α} {q : Nat}

@[simp] theorem keptAt_handled : keptAt (log ++ [.handled packet]) q = keptAt log q := by
  simp [keptAt]

@[simp] theorem keptAt_written {p b0 ah : Nat} {chunk : List α} :
    keptAt (log ++ [.written p b0 ah chunk]) q = keptAt log q := by
  simp [keptAt]

theorem keptAt_kept_self :
    (keptAt (log ++ [.kept packet]) packet.firstByteNum).getLast? = some packet.audioData := by
  simp [keptAt]

theorem keptAt_kept_of_ne (h : q ≠ packet.firstByteNum) :
    keptAt (log ++ [.kept packet]) q = keptAt log q := by
  simp [keptAt, Ne.symm h]

@[simp] theorem positions_handled : positions (log ++ [.handled packet]) = positions log := by
  simp [positions]

@[simp] theorem positions_kept : positions (log ++ [.kept packet]) = positions log := by
  simp [positions]

@[simp] theorem positions_written {p b0 ah : Nat} {chunk : List α} :
    positions (log ++ [.written p b0 ah chunk]) = positions log ++ [p] := by
  simp [positions]

end Log

variable [Zero α]

/-- The invariant of a session: the buffer represents a window whose blocks are the
payloads last kept, and nothing at or behind its start is still to be written. -/
structure Playing (m sid r : Nat) (w : StreamWindow α) (s : Playback α) : Prop where
  represents : Represents s.buffer w
  psize_eq : s.buffer.psize = m
  session_eq : s.curSession = sid
  byte0_le : s.buffer.byte0 ≤ w.lo
  aligned : w.lo ≡ r [MOD m]
  inHand : ∀ packet, s.inHand = some packet →
    packet.psize = m ∧ packet.firstByteNum ≡ r [MOD m]
  held_eq : ∀ q, w.lo ≤ q → q < w.hi → w.held q = (keptAt s.log q).getLast?
  kept_lt : ∀ q, keptAt s.log q ≠ [] → q < w.hi
  inOrder : PlaysInOrder m s.log
  written_lt : ∀ q ∈ positions s.log, q < w.lo

namespace Playing

variable {m sid r : Nat} {w w' : StreamWindow α} {s : Playback α} {packet : AudioPacket α}
  {buffer : CircularBuffer α} (h : Playing m sid r w s)

include h

theorem receive (hid : packet.sessionId = sid) (hlen : packet.psize = m)
    (halign : packet.firstByteNum ≡ r [MOD m]) :
    Playing m sid r w { s.openSession packet with log := s.log ++ [.handled packet] } := by
  have hkept : ∀ q, keptAt (s.log ++ [.handled packet]) q = keptAt s.log q :=
    fun q => keptAt_handled
  have horder : PlaysInOrder m (s.log ++ [.handled packet]) :=
    justified_concat_iff.mpr ⟨h.inOrder, trivial⟩
  have hwritten : ∀ q ∈ positions (s.log ++ [.handled packet]), q < w.lo := by
    simpa using h.written_lt
  have hfit : s.buffer.psize ≤ s.buffer.capacity := h.represents.ring.psize_le
  have hcur := h.session_eq
  obtain ⟨hrep, hpsize, hsession, hbyte0, haligned, hhand, hheld, hlt, -, -⟩ := h
  rcases openSession_cases s packet with
    ⟨hold, _⟩ | ⟨_, hbig, _⟩ | ⟨hnew, _⟩ | ⟨_, _, _, e⟩ | ⟨_, _, _, e⟩
  · omega
  · omega
  · omega
  · rw [e]
    exact ⟨hrep, hpsize, hsession, hbyte0, haligned, hhand, by simpa only [hkept] using hheld,
      by simpa only [hkept] using hlt, horder, hwritten⟩
  · rw [e]
    refine ⟨hrep, hpsize, hsession, hbyte0, haligned, fun p hp => ?_,
      by simpa only [hkept] using hheld, by simpa only [hkept] using hlt, horder, hwritten⟩
    obtain rfl : packet = p := Option.some.inj hp
    exact ⟨hlen, halign⟩

/-- The packets of the session are aligned with the window. -/
theorem modEq_lo (halign : packet.firstByteNum ≡ r [MOD m]) :
    packet.firstByteNum ≡ w.lo [MOD s.buffer.psize] :=
  h.psize_eq ▸ halign.trans h.aligned.symm

/-- A packet of the session fills its slot. -/
theorem take_audioData (hlen : packet.psize = m) :
    packet.audioData.take s.buffer.psize = packet.audioData :=
  List.take_of_length_le (le_of_eq (hlen.trans h.psize_eq.symm))

/-- The invariant after a put, given what the put did to the window and the log. -/
theorem afterPut (hrep : Represents buffer w') (hpsize : buffer.psize = s.buffer.psize)
    (hbyte0 : buffer.byte0 = s.buffer.byte0) (hlo : w.lo ≤ w'.lo) (halign : w'.lo ≡ r [MOD m])
    (hheld : ∀ q, w'.lo ≤ q → q < w'.hi →
      w'.held q = (keptAt (s.afterPut packet buffer).log q).getLast?)
    (hkept : ∀ q, keptAt (s.afterPut packet buffer).log q ≠ [] → q < w'.hi) :
    Playing m sid r w' (s.afterPut packet buffer) := by
  have hlog : PlaysInOrder m (s.afterPut packet buffer).log ∧
      positions (s.afterPut packet buffer).log = positions s.log := by
    rw [afterPut_log]
    split
    · exact ⟨h.inOrder, rfl⟩
    · exact ⟨justified_concat_iff.mpr ⟨h.inOrder, trivial⟩, positions_kept⟩
  have hb0 := h.byte0_le
  refine ⟨by simpa using hrep, by simpa [hpsize] using h.psize_eq, by simpa using h.session_eq,
    by rw [afterPut_buffer]; omega, halign, by simp, hheld, hkept, hlog.1, fun q hq => ?_⟩
  have := h.written_lt q (hlog.2 ▸ hq)
  omega

theorem put_dismissed (hd : s.buffer.Dismisses packet) :
    Playing m sid r w (s.afterPut packet s.buffer) := by
  have hlog : (s.afterPut packet s.buffer).log = s.log := by rw [afterPut_log, if_pos hd]
  apply h.afterPut h.represents rfl rfl (le_refl _) h.aligned
  · rw [hlog]
    exact h.held_eq
  · rw [hlog]
    exact h.kept_lt

theorem put_pushed (hahead : w.hi ≤ packet.firstByteNum)
    (hnear : s.buffer.headOffset packet ≤ s.buffer.psize) (hlen : packet.psize = m)
    (halign : packet.firstByteNum ≡ r [MOD m])
    (hword : packet.firstByteNum + s.buffer.psize < 2 ^ 64) :
    ∃ w', Playing m sid r w' (s.afterPut packet (s.buffer.pushed packet)) := by
  have hpsize := h.psize_eq
  have hrep := h.represents
  have halign' := h.modEq_lo halign
  have htake := h.take_audioData hlen
  have hlo := w.lo_le
  have habs := hrep.absTail_eq
  have hlog : (s.afterPut packet (s.buffer.pushed packet)).log = s.log ++ [.kept packet] := by
    rw [afterPut_log, if_neg]
    rintro (hbehind | ⟨_, hfar⟩) <;> omega
  have hrep' := hrep.pushed hahead (hrep.dvd_headOffset halign' hahead) hnear (by omega) hword
  have hmod := hrep'.lo_modEq_hi
  refine ⟨_, h.afterPut hrep' (pushed_psize _ _) (pushed_byte0 _ _)
    (StreamWindow.lo_le_lo_push hahead) ?_ (fun q hq hq' => ?_) (fun q hq => ?_)⟩
  · rw [pushed_psize] at hmod
    have hend : packet.firstByteNum + s.buffer.psize ≡ r [MOD s.buffer.psize] :=
      Nat.add_modEq_right.trans (hpsize ▸ halign)
    exact (hmod.trans hend).of_dvd (dvd_of_eq hpsize.symm)
  · rw [hlog]
    rcases eq_or_ne q packet.firstByteNum with rfl | hne
    · rw [StreamWindow.held_push_self, keptAt_kept_self, htake]
    · rw [keptAt_kept_of_ne hne]
      rcases Nat.lt_or_ge q w.hi with hold | hgap
      · rw [StreamWindow.held_push_of_lt hahead hold]
        exact h.held_eq q ((StreamWindow.lo_le_lo_push hahead).trans hq) hold
      · have hnil : keptAt s.log q = [] := by
          by_contra hne'
          exact absurd (h.kept_lt q hne') (Nat.not_lt.mpr hgap)
        rw [StreamWindow.held_push_of_gap hahead hgap hne, hnil]
        rfl
  · rw [hlog] at hq
    have hpos := hrep.ring.psize_pos
    change q < packet.firstByteNum + s.buffer.psize
    rcases eq_or_ne q packet.firstByteNum with rfl | hne
    · omega
    · rw [keptAt_kept_of_ne hne] at hq
      have := h.kept_lt q hq
      omega

theorem put_filled (hin : w.lo ≤ packet.firstByteNum) (hhi : packet.firstByteNum < w.hi)
    (hlen : packet.psize = m) (halign : packet.firstByteNum ≡ r [MOD m])
    (hle : s.buffer.tail ≤ s.buffer.tailOffset packet)
    (hlt : s.buffer.tail + s.buffer.tailOffset packet < s.buffer.roundedCap) :
    ∃ w', Playing m sid r w' (s.afterPut packet (s.buffer.gapFilled packet)) := by
  have hpsize := h.psize_eq
  have hrep := h.represents
  have halign' := h.modEq_lo halign
  have htake := h.take_audioData hlen
  have habs := hrep.absTail_eq
  have hhead := hrep.hi_eq
  have hlog : (s.afterPut packet (s.buffer.gapFilled packet)).log =
      s.log ++ [.kept packet] := by
    rw [afterPut_log, if_neg]
    rintro (hbehind | ⟨hahead, _⟩) <;> omega
  refine ⟨_, h.afterPut (hrep.gapFilled hin hhi (hrep.dvd_tailOffset halign' hin) (by omega)
    hle hlt) (gapFilled_psize _ _) (gapFilled_byte0 _ _) (le_refl _) h.aligned
    (fun q hq hq' => ?_) (fun q hq => ?_)⟩
  · rw [hlog, StreamWindow.held_fill, htake]
    split
    case isTrue heq => rw [heq, keptAt_kept_self]
    case isFalse hne =>
      rw [keptAt_kept_of_ne hne]
      exact h.held_eq q hq hq'
  · rw [hlog] at hq
    rcases eq_or_ne q packet.firstByteNum with rfl | hne
    · exact hhi
    · rw [keptAt_kept_of_ne hne] at hq
      exact h.kept_lt q hq

/-- A put of a packet that finds its slot does not stop and keeps the invariant. -/
theorem put (hhand : s.inHand = some packet) (hfind : FindsSlot s.buffer packet) :
    ∃ s', s.putPacket packet = .ok s' ∧ ∃ w', Playing m sid r w' s' := by
  have hrep := h.represents
  have hpsize := h.psize_eq
  obtain ⟨hlen, halign⟩ := h.inHand packet hhand
  have halign' := h.modEq_lo halign
  have habs := hrep.absTail_eq
  have hhead := hrep.hi_eq
  simp only [putPacket_eq_ok_iff]
  by_cases hd : s.buffer.Dismisses packet
  · exact ⟨_, ⟨_, hrep.tryPut_of_dismisses halign' hd, rfl⟩, w, h.put_dismissed hd⟩
  · simp only [Dismisses, not_or, not_and, Nat.not_lt] at hd
    rcases Nat.lt_or_ge packet.firstByteNum w.hi with hin | hahead
    · obtain ⟨hle, hlt⟩ := hfind.1 hd.1 (hhead ▸ hin)
      exact ⟨_, ⟨_, hrep.tryPut_of_inside halign' (habs ▸ hd.1) hin (by omega) hle hlt, rfl⟩,
        h.put_filled (habs ▸ hd.1) hin hlen halign hle hlt⟩
    · have hnear := hd.2 (hhead ▸ hahead)
      exact ⟨_, ⟨_, hrep.tryPut_of_ahead halign' hahead hnear (by omega), rfl⟩,
        h.put_pushed hahead hnear hlen halign (hfind.2 (hhead ▸ hahead) hnear)⟩

/-- A print of a packet that is there writes the next position of the stream. -/
theorem print (hne : s.buffer.psize ≤ s.buffer.range) :
    ∃ s', s.handlePrint = .ok s' ∧ ∃ w', Playing m sid r w' s' := by
  have hrep := h.represents
  have hlength := hrep.length_eq
  have hpos := hrep.ring.psize_pos
  have hpsize := h.psize_eq
  have habs := hrep.absTail_eq
  have hplay : w.lo + s.buffer.psize ≤ w.hi := by omega
  refine ⟨_, handlePrint_eq hrep.ring, w.play s.buffer.psize hplay, ?_⟩
  have hchunk : slice s.buffer.data s.buffer.tail s.buffer.psize =
      ((keptAt s.log w.lo).getLast?).getD (List.replicate m 0) := by
    rw [hrep.slice_tail hne, StreamWindow.chunk, h.held_eq w.lo (le_refl _) (by omega), hpsize]
  have hwritten : WrittenInOrder m s.log (.written s.buffer.absTail s.buffer.byte0
      s.buffer.absHead (slice s.buffer.data s.buffer.tail s.buffer.psize)) := by
    refine ⟨fun q hq => habs ▸ h.written_lt q hq, habs ▸ h.byte0_le, ?_, habs ▸ hchunk⟩
    have := hrep.hi_eq
    omega
  refine ⟨hrep.dumped hne hplay, by simpa using hpsize, h.session_eq, ?_, ?_, h.inHand,
    fun q hq hq' => ?_, fun q hq => ?_, justified_concat_iff.mpr ⟨h.inOrder, hwritten⟩,
    fun q hq => ?_⟩
  · have := h.byte0_le
    change s.buffer.dumped.byte0 ≤ w.lo + s.buffer.psize
    rw [dumped_byte0]
    omega
  · change w.lo + s.buffer.psize ≡ r [MOD m]
    rw [hpsize]
    exact (Nat.add_modEq_right).trans h.aligned
  · have hq : w.lo + s.buffer.psize ≤ q := hq
    rw [printed_log, keptAt_written]
    exact h.held_eq q (by omega) hq'
  · rw [printed_log, keptAt_written] at hq
    exact h.kept_lt q hq
  · change q < w.lo + s.buffer.psize
    rw [printed_log, positions_written, List.mem_append, List.mem_singleton] at hq
    rcases hq with hold | rfl
    · have := h.written_lt q hold
      omega
    · omega

end Playing

section Run

variable {bsize m sid r : Nat} {buffer : CircularBuffer α} {s : Playback α}

/-- The first packet of the session starts the window at its number. -/
theorem playing_of_first (h2 : 2 * m ≤ bsize) (hm : 0 < m)
    (hnew : CircularBuffer.new bsize = some buffer) {packet : AudioPacket α}
    (hid : packet.sessionId = sid) (hlen : packet.psize = m)
    (halign : packet.firstByteNum ≡ r [MOD m]) (hsid : packet.sessionId ≠ noSession) :
    Playing m sid r (StreamWindow.start packet.firstByteNum)
      { (init buffer).openSession packet with log := [.handled packet] } := by
  obtain ⟨hpsize, hcap, -⟩ := new_fields hnew
  have hopen : (init buffer).openSession packet = (init buffer).restarted packet := by
    rcases openSession_cases (init buffer) packet with
      ⟨hold, _⟩ | ⟨_, hbig, _⟩ | ⟨_, _, e⟩ | ⟨heq, _⟩ | ⟨heq, _⟩
    · exact absurd hold (Nat.not_lt_zero _)
    · simp only [init, hpsize] at hbig
      omega
    · exact e
    · exact absurd heq hsid
    · exact absurd heq hsid
  rw [hopen]
  refine ⟨represents_resetAt buffer (hlen ▸ hm) (by rw [hlen, hcap]; exact h2)
    packet.firstByteNum_lt, hlen, hid, le_refl _, halign, fun p hp => ?_,
    fun q hq hq' => ?_, fun q hq => ?_, ?_, fun q hq => ?_⟩
  · obtain rfl : packet = p := Option.some.inj hp
    exact ⟨hlen, halign⟩
  · exact absurd hq' (Nat.not_lt.mpr hq)
  · simp [keptAt] at hq
  · exact justified_concat_iff.mpr ⟨justified_nil, trivial⟩
  · simp [positions] at hq

/-- Before its first packet the session is in the initial state, then it plays. -/
def InPlay (m sid r : Nat) (buffer : CircularBuffer α) (s : Playback α) : Prop :=
  s = init buffer ∨ ∃ w, Playing m sid r w s

theorem inPlay_step (hm : 0 < m) (h2 : 2 * m ≤ bsize)
    (hnew : CircularBuffer.new bsize = some buffer) {action : Action α}
    (hs : InPlay m sid r buffer s) (hsession : OneSession m sid r action)
    (horder : Orderly s action) : ∃ s', s.step action = .ok s' ∧ InPlay m sid r buffer s' := by
  rcases hs with rfl | ⟨w, hw⟩
  · cases action with
    | receive packet =>
        obtain ⟨hid, hlen, halign⟩ := hsession
        exact ⟨_, rfl, Or.inr ⟨_, playing_of_first h2 hm hnew hid hlen halign horder⟩⟩
    | changeStation => exact hsession.elim
    | put => exact ⟨_, rfl, Or.inl rfl⟩
    | popEvent => exact ⟨_, rfl, Or.inl rfl⟩
    | print => exact ⟨_, rfl, Or.inl rfl⟩
  · apply exists_step (Or.inr ⟨w, hw⟩)
    · rintro packet rfl _
      obtain ⟨hid, hlen, halign⟩ := hsession
      exact Or.inr ⟨w, hw.receive hid hlen halign⟩
    · rintro packet rfl hhand
      obtain ⟨s', hput, hw'⟩ := hw.put hhand (horder packet hhand)
      exact ⟨s', hput, Or.inr hw'⟩
    · rintro rfl
      exact hsession.elim
    · intro event rest _ _
      exact Or.inr ⟨w, { hw with }⟩
    · rintro rfl hprinting
      obtain ⟨s', hprint, hw'⟩ := hw.print (horder hprinting)
      exact ⟨s', hprint, Or.inr hw'⟩

/-- One session plays in order, without stopping, on every interleaving whose
steps meet the condition. -/
theorem plays_in_order (bsize m sid r : Nat) (hm : 0 < m) (h2 : 2 * m ≤ bsize)
    (hnew : CircularBuffer.new bsize = some buffer) {actions : List (Action α)}
    (hsession : ∀ action ∈ actions, OneSession m sid r action)
    (horder : Guarded step Orderly (init buffer) actions) :
    ∃ s, run (init buffer) actions = .ok s ∧ PlaysInOrder m s.log := by
  have hrun : ∃ s, run (init buffer) actions = .ok s ∧ InPlay m sid r buffer s :=
    ok_of_guarded (fun s action hs hg => inPlay_step hm h2 hnew hs hg.1 hg.2) (Or.inl rfl)
      (horder.restrict hsession)
  obtain ⟨s, hs, hplay⟩ := hrun
  refine ⟨s, hs, ?_⟩
  rcases hplay with rfl | ⟨w, hw⟩
  · exact justified_nil
  · exact hw.inOrder

end Run

section Example

/-- The arrival of packet `n` of session 7. -/
def arrivalOf (n : Nat) : List (Action UInt8) := arrival (AudioPacket.oneByte 7 n)

/-- A lost packet comes back in time, and a job prints the oldest packet. -/
theorem plays_in_order_reordered :
    ∃ buffer, CircularBuffer.new 4 = some buffer ∧
      ∃ s, run (init buffer)
          (arrivalOf 0 ++ arrivalOf 2 ++ arrivalOf 1 ++ arrivalOf 3 ++ [.popEvent, .print]) =
            .ok s ∧
        PlaysInOrder 1 s.log :=
  ⟨_, rfl, plays_in_order 4 1 7 0 (by decide) (by decide) rfl (by decide) (by decide)⟩

/-- Four packets fill the ring; a duplicate of the oldest one then makes `fill_gap`
write in front of the array. -/
def lateDuplicate : List (Action UInt8) :=
  arrivalOf 0 ++ arrivalOf 1 ++ arrivalOf 2 ++ arrivalOf 3 ++ arrivalOf 1

theorem late_duplicate_stops :
    ∃ buffer, CircularBuffer.new 4 = some buffer ∧
      (∀ action ∈ lateDuplicate, OneSession 1 7 0 action) ∧
      ¬ ∃ s, run (init buffer) lateDuplicate = .ok s ∧ PlaysInOrder 1 s.log := by
  refine ⟨_, rfl, by decide, ?_⟩
  rintro ⟨s, hrun, -⟩
  exact ne_ok_of_isOk (by decide) hrun

end Example

end SikRadio.Receiver.Playback
