import SikRadio.Receiver.HostileDatagrams

/-!
# Loss bursts

A session is received in order with any of its packets lost. `try_push_head`
accepts a packet at most one packet ahead of the head, so a burst of one lost
packet is bridged, while after a longer burst neither the next packet nor any
later one is stored.
-/

namespace SikRadio.Receiver.Playback

open SikRadio.Common SikRadio.Common.CircularBuffer
open Foundations Foundations.CheckedRuns Foundations.Word64

variable {α : Type} {first m sid : Nat}

/-- The stream of one session: consecutive packets of `m` bytes, numbered from `first`. -/
def IsStream (first m sid : Nat) (sent : List (AudioPacket α)) : Prop :=
  ∀ k (h : k < sent.length),
    sent[k].sessionId = sid ∧ sent[k].psize = m ∧ sent[k].firstByteNum = first + k * m

/-- The head is right behind the packet, and the packet is in the buffer. -/
def Resumes [Zero α] (m : Nat) (s : Playback α) (packet : AudioPacket α) : Prop :=
  s.buffer.absHead = wadd packet.firstByteNum m ∧ s.buffer.Contains packet

/-- At most one packet is missing between the two. -/
def Bridges (m : Nat) (packet next : AudioPacket α) : Prop :=
  next.firstByteNum ≤ packet.firstByteNum + 2 * m

/-- What a packet of the stream and a later one have to do with each other. -/
structure Precedes (m sid : Nat) (packet next : AudioPacket α) : Prop where
  session_eq : next.sessionId = sid
  psize_eq : next.psize = m
  le : packet.firstByteNum + m ≤ next.firstByteNum
  aligned : next.firstByteNum ≡ packet.firstByteNum [MOD m]

theorem IsStream.pairwise {sent : List (AudioPacket α)} (h : IsStream first m sid sent) :
    sent.Pairwise (Precedes m sid) := by
  rw [List.pairwise_iff_getElem]
  intro i j hi hj hij
  obtain ⟨hsession, hpsize, hj'⟩ := h j hj
  obtain ⟨_, _, hi'⟩ := h i hi
  obtain ⟨d, rfl⟩ := Nat.exists_eq_add_of_lt hij
  refine ⟨hsession, hpsize, ?_, ?_⟩
  · rw [hi', hj']
    have : (i + d + 1) * m = i * m + d * m + m := by ring
    omega
  · rw [hi', hj']
    have : first + (i + d + 1) * m = first + i * m + m * (d + 1) := by ring
    rw [this]
    exact Nat.add_mul_mod_self_left _ _ _

variable [Zero α] {s : Playback α} {packet next : AudioPacket α}

/-- The state after a packet of the stream was stored. Unless the stream has reached the
last position, the buffer represents a window that ends behind the packet. -/
structure Follows (m sid : Nat) (s : Playback α) (packet : AudioPacket α) : Prop where
  inHand_eq : s.inHand = none
  session_eq : s.curSession = sid
  capacity_le : s.buffer.capacity ≤ ptrdiffMax
  byte0_le : s.buffer.byte0 ≤ packet.firstByteNum
  window : packet.firstByteNum + m < 2 ^ 64 →
    ∃ w, Represents s.buffer w ∧ w.hi = packet.firstByteNum + m ∧ s.buffer.psize = m

/-- A put that is accepted brings the window behind the packet. -/
theorem follows_put {w : StreamWindow α} (hrep : Represents s.buffer w)
    (hpsize : s.buffer.psize = m) (hsession : s.curSession = sid)
    (hmax : s.buffer.capacity ≤ ptrdiffMax) (hb0 : s.buffer.byte0 ≤ packet.firstByteNum)
    (halign : packet.firstByteNum ≡ w.lo [MOD m]) (hahead : w.hi ≤ packet.firstByteNum)
    (hnear : packet.firstByteNum ≤ w.hi + m) (hlen : packet.psize = m) :
    ∃ s', s.putPacket packet = .ok s' ∧ Follows m sid s' packet ∧ Resumes m s' packet := by
  subst hpsize hsession
  have hoffset : s.buffer.headOffset packet ≤ s.buffer.psize := by
    rw [headOffset_eq (hrep.hi_eq ▸ hahead), hrep.hi_eq]
    omega
  have hdvd := hrep.dvd_headOffset halign hahead
  have hput := hrep.tryPut_of_ahead halign hahead hoffset (le_of_eq hlen.symm)
  refine ⟨_, putPacket_eq_ok_iff.mpr ⟨_, hput, rfl⟩, ⟨afterPut_inHand, afterPut_curSession, ?_, ?_,
    fun hword => ?_⟩, ?_, ?_⟩
  · rw [afterPut_buffer, pushed_capacity]
    exact hmax
  · rw [afterPut_buffer, pushed_byte0]
    exact hb0
  · rw [afterPut_buffer]
    exact ⟨_, hrep.pushed hahead hdvd hoffset (le_of_eq hlen.symm) hword, rfl, pushed_psize _ _⟩
  · rw [afterPut_buffer, pushed_absHead]
  · rw [afterPut_buffer]
    exact contains_pushed hrep.ring hrep.two_fit hdvd hoffset hlen hmax

/-- The first packet of a session is stored. -/
theorem follows_first {bsize : Nat} {buffer : CircularBuffer α}
    (hnew : CircularBuffer.new bsize = some buffer) (hm : 0 < m) (h2 : 2 * m ≤ bsize)
    (hsession : packet.sessionId ≠ noSession) (hpsize : packet.psize = m) :
    ∃ s', (init buffer).handleAudioPacket packet = .ok s' ∧
      Follows m packet.sessionId s' packet ∧ Resumes m s' packet := by
  obtain ⟨-, hcap, hmax⟩ := new_fields hnew
  rw [handleAudioPacket_first hnew hsession]
  subst hcap
  have hrep := represents_resetAt buffer (hpsize ▸ hm) (hpsize.symm ▸ h2) packet.firstByteNum_lt
  exact follows_put hrep hpsize rfl hmax (le_refl _) rfl (le_refl _) (Nat.le_add_right _ _) hpsize

theorem Precedes.modEq_lo {b : CircularBuffer α} {w : StreamWindow α}
    (hnext : Precedes m sid packet next) (hrep : Represents b w)
    (hhi : w.hi = packet.firstByteNum + m) (hpsize : b.psize = m) :
    next.firstByteNum ≡ w.lo [MOD m] := by
  have hlo := hrep.lo_modEq_hi
  rw [hpsize, hhi] at hlo
  exact hnext.aligned.trans (Nat.add_modEq_right.symm.trans hlo.symm)

section Next

variable (h : Follows m sid s packet) (hnext : Precedes m sid packet next)

include h hnext

/-- A later packet of the session goes to the put. -/
theorem handle_next : s.handleAudioPacket next =
    ({ s with log := s.log ++ [.handled next] } : Playback α).putPacket next := by
  have hword : packet.firstByteNum + m < 2 ^ 64 :=
    Nat.lt_of_le_of_lt hnext.le next.firstByteNum_lt
  obtain ⟨w, hrep, -, -⟩ := h.window hword
  have hb0 := h.byte0_le
  have hle := hnext.le
  exact handleAudioPacket_next h.inHand_eq (hnext.session_eq.trans h.session_eq.symm)
    hrep.ring.psize_le (by omega)

/-- The next packet is stored when at most one is missing in between. -/
theorem follows_next (hbridge : Bridges m packet next) :
    ∃ s', s.handleAudioPacket next = .ok s' ∧ Follows m sid s' next ∧ Resumes m s' next := by
  have hword : packet.firstByteNum + m < 2 ^ 64 :=
    Nat.lt_of_le_of_lt hnext.le next.firstByteNum_lt
  obtain ⟨w, hrep, hhi, hpsize⟩ := h.window hword
  have hb0 := h.byte0_le
  have hle := hnext.le
  have halign := hnext.modEq_lo hrep hhi hpsize
  unfold Bridges at hbridge
  rw [handle_next h hnext]
  have hb0' : s.buffer.byte0 ≤ next.firstByteNum := by omega
  exact follows_put hrep hpsize h.session_eq h.capacity_le hb0' halign (by omega) (by omega)
    hnext.psize_eq

/-- Otherwise it is dismissed and the head stays where it is. -/
theorem not_resumes_of_burst (hburst : ¬ Bridges m packet next) {s' : Playback α}
    (hs : s.handleAudioPacket next = .ok s') : ¬ Resumes m s' next := by
  have hword : packet.firstByteNum + m < 2 ^ 64 :=
    Nat.lt_of_le_of_lt hnext.le next.firstByteNum_lt
  obtain ⟨w, hrep, hhi, hpsize⟩ := h.window hword
  unfold Bridges at hburst
  have hhead : s.buffer.absHead = packet.firstByteNum + m := hrep.hi_eq.trans hhi
  have hahead : s.buffer.absHead ≤ next.firstByteNum := hhead ▸ hnext.le
  have hfar : s.buffer.Dismisses next := by
    refine Or.inr ⟨hahead, ?_⟩
    rw [headOffset_eq hahead]
    omega
  have halign := hpsize ▸ hnext.modEq_lo hrep hhi hpsize
  rw [handle_next h hnext] at hs
  obtain ⟨buffer, hput, rfl⟩ := putPacket_eq_ok_iff.mp hs
  obtain rfl := Except.ok.inj ((hrep.tryPut_of_dismisses halign hfar).symm.trans hput)
  rintro ⟨heq, -⟩
  rw [afterPut_buffer] at heq
  -- the head would have to be a multiple of 2 ^ 64 further on
  unfold wadd at heq
  have := next.firstByteNum_lt
  have := Nat.mod_le (next.firstByteNum + m) (2 ^ 64)
  omega

end Next

/-- From a stored packet on, all later ones are stored exactly when every burst is bridged. -/
theorem afterEach_iff_isChain {received : List (AudioPacket α)} (h : Follows m sid s packet)
    (hpair : (packet :: received).Pairwise (Precedes m sid)) :
    AfterEach handleAudioPacket (Resumes m) s received ↔
      (packet :: received).IsChain (Bridges m) := by
  induction received generalizing s packet with
  | nil => simp [afterEach_nil]
  | cons next received ih =>
      have hnext : Precedes m sid packet next := (List.pairwise_cons.mp hpair).1 next (by simp)
      rw [afterEach_cons_iff, List.isChain_cons_cons]
      constructor
      · rintro ⟨s', hs, hresumes, hrest⟩
        have hbridge : Bridges m packet next := by
          by_contra hburst
          exact not_resumes_of_burst h hnext hburst hs hresumes
        obtain ⟨s₁, hs₁, hfollows, -⟩ := follows_next h hnext hbridge
        obtain rfl : s' = s₁ := Except.ok.inj (hs.symm.trans hs₁)
        exact ⟨hbridge, (ih hfollows hpair.of_cons).mp hrest⟩
      · rintro ⟨hbridge, hchain⟩
        obtain ⟨s', hs, hfollows, hresumes⟩ := follows_next h hnext hbridge
        exact ⟨s', hs, hresumes, (ih hfollows hpair.of_cons).mpr hchain⟩

/-- A first packet of session 0 stops the program. -/
theorem not_handled_of_noSession {bsize : Nat} {buffer : CircularBuffer α}
    (hnew : CircularBuffer.new bsize = some buffer) (hsession : packet.sessionId = noSession)
    {s' : Playback α} : (init buffer).handleAudioPacket packet ≠ .ok s' := by
  intro hs
  have hpsize := (new_fields hnew).1
  rcases (handleAudioPacket_ok_iff (receiving_init hnew)).mp ⟨s', hs⟩ with
    hold | ⟨hnewer, _⟩ | ⟨_, hne, _⟩
  · exact Nat.not_lt_zero _ hold
  · exact absurd hnewer (by rw [hsession]; exact Nat.lt_irrefl _)
  · exact hne hpsize

/-- Every received packet of the stream is stored exactly when the session id is not
zero and no two packets in a row are lost. -/
theorem resumes_iff_bridges (bsize : Nat) {buffer : CircularBuffer α}
    (hnew : CircularBuffer.new bsize = some buffer) (hm : 0 < m) (h2 : 2 * m ≤ bsize)
    {sent received : List (AudioPacket α)} (hsent : IsStream first m sid sent)
    (hloss : received.Sublist sent) :
    AfterEach handleAudioPacket (Resumes m) (init buffer) received ↔
      (received ≠ [] → sid ≠ noSession) ∧ received.IsChain (Bridges m) := by
  have hpair := hsent.pairwise.sublist hloss
  cases received with
  | nil => simp [afterEach_nil]
  | cons packet received =>
      obtain ⟨k, hk, hpacket⟩ := List.mem_iff_getElem.mp (hloss.subset List.mem_cons_self)
      obtain ⟨hsession, hpsize, -⟩ := hsent k hk
      rw [hpacket] at hsession hpsize
      rw [afterEach_cons_iff]
      constructor
      · rintro ⟨s, hs, -, hrest⟩
        have hne : packet.sessionId ≠ noSession := fun h0 => not_handled_of_noSession hnew h0 hs
        obtain ⟨s₁, hs₁, hfollows, -⟩ := follows_first hnew hm h2 hne hpsize
        obtain rfl : s = s₁ := Except.ok.inj (hs.symm.trans hs₁)
        exact ⟨fun _ => hsession ▸ hne,
          (afterEach_iff_isChain (hsession ▸ hfollows) hpair).mp hrest⟩
      · rintro ⟨hne, hchain⟩
        have hne' : packet.sessionId ≠ noSession := hsession ▸ hne (by simp)
        obtain ⟨s, hs, hfollows, hresumes⟩ := follows_first hnew hm h2 hne' hpsize
        exact ⟨s, hs, hresumes, (afterEach_iff_isChain (hsession ▸ hfollows) hpair).mpr hchain⟩

section Example

/-- Four consecutive packets of one byte in session 7. -/
def fourPackets : List (AudioPacket UInt8) :=
  (List.range 4).map (AudioPacket.oneByte 7)

theorem isStream_fourPackets : IsStream 0 1 7 fourPackets := by
  intro k hk
  have hk : k < 4 := by simpa [fourPackets] using hk
  interval_cases k <;> exact ⟨rfl, rfl, rfl⟩

/-- One lost packet: the others are all stored. -/
theorem resumes_after_one_loss :
    ∃ buffer, CircularBuffer.new 4 = some buffer ∧
      (AfterEach handleAudioPacket (Resumes 1) (init buffer) (fourPackets.eraseIdx 1) ↔
        (fourPackets.eraseIdx 1 ≠ [] → 7 ≠ noSession) ∧
          (fourPackets.eraseIdx 1).IsChain (Bridges 1)) :=
  ⟨_, rfl, resumes_iff_bridges 4 rfl (by decide) (by decide) isStream_fourPackets
    (List.eraseIdx_sublist _ _)⟩

/-- After a burst of two lost packets the head stays behind the first one. -/
theorem burst_of_two_wedges :
    ∃ buffer, CircularBuffer.new 4 = some buffer ∧ IsStream 0 1 7 fourPackets ∧
      ((fourPackets.eraseIdx 1).eraseIdx 1).Sublist fourPackets ∧
      ¬ AfterEach handleAudioPacket (Resumes 1) (init buffer)
        ((fourPackets.eraseIdx 1).eraseIdx 1) := by
  refine ⟨_, rfl, isStream_fourPackets,
    (List.eraseIdx_sublist _ _).trans (List.eraseIdx_sublist _ _), fun h => ?_⟩
  obtain ⟨s, hrun, hhead, -⟩ := h [fourPackets[0]] fourPackets[3] [] rfl
  have hstuck : s.buffer.absHead = 1 :=
    eq_of_toOption_map (fun s => s.buffer.absHead) (by decide) hrun
  exact absurd (hstuck.symm.trans hhead) (by decide)

end Example

end SikRadio.Receiver.Playback
