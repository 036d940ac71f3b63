import SikRadio.Common.WindowWalk
import SikRadio.Sender.PacketCache

/-!
# The caches that a run reaches

A run of the sender that no step stops keeps the cache a ring with its head
inside. The head is where the next packet goes until the stream passes position
`2 ^ 64`; from then on the window lies at the top of the words and takes nothing
more. A cache in which no packet fits stays as it was made.
-/

namespace SikRadio.Sender

open SikRadio.Common SikRadio.Common.CircularBuffer
open Foundations.CheckedRuns Foundations.MemoryCells Foundations.RingOffsets Foundations.Word64

variable {α : Type} {s s' : AudioSender α} {packet : AudioPacket α} {chunk : List α}

/-- The cache takes the next packet at its head. -/
structure Growing (s : AudioSender α) : Prop where
  range_le : s.packetCache.range ≤ s.packetCache.absHead
  fbn_eq : s.firstByteNum = s.packetCache.absHead

/-- The head has passed position `2 ^ 64` and the tail has not. -/
structure Frozen (b : CircularBuffer α) : Prop where
  absHead_lt : b.absHead < b.psize
  psize_le : b.psize ≤ b.range

/-- A cache in which a packet fits. -/
structure Fitting (s : AudioSender α) : Prop where
  ring : Ring s.packetCache
  head_lt : s.packetCache.head < s.packetCache.roundedCap
  absHead_lt : s.packetCache.absHead < 2 ^ 64
  capacity_le : s.packetCache.capacity ≤ ptrdiffMax
  phase : Growing s ∨ Frozen s.packetCache

/-- A cache that is too small for a packet, before the first one. -/
structure Unfit (s : AudioSender α) : Prop where
  lt : s.packetCache.capacity < s.packetCache.psize
  tail_eq : s.packetCache.tail = 0
  head_eq : s.packetCache.head = 0
  absHead_eq : s.packetCache.absHead = 0
  fbn_eq : s.firstByteNum = 0
  sent_eq : s.sent = []

/-- The states of the worker that a run reaches. -/
structure ReachedSender (psize fsize sessionId : Nat) (s : AudioSender α) : Prop where
  psize_eq : s.psize = psize
  session_eq : s.sessionId = sessionId
  cache_psize : s.packetCache.psize = psize
  cache_capacity : s.packetCache.capacity = fsize
  sent : ∀ packet ∈ s.sent, packet.sessionId = sessionId % 2 ^ 64 ∧ packet.psize = psize
  cache : Fitting s ∨ Unfit s

theorem Fitting.roundedCap_lt (h : Fitting s) : s.packetCache.roundedCap < 2 ^ 63 := by
  have hmax := h.capacity_le
  have hcap := roundedCap_le s.packetCache
  unfold ptrdiffMax at hmax
  omega

theorem Unfit.range_eq (h : Unfit s) : s.packetCache.range = 0 := by
  rw [range, h.tail_eq, h.head_eq, if_pos le_rfl]

theorem Unfit.absTail_eq (h : Unfit s) : s.packetCache.absTail = 0 := by
  rw [absTail, h.range_eq, h.absHead_eq]
  rfl

/-! ## The steps of the worker -/

/-- The packet that `chunk` completes. -/
def nextPacket (s : AudioSender α) (chunk : List α) : AudioPacket α :=
  AudioPacket.ofWords s.sessionId s.firstByteNum
    (slice (blit s.audioBuf s.nread chunk) 0 s.psize)

theorem nextPacket_psize : (nextPacket s chunk).psize = s.psize := by
  simp [nextPacket, AudioPacket.psize, AudioPacket.ofWords]

/-- The number of the next packet is the word that the worker keeps. -/
theorem Growing.nextPacket_firstByteNum (hgrow : Growing s) (h : Fitting s) :
    (nextPacket s chunk).firstByteNum = s.firstByteNum := by
  apply Nat.mod_eq_of_lt
  rw [hgrow.fbn_eq]
  exact h.absHead_lt

variable [Zero α]

/-- The worker after a packet is sent. -/
@[simps] def afterPacket (s : AudioSender α) (chunk : List α) (cache : CircularBuffer α) :
    AudioSender α :=
  { s with
    packetCache := cache
    sent := s.sent ++ [nextPacket s chunk]
    firstByteNum := wadd s.firstByteNum s.psize
    audioBuf := fill (blit s.audioBuf s.nread chunk) 0 (s.psize + 1) 0
    nread := 0 }

/-- A read that completes a packet puts it. -/
theorem readChunk_eq_ok_iff_of_full (hfull : s.nread + chunk.length = s.psize) :
    s.readChunk chunk = .ok s' ↔
      ∃ cache, s.packetCache.tryPut (nextPacket s chunk) = .ok cache ∧
        afterPacket s chunk cache = s' := by
  simp only [AudioSender.readChunk, if_pos hfull, AudioSender.sendPacket, bind_eq_ok_iff,
    pure_eq_ok_iff]
  constructor
  · rintro ⟨_, ⟨cache, hput, rfl⟩, rfl⟩
    exact ⟨cache, hput, rfl⟩
  · rintro ⟨cache, hput, rfl⟩
    exact ⟨_, ⟨cache, hput, rfl⟩, rfl⟩

/-- Another read only collects bytes. -/
theorem readChunk_of_part (hpart : s.nread + chunk.length ≠ s.psize) :
    s.readChunk chunk = .ok { s with
      audioBuf := blit s.audioBuf s.nread chunk, nread := s.nread + chunk.length } := by
  simp only [AudioSender.readChunk, if_neg hpart]
  rfl

/-! ## Puts -/

/-- The window grows by one packet at most. -/
theorem range_pushed_le {b : CircularBuffer α} (h : Ring b) (hlt : b.head < b.roundedCap)
    (hoffset : b.headOffset packet = 0) : (b.pushed packet).range ≤ b.range + b.psize := by
  have hdvd : b.psize ∣ b.headOffset packet := hoffset ▸ dvd_zero _
  rcases Nat.lt_or_ge b.capacity (2 * b.psize) with hone | htwo
  · have hround : b.roundedCap < 2 * b.psize := (roundedCap_le b).trans_lt hone
    have hring' : Ring (b.pushed packet) := ring_pushed h hdvd
    have hlt' : (b.pushed packet).head < (b.pushed packet).roundedCap := by
      rw [pushed_head, roundedCap_pushed]
      exact Nat.mod_lt _ (by omega)
    have hrange := hring'.range_add_le hlt'
    rw [roundedCap_pushed, pushed_psize] at hrange
    omega
  · obtain ⟨hrange, -⟩ := range_pushed h htwo hdvd (hoffset ▸ Nat.zero_le _)
    rw [hrange, hoffset, Nat.add_zero]
    exact min_le_left _ _

/-- A growing cache takes the next packet. -/
theorem Fitting.tryPut_of_growing (h : Fitting s) (hgrow : Growing s)
    (hfbn : packet.firstByteNum = s.firstByteNum) (hlen : packet.psize = s.packetCache.psize) :
    s.packetCache.tryPut packet = .ok (s.packetCache.pushed packet) := by
  have habs : s.packetCache.absHead = packet.firstByteNum := hgrow.fbn_eq.symm.trans hfbn.symm
  have htail : ¬packet.firstByteNum < s.packetCache.absTail := by
    rw [absTail, wsub_of_le hgrow.range_le h.absHead_lt]
    omega
  have hoffset : s.packetCache.headOffset packet = 0 := by
    rw [headOffset_eq habs.le, habs, Nat.sub_self]
  rw [h.ring.tryPut_eq, if_neg htail, if_pos habs.le, h.ring.tryPushHead_eq_ok_iff, hoffset]
  refine ⟨dvd_zero _, .inr (.inr ⟨Nat.zero_le _, ?_, hlen.ge, rfl⟩)⟩
  exact h.ring.psize_pos.trans_le h.ring.psize_le_roundedCap

theorem Fitting.pushed (h : Fitting s) (hgrow : Growing s)
    (hfbn : packet.firstByteNum = s.firstByteNum)
    (hcache : s'.packetCache = s.packetCache.pushed packet)
    (hfbn' : s'.firstByteNum = wadd s.firstByteNum s.packetCache.psize) : Fitting s' := by
  have habs : s.packetCache.absHead = packet.firstByteNum := hgrow.fbn_eq.symm.trans hfbn.symm
  have hoffset : s.packetCache.headOffset packet = 0 := by
    rw [headOffset_eq habs.le, habs, Nat.sub_self]
  have hring' : Ring (s.packetCache.pushed packet) :=
    ring_pushed h.ring (hoffset ▸ dvd_zero _)
  have hle := range_pushed_le h.ring h.head_lt hoffset
  have hrange := hgrow.range_le
  have hword := h.absHead_lt
  refine ⟨hcache ▸ hring', ?_, ?_, ?_, ?_⟩
  · rw [hcache, pushed_head, roundedCap_pushed]
    exact Nat.mod_lt _ (h.ring.psize_pos.trans_le h.ring.psize_le_roundedCap)
  · rw [hcache, pushed_absHead]
    exact wadd_lt _ _
  · rw [hcache, pushed_capacity]
    exact h.capacity_le
  · have habs' : s'.packetCache.absHead = wadd s.packetCache.absHead s.packetCache.psize := by
      rw [hcache, pushed_absHead, habs]
    have hfbn_eq : s'.firstByteNum = s'.packetCache.absHead := by
      rw [hfbn', hgrow.fbn_eq, habs']
    rcases Nat.lt_or_ge (s.packetCache.absHead + s.packetCache.psize) (2 ^ 64) with hin | hover
    · refine .inl ⟨?_, hfbn_eq⟩
      rw [habs', wadd_of_lt hin, hcache]
      omega
    · rcases Nat.eq_zero_or_pos (s.packetCache.pushed packet).range with hzero | hpos
      · refine .inl ⟨?_, hfbn_eq⟩
        rw [hcache, hzero]
        exact Nat.zero_le _
      · refine .inr ⟨?_, ?_⟩
        · have hcap := h.ring.psize_le
          have hmax := h.capacity_le
          unfold ptrdiffMax at hmax
          rw [habs', hcache, pushed_psize, wadd]
          omega
        · rw [hcache]
          exact Nat.le_of_dvd hpos hring'.dvd_range

/-- A frozen cache drops a packet or stops; it never changes. -/
theorem Fitting.tryPut_of_frozen (h : Fitting s) (hfrozen : Frozen s.packetCache)
    {cache : CircularBuffer α} :
    s.packetCache.tryPut packet = .ok cache ↔
      (packet.firstByteNum < s.packetCache.absTail ∨
        s.packetCache.psize ∣ s.packetCache.headOffset packet) ∧ s.packetCache = cache := by
  have hround := h.roundedCap_lt
  have hrange := h.ring.range_add_le h.head_lt
  have habs := hfrozen.absHead_lt
  have hpsize := hfrozen.psize_le
  have htail : s.packetCache.absTail =
      s.packetCache.absHead + 2 ^ 64 - s.packetCache.range :=
    wsub_of_lt (habs.trans_le hpsize)
  rw [h.ring.tryPut_eq]
  split
  case isTrue hbehind => simp [hbehind]
  case isFalse hahead =>
    have hle : s.packetCache.absHead ≤ packet.firstByteNum := by omega
    have hfar : s.packetCache.psize < s.packetCache.headOffset packet := by
      rw [headOffset_eq hle]
      omega
    rw [if_pos hle, h.ring.tryPushHead_eq_ok_iff]
    simp [hahead, hfar, Nat.not_le.mpr hfar]

/-- No packet can be put into a cache that is too small. -/
theorem Unfit.not_put (h : Unfit s) (hfbn : packet.firstByteNum = 0)
    {cache : CircularBuffer α} : s.packetCache.tryPut packet ≠ .ok cache := by
  have habs : s.packetCache.absHead ≤ packet.firstByteNum := by
    rw [h.absHead_eq]
    exact Nat.zero_le _
  rw [tryPut_of_tail_eq_head (h.tail_eq.trans h.head_eq.symm) habs]
  apply tryPushHead_of_capacity_lt h.lt
  rw [headOffset_eq habs, hfbn, Nat.zero_sub]

theorem Fitting.afterPacket (h : Fitting s) (hpsize : s.psize = s.packetCache.psize)
    {cache : CircularBuffer α} (hput : s.packetCache.tryPut (nextPacket s chunk) = .ok cache) :
    Fitting (afterPacket s chunk cache) := by
  rcases h.phase with hgrow | hfrozen
  · have hfbn : (nextPacket s chunk).firstByteNum = s.firstByteNum :=
      hgrow.nextPacket_firstByteNum h
    have hlen : (nextPacket s chunk).psize = s.packetCache.psize :=
      nextPacket_psize.trans hpsize
    rw [h.tryPut_of_growing hgrow hfbn hlen] at hput
    obtain rfl := Except.ok.inj hput
    apply h.pushed hgrow hfbn rfl
    rw [afterPacket_firstByteNum, hpsize]
  · obtain ⟨-, rfl⟩ := (h.tryPut_of_frozen hfrozen).mp hput
    exact ⟨h.ring, h.head_lt, h.absHead_lt, h.capacity_le, .inr hfrozen⟩

/-! ## Runs -/

section Run

variable {psize fsize sessionId : Nat}

theorem ReachedSender.readChunk (h : ReachedSender psize fsize sessionId s)
    (hs : s.readChunk chunk = .ok s') : ReachedSender psize fsize sessionId s' := by
  by_cases hfull : s.nread + chunk.length = s.psize
  · obtain ⟨cache, hput, rfl⟩ := (readChunk_eq_ok_iff_of_full hfull).mp hs
    have hlen : (nextPacket s chunk).psize = s.packetCache.psize := by
      rw [nextPacket_psize, h.psize_eq, h.cache_psize]
    have hpacket : (nextPacket s chunk).sessionId = sessionId % 2 ^ 64 ∧
        (nextPacket s chunk).psize = psize := by
      rw [nextPacket_psize, ← h.session_eq]
      exact ⟨rfl, h.psize_eq⟩
    have hsent : ∀ packet ∈ (afterPacket s chunk cache).sent,
        packet.sessionId = sessionId % 2 ^ 64 ∧ packet.psize = psize := by
      rw [afterPacket_sent]
      intro packet hmem
      rcases List.mem_append.mp hmem with hold | hnew
      · exact h.sent packet hold
      · rw [List.mem_singleton.mp hnew]
        exact hpacket
    have hfit : Fitting s := by
      rcases h.cache with hfit | hunfit
      · exact hfit
      · apply absurd hput
        exact hunfit.not_put (by simp [nextPacket, AudioPacket.ofWords, hunfit.fbn_eq])
    obtain ⟨hpsize, hcapacity, -⟩ := tryPut_fields hfit.ring hput
    refine ⟨h.psize_eq, h.session_eq, hpsize.trans h.cache_psize,
      hcapacity.trans h.cache_capacity, hsent, .inl (hfit.afterPacket ?_ hput)⟩
    rw [h.psize_eq, h.cache_psize]
  · rw [readChunk_of_part hfull] at hs
    obtain rfl := Except.ok.inj hs
    refine ⟨h.psize_eq, h.session_eq, h.cache_psize, h.cache_capacity, h.sent, ?_⟩
    rcases h.cache with hfit | hunfit
    · exact .inl ⟨hfit.ring, hfit.head_lt, hfit.absHead_lt, hfit.capacity_le,
        hfit.phase.imp (fun hgrow => ⟨hgrow.range_le, hgrow.fbn_eq⟩) id⟩
    · exact .inr ⟨hunfit.lt, hunfit.tail_eq, hunfit.head_eq, hunfit.absHead_eq, hunfit.fbn_eq,
        hunfit.sent_eq⟩

theorem reachedSender_init (hpos : 0 < psize)
    (hinit : AudioSender.init psize fsize sessionId = some s) :
    ReachedSender psize fsize sessionId s := by
  obtain ⟨cache, hnew, rfl⟩ := Option.map_eq_some_iff.mp hinit
  obtain ⟨-, hcap, hmax⟩ := new_fields hnew
  have hzero : cache.absHead = 0 := (new_positions hnew).1
  refine ⟨rfl, rfl, rfl, hcap, by simp, ?_⟩
  rcases Nat.lt_or_ge fsize psize with hsmall | hfits
  · exact .inr ⟨hcap.symm ▸ hsmall, rfl, rfl, hzero, rfl, rfl⟩
  · have hring : Ring (cache.reset psize) := ring_reset cache hpos (hcap.symm ▸ hfits)
    refine .inl ⟨hring, ?_, ?_, hmax, .inl ⟨?_, hzero.symm⟩⟩
    · exact hring.psize_pos.trans_le hring.psize_le_roundedCap
    · change cache.absHead < 2 ^ 64
      rw [hzero]
      exact Nat.two_pow_pos 64
    · exact Nat.zero_le _

/-- Every state that a run of the worker reaches. -/
theorem reachedSender_run {s₀ : AudioSender α} (hpos : 0 < psize)
    (hinit : AudioSender.init psize fsize sessionId = some s₀) {chunks : List (List α)}
    (hrun : chunks.foldlM AudioSender.readChunk s₀ = .ok s) :
    ReachedSender psize fsize sessionId s :=
  inv_of_run (I := ReachedSender psize fsize sessionId)
    (fun _ _ _ h hs => h.readChunk hs) (reachedSender_init hpos hinit) hrun

end Run

end SikRadio.Sender
