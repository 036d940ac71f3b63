import SikRadio.Foundations.BlockRounds
import SikRadio.Sender.Configurations

/-!
# What the Retransmitter finds in the cache

The packets go round the cache, one slot after the other. The slot at the head,
which the Retransmitter sends under the number of the next packet, holds the
packet that the next one overwrites, or zeros in the first round. So what is sent
for a request follows from the number of packets sent so far.
-/

namespace SikRadio.Sender

open SikRadio.Common SikRadio.Common.CircularBuffer
open Foundations.BlockRounds Foundations.CheckedRuns Foundations.MemoryCells Foundations.Word64

/-- The numbers of a request that are not below the tail after `n` packets. -/
def askedAfter (psize fsize n : Nat) (packetIds : List Nat) : List Nat :=
  packetIds.filter fun id => (n - cached psize fsize n) * psize ≤ id

/-- What is sent for a request that is served after `n` packets of the input: nothing when one of
the numbers is not above the last packet. -/
def answersAfter (psize fsize sessionId : Nat) (input : List UInt8) (n : Nat)
    (req : RexmitRequest) : List (SockAddr × List UInt8) :=
  let asked := askedAfter psize fsize n req.packetIds
  if ∃ id ∈ asked, id + psize ≤ n * psize then []
  else
    List.replicate asked.length (req.receiverAddr,
      storeWord sessionId ++ storeWord (n * psize) ++
        overwritten psize (fsize / psize) (payload psize input) n)

/-- The AudioSender after `n` packets, with its cache slot by slot. -/
structure Broadcasting (psize fsize sessionId n : Nat) (input : List UInt8)
    (s : AudioSender UInt8) : Prop where
  sending : Sending psize fsize sessionId n input s
  reached : ReachedSender psize fsize sessionId s
  rounds : Rounds psize (fsize / psize) n (payload psize input) s.packetCache.data
  head_eq : s.packetCache.head = n % (fsize / psize) * psize

/-- In a sorted list the numbers below a bound come first. -/
theorem dropWhile_lt_eq_filter {bound : Nat} {ids : List Nat} (hsorted : ids.Pairwise (· ≤ ·)) :
    (ids.dropWhile fun id => id < bound) = ids.filter fun id => bound ≤ id := by
  induction ids with
  | nil => rfl
  | cons id ids ih =>
      obtain ⟨hleast, hsorted⟩ := List.pairwise_cons.mp hsorted
      rcases Nat.lt_or_ge id bound with hbelow | habove
      · rw [List.dropWhile_cons_of_pos (by simpa using hbelow),
          List.filter_cons_of_neg (by simpa using hbelow)]
        exact ih hsorted
      · rw [List.dropWhile_cons_of_neg (by simpa using habove), eq_comm, List.filter_eq_self]
        intro i hi
        rcases List.mem_cons.mp hi with rfl | hi
        · simpa using habove
        · simpa using habove.trans (hleast i hi)

theorem length_inReach (absTail : Nat) (packetIds : List Nat) :
    (inReach absTail packetIds).length =
      (packetIds.filter fun id => absTail ≤ id).length := by
  rw [inReach, dropWhile_lt_eq_filter (List.pairwise_insertionSort (· ≤ ·) packetIds)]
  exact ((List.perm_insertionSort (· ≤ ·) packetIds).filter _).length_eq

/-- Only the input up to packet `n` matters. -/
theorem answersAfter_append {psize fsize sessionId n : Nat} {input : List UInt8}
    (hn : n * psize ≤ input.length) (hslots : 0 < fsize / psize) (chunk : List UInt8)
    (req : RexmitRequest) :
    answersAfter psize fsize sessionId (input ++ chunk) n req =
      answersAfter psize fsize sessionId input n req := by
  have hblock : overwritten psize (fsize / psize) (payload psize (input ++ chunk)) n =
      overwritten psize (fsize / psize) (payload psize input) n := by
    unfold overwritten
    split
    case isTrue => rfl
    case isFalse hlater =>
      apply payload_append
      have hle : n - fsize / psize + 1 ≤ n := by omega
      exact (Nat.mul_le_mul_right psize hle).trans hn
  simp only [answersAfter, hblock]

section Packet

variable {psize fsize sessionId n fuel : Nat} {input chunk : List UInt8} {s : AudioSender UInt8}

theorem Broadcasting.fitting (h : Broadcasting psize fsize sessionId n input s)
    (hfit : psize ≤ fsize) : Fitting s := by
  apply h.reached.cache.resolve_right
  intro hunfit
  have hlt := hunfit.lt
  rw [h.reached.cache_capacity, h.reached.cache_psize] at hlt
  omega

/-! ## Reads -/

/-- A `read` that does not complete a packet. -/
theorem Broadcasting.collect (h : Broadcasting psize fsize sessionId n input s)
    (hpart : s.nread + chunk.length < psize) :
    ∃ s', s.readChunk chunk = .ok s' ∧
      Broadcasting psize fsize sessionId n (input ++ chunk) s' := by
  obtain ⟨s', hs, hsending⟩ := h.sending.collect hpart
  have hcache : s'.packetCache = s.packetCache := by
    rw [readChunk_of_part (by rw [h.sending.psize_eq]; omega)] at hs
    obtain rfl := Except.ok.inj hs
    rfl
  refine ⟨s', hs, hsending, h.reached.readChunk hs, ?_, hcache ▸ h.head_eq⟩
  rw [hcache]
  apply h.rounds.congr
  intro j hj
  have hle : (j + 1) * psize ≤ n * psize := Nat.mul_le_mul_right psize hj
  have hlen := h.sending.length_eq
  exact payload_append (by omega)

/-- A `read` that completes packet `n`. -/
theorem Broadcasting.complete (h : Broadcasting psize fsize sessionId n input s)
    (hfit : psize ≤ fsize) (hfull : s.nread + chunk.length = psize)
    (hword : (n + 1) * psize < 2 ^ 64) :
    ∃ s', s.readChunk chunk = .ok s' ∧
      Broadcasting psize fsize sessionId (n + 1) (input ++ chunk) s' := by
  have hpos : 0 < psize := Nat.zero_lt_of_lt h.sending.nread_lt
  have hslots : 0 < fsize / psize := Nat.div_pos hfit hpos
  have hlen := h.sending.length_eq
  have hmul : (n + 1) * psize = n * psize + psize := Nat.succ_mul n psize
  have hend : (n + 1) * psize ≤ (input ++ chunk).length := by
    rw [List.length_append]
    omega
  obtain ⟨s', hs, hsending⟩ := h.sending.complete hfull hword
  obtain ⟨cache, hput, rfl⟩ :=
    (readChunk_eq_ok_iff_of_full (by rw [h.sending.psize_eq]; exact hfull)).mp hs
  -- the packet that was sent last is the block that was just completed
  have hpacket : nextPacket s chunk =
      .ofWords sessionId (n * psize) (payload psize (input ++ chunk) n) := by
    have hsent := hsending.sent_eq
    rw [afterPacket_sent, packets_succ] at hsent
    exact List.singleton_inj.mp (List.append_inj' hsent rfl).2
  have hfbn : (nextPacket s chunk).firstByteNum = n * psize := by
    rw [hpacket]
    exact Nat.mod_eq_of_lt (by omega)
  have hdata : (nextPacket s chunk).audioData = payload psize (input ++ chunk) n := by
    rw [hpacket]
    rfl
  have hsize := h.sending.cache_psize
  have hcap : s.packetCache.roundedCap = fsize / psize * psize := by
    rw [roundedCap, h.sending.cache_capacity, hsize]
  have habs : s.packetCache.absHead = n * psize := by
    have hcaches := h.sending.cache.caches (by rw [hsize]; omega)
    rw [hcaches.absHead_eq, hsize]
  have hoffset : s.packetCache.headOffset (nextPacket s chunk) = 0 := by
    rw [headOffset_eq (by rw [habs, hfbn]), habs, hfbn, Nat.sub_self]
  have hpushed : cache = s.packetCache.pushed (nextPacket s chunk) := by
    have hcache := h.sending.cache.append (by rw [hsize]; omega) chunk
    have hlength : (nextPacket s chunk).psize = s.packetCache.psize := by
      rw [nextPacket_psize, hsize, h.sending.psize_eq]
    obtain ⟨hput', -⟩ := hcache.put (by rw [hfbn, hsize]) (by rw [hdata, hsize]) hlength
      (by rw [hsize]; exact hword)
    exact Except.ok.inj (hput.symm.trans hput')
  have hslot : s.packetCache.head < fsize / psize * psize := by
    rw [h.head_eq]
    exact Nat.mul_lt_mul_of_pos_right (Nat.mod_lt n hslots) hpos
  refine ⟨_, hs, hsending, h.reached.readChunk hs, ?_, ?_⟩
  · have hblocks : Rounds psize (fsize / psize) n (payload psize (input ++ chunk))
        s.packetCache.data := by
      apply h.rounds.congr
      intro j hj
      have hle : (j + 1) * psize ≤ n * psize := Nat.mul_le_mul_right psize hj
      exact payload_append (by omega)
    have hlength := length_payload hend
    have hwritten := hblocks.write hpos hlength
    rw [afterPacket_packetCache, hpushed, pushed_data, hoffset, fill_zero,
      Nat.add_zero s.packetCache.head, hcap, Nat.mod_eq_of_lt hslot, hdata, hsize, h.head_eq,
      List.take_of_length_le hlength.le]
    exact hwritten
  · rw [afterPacket_packetCache, hpushed, pushed_head, hoffset, Nat.add_zero, hcap, hsize,
      h.head_eq, ← Nat.succ_mul, Nat.mul_mod_mul_right, Nat.succ_eq_add_one, Nat.mod_add_mod]

theorem Broadcasting.readChunk (h : Broadcasting psize fsize sessionId n input s)
    (hfit : psize ≤ fsize) (hread : s.ReadReturns chunk)
    (hword : (input ++ chunk).length < 2 ^ 64) :
    ∃ s' n', s.readChunk chunk = .ok s' ∧ n ≤ n' ∧
      Broadcasting psize fsize sessionId n' (input ++ chunk) s' := by
  have hle := hread.2
  have hlt := h.sending.nread_lt
  have hlen := h.sending.length_eq
  rw [h.sending.psize_eq] at hle
  rcases Nat.lt_or_ge (s.nread + chunk.length) psize with hpart | hfull
  · obtain ⟨s', hs, h'⟩ := h.collect hpart
    exact ⟨s', n, hs, le_rfl, h'⟩
  · have hmul : (n + 1) * psize = n * psize + psize := Nat.succ_mul n psize
    rw [List.length_append] at hword
    have hfull' : s.nread + chunk.length = psize := by omega
    obtain ⟨s', hs, h'⟩ := h.complete hfit hfull' (by omega)
    exact ⟨s', n + 1, hs, Nat.le_succ n, h'⟩

/-- The window ends with the last packet. -/
theorem Broadcasting.window (h : Broadcasting psize fsize sessionId n input s)
    (hfit : psize ≤ fsize) (hword : input.length < 2 ^ 63) :
    s.packetCache.absHead = n * psize ∧
      s.packetCache.absTail = (n - cached psize fsize n) * psize ∧
      s.packetCache.absTail + s.packetCache.windowLen * psize = n * psize := by
  have hlen := h.sending.length_eq
  have hsize := h.sending.cache_psize
  have hfitting := h.fitting hfit
  have hcaches := h.sending.cache.caches (by rw [hsize]; omega)
  have habs := hcaches.absHead_eq
  have htail := hcaches.absTail_eq
  rw [hsize, h.sending.cache_capacity] at htail
  rw [hsize] at habs
  refine ⟨habs, htail, ?_⟩
  have hle : (n - cached psize fsize n) * psize ≤ n * psize :=
    Nat.mul_le_mul_right psize (Nat.sub_le n _)
  have hrange := hfitting.range_lt
  have hlast := walkedNum_windowLen hfitting.ring hfitting.absHead_lt hrange
  rw [walkedNum, windowLen_mul hfitting.ring, wadd_of_lt (by omega)] at hlast
  rw [← hsize, windowLen_mul hfitting.ring, hlast, habs, hsize]

theorem Broadcasting.silent_iff (h : Broadcasting psize fsize sessionId n input s)
    (hfit : psize ≤ fsize) (hword : input.length < 2 ^ 63) {packetIds : List Nat} :
    Silent s.packetCache packetIds ↔
      askedAfter psize fsize n packetIds = [] ∨
        ∃ id ∈ askedAfter psize fsize n packetIds, id + psize ≤ n * psize := by
  obtain ⟨-, htail, hend⟩ := h.window hfit hword
  have hsize := h.sending.cache_psize
  have hmem (id : Nat) : id ∈ askedAfter psize fsize n packetIds ↔
      id ∈ packetIds ∧ s.packetCache.absTail ≤ id := by
    rw [askedAfter, List.mem_filter, htail, decide_eq_true_iff]
  unfold Silent
  refine or_congr ?_ ⟨?_, ?_⟩
  · rw [List.eq_nil_iff_forall_not_mem]
    simp only [hmem, not_and, Nat.not_le]
  · rintro ⟨id, hid, hle, m, ⟨k, hk, rfl⟩, hbelow⟩
    refine ⟨id, (hmem id).mpr ⟨hid, hle⟩, ?_⟩
    have hlast : (k + 1) * psize ≤ s.packetCache.windowLen * psize :=
      Nat.mul_le_mul_right psize hk
    rw [Nat.succ_mul] at hlast
    rw [hsize] at hbelow
    omega
  · rintro ⟨id, hid, hbelow⟩
    obtain ⟨hid, hle⟩ := (hmem id).mp hid
    have hpos : 0 < psize := Nat.zero_lt_of_lt h.sending.nread_lt
    have hwindow : s.packetCache.windowLen ≠ 0 := by
      intro hzero
      rw [hzero, Nat.zero_mul] at hend
      omega
    obtain ⟨k, hk⟩ := Nat.exists_eq_succ_of_ne_zero hwindow
    refine ⟨id, hid, hle, _, ⟨k, by omega, rfl⟩, ?_⟩
    rw [hk, Nat.succ_mul] at hend
    rw [hsize]
    omega

/-- What a request makes the Retransmitter send. -/
theorem Broadcasting.answers (h : Broadcasting psize fsize sessionId n input s)
    (hfit : psize ≤ fsize) (hword : input.length < 2 ^ 63) (hfuel : fsize < fuel)
    (req : RexmitRequest) :
    handleRetransmission fuel s.sessionId s.packetCache req =
      .ok (answersAfter psize fsize sessionId input n req) := by
  have hfitting := h.fitting hfit
  have hpos : 0 < psize := Nat.zero_lt_of_lt h.sending.nread_lt
  obtain ⟨habs, htail, -⟩ := h.window hfit hword
  have hlen : s.packetCache.windowLen < fuel :=
    hfitting.windowLen_lt (h.sending.cache_capacity.symm ▸ hfuel)
  rw [h.sending.session_eq]
  by_cases hsilent : Silent s.packetCache req.packetIds
  · rw [hfitting.answers_of_silent hsilent hlen]
    rcases (h.silent_iff hfit hword).mp hsilent with hnone | hkept
    · simp [answersAfter, hnone]
    · simp only [answersAfter, if_pos hkept]
  · have hsends := (hfitting.answers_of_not_silent sessionId hsilent hlen).2
    have hkept := mt (fun hkept => (h.silent_iff hfit hword).mpr (.inr hkept)) hsilent
    have hblock : slice s.packetCache.data s.packetCache.head s.packetCache.psize =
        overwritten psize (fsize / psize) (payload psize input) n := by
      rw [h.head_eq, h.sending.cache_psize]
      exact h.rounds.slice_next (Nat.div_pos hfit hpos)
    simp only [answersAfter, if_neg hkept, hsends, List.map_const', length_inReach, staleAnswer,
      habs, htail, hblock]
    rfl

end Packet

end SikRadio.Sender
