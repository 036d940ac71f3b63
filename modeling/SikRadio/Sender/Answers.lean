import Mathlib.Data.List.TakeWhile
import SikRadio.Common.AudioPacketCodec
import SikRadio.Sender.ReachedCache
import SikRadio.Sender.Retransmitter

/-!
# The answers to a request

The cache is walked alongside the sorted numbers of the request. The test after
the inner loop is the wrong way round: it gives up on the first number for which
the walk stops inside the window, and it sends when the walk meets the head. So
what is sent is never a packet of the cache but the slot at the head, with the
number of the packet that comes next, and the header holds both words in host
order.

## Implementation notes

`Cached` counts on from the tail without wrapping around, as the numbers of the
packets in a reached cache do.
-/

namespace SikRadio.Sender

open SikRadio.Common SikRadio.Common.CircularBuffer
open Foundations.ByteOrder Foundations.CheckedRuns Foundations.MemoryCells Foundations.Word64

/-- The number of a packet in the window. -/
def Cached {α : Type} (b : CircularBuffer α) (n : Nat) : Prop :=
  ∃ k < b.windowLen, n = b.absTail + k * b.psize

/-- The first number that is not below the tail, if there is one, is not above the last packet
of the window. -/
def Silent {α : Type} (b : CircularBuffer α) (packetIds : List Nat) : Prop :=
  (∀ id ∈ packetIds, id < b.absTail) ∨
    ∃ id ∈ packetIds, b.absTail ≤ id ∧ ∃ n, Cached b n ∧ id ≤ n

/-- The number that a receiver reads from a datagram. -/
def carried (datagram : List UInt8) : Nat :=
  (AudioPacket.ofBuffer datagram (datagram.length - 16)).firstByteNum

/-- The answers are exactly the cached packets that were asked for, in increasing order. -/
structure SendsRequested (sessionId : Nat) (cache : CircularBuffer UInt8) (req : RexmitRequest)
    (answers : List (SockAddr × List UInt8)) : Prop where
  sends : ∀ fuel, cache.windowLen < fuel →
    handleRetransmission fuel sessionId cache req = .ok answers
  increasing : (answers.map fun answer => carried answer.2).Pairwise (· < ·)
  carried_iff : ∀ n, (n ∈ answers.map fun answer => carried answer.2) ↔
    n ∈ req.packetIds ∧ Cached cache n

/-- Every answer is a datagram that was sent before. -/
structure SendsOriginals (sessionId : Nat) (s : AudioSender UInt8) (req : RexmitRequest)
    (answers : List (SockAddr × List UInt8)) : Prop where
  sends : ∀ fuel, s.packetCache.windowLen < fuel →
    handleRetransmission fuel sessionId s.packetCache req = .ok answers
  original : ∀ answer ∈ answers, ∃ packet ∈ s.sent, answer.2 = packet.bytes

/-- The slot at the head under the number of the next packet happens to be a packet that was
sent: both words of its header read the same from either end. -/
def Coincides (sessionId : Nat) (s : AudioSender UInt8) : Prop :=
  (storeWord sessionId).reverse = storeWord sessionId ∧
    ∃ packet ∈ s.sent,
      storeWord packet.firstByteNum = (storeWord s.packetCache.absHead).reverse ∧
      packet.audioData = slice s.packetCache.data s.packetCache.head s.packetCache.psize

/-! ## The walk -/

section Walk

variable {b : CircularBuffer UInt8} {id : Nat}

/-- The number with which the walk reaches slot `k` of the window. -/
def walkedNum (b : CircularBuffer UInt8) (k : Nat) : Nat := wadd b.absTail (k * b.psize)

theorem walkedNum_succ (b : CircularBuffer UInt8) (k : Nat) :
    wadd (walkedNum b k) b.psize = walkedNum b (k + 1) := by
  rw [walkedNum, walkedNum, wadd, wadd, wadd, Nat.mod_add_mod, Nat.add_assoc, Nat.add_mul,
    Nat.one_mul]

theorem walkedNum_windowLen (h : Ring b) (hword : b.absHead < 2 ^ 64) (hrange : b.range < 2 ^ 63) :
    walkedNum b b.windowLen = b.absHead := by
  rw [walkedNum, windowLen_mul h, absTail, wadd, wsub]
  omega

theorem walkedNum_ne_absHead (h : Ring b) (hword : b.absHead < 2 ^ 64) (hrange : b.range < 2 ^ 63)
    {k : Nat} (hk : k < b.windowLen) : walkedNum b k ≠ b.absHead := by
  have hlt := mul_psize_lt_range h hk
  rw [walkedNum, absTail, wadd, wsub]
  omega

/-- The walk from slot `k` on stops at the first slot whose number is not below `id`, or at the
head. -/
theorem walkCache_windowSlot (id : Nat) (h : Ring b) (hword : b.absHead < 2 ^ 64)
    (hrange : b.range < 2 ^ 63) {k n : Nat} (hkn : k + n = b.windowLen) {fuel : Nat}
    (hfuel : n < fuel) :
    ∃ j, k ≤ j ∧ j ≤ b.windowLen ∧
      walkCache b id fuel (walkedNum b k, b.windowSlot k) =
        .ok (walkedNum b j, b.windowSlot j) ∧
      (∀ i, k ≤ i → i < j → walkedNum b i < id) ∧ (j < b.windowLen → id ≤ walkedNum b j) := by
  induction n generalizing k fuel with
  | zero =>
      obtain rfl : k = b.windowLen := hkn
      obtain ⟨fuel, rfl⟩ := Nat.exists_eq_succ_of_ne_zero hfuel.ne'
      refine ⟨b.windowLen, le_rfl, le_rfl, ?_, fun i hi hlt => by omega,
        fun hlt => absurd hlt (Nat.lt_irrefl _)⟩
      rw [walkCache, if_neg]
      exact fun hne => hne.1 (walkedNum_windowLen h hword hrange)
  | succ n ih =>
      obtain ⟨fuel, rfl⟩ := Nat.exists_eq_succ_of_ne_zero (Nat.ne_of_gt (Nat.zero_lt_of_lt hfuel))
      have hhead := walkedNum_ne_absHead h hword hrange (show k < b.windowLen by omega)
      rcases Nat.lt_or_ge (walkedNum b k) id with hbelow | hstop
      · have hcap := h.psize_pos.trans_le h.psize_le_roundedCap
        obtain ⟨j, hkj, hj, hwalk, hpassed, hstops⟩ := ih (k := k + 1) (by omega)
          (Nat.lt_of_succ_lt_succ hfuel)
        refine ⟨j, by omega, hj, ?_, fun i hi hij => ?_, hstops⟩
        · rw [walkCache, if_pos ⟨hhead, hbelow⟩, check, if_pos h.psize_pos.ne', check,
            if_pos hcap.ne', walkedNum_succ, windowSlot_succ]
          exact hwalk
        · rcases Nat.eq_or_lt_of_le hi with rfl | hi
          · exact hbelow
          · exact hpassed i hi hij
      · refine ⟨k, le_rfl, by omega, ?_, fun i hi hik => by omega, fun _ => hstop⟩
        rw [walkCache, if_neg]
        exact fun hne => absurd hne.2 (Nat.not_lt.mpr hstop)

end Walk

/-! ## What a request sends -/

/-- What is sent for every number that is not dropped. -/
def staleAnswer (sessionId : Nat) (b : CircularBuffer UInt8) : List UInt8 :=
  storeWord sessionId ++ storeWord b.absHead ++ slice b.data b.head b.psize

/-- The numbers that remain after those below the tail. -/
def inReach (absTail : Nat) (packetIds : List Nat) : List Nat :=
  (packetIds.insertionSort (· ≤ ·)).dropWhile fun id => id < absTail

theorem inReach_eq_nil_iff {absTail : Nat} {packetIds : List Nat} :
    inReach absTail packetIds = [] ↔ ∀ id ∈ packetIds, id < absTail := by
  simp [inReach, List.dropWhile_eq_nil_iff]

/-- The first of them is the least. -/
theorem least_of_inReach {absTail first : Nat} {packetIds rest : List Nat}
    (h : inReach absTail packetIds = first :: rest) :
    first ∈ packetIds ∧ absTail ≤ first ∧ ∀ id ∈ packetIds, absTail ≤ id → first ≤ id := by
  unfold inReach at h
  have hsplit := List.takeWhile_append_dropWhile (p := fun id => decide (id < absTail))
    (l := packetIds.insertionSort (· ≤ ·))
  rw [h] at hsplit
  have hmem (id : Nat) : id ∈ packetIds ↔
      id ∈ (packetIds.insertionSort (· ≤ ·)).takeWhile (fun id => decide (id < absTail)) ∨
        id ∈ first :: rest := by
    rw [← List.mem_append, hsplit, List.mem_insertionSort]
  have hfirst := List.head?_dropWhile_not (fun id => decide (id < absTail))
    (packetIds.insertionSort (· ≤ ·))
  rw [h] at hfirst
  refine ⟨(hmem first).mpr (.inr List.mem_cons_self), by simpa using hfirst, fun id hid hle => ?_⟩
  rcases (hmem id).mp hid with hdropped | hkept
  · have hlt := List.mem_takeWhile_imp hdropped
    simp only [decide_eq_true_eq] at hlt
    omega
  · have hsorted := List.pairwise_insertionSort (· ≤ ·) packetIds
    rw [← hsplit] at hsorted
    rcases List.mem_cons.mp hkept with rfl | hrest
    · exact le_rfl
    · exact List.rel_of_pairwise_cons (List.pairwise_append.mp hsorted).2.1 hrest

/-- At the head the walk stays. -/
theorem walkCache_absHead {b : CircularBuffer UInt8} {id fuel : Nat} (hfuel : 0 < fuel) :
    walkCache b id fuel (b.absHead, b.head) = .ok (b.absHead, b.head) := by
  obtain ⟨fuel, rfl⟩ := Nat.exists_eq_succ_of_ne_zero hfuel.ne'
  rw [walkCache, if_neg]
  exact fun hne => hne.1 rfl

/-- At the head every further number is answered the same. -/
theorem answerFrom_absHead {b : CircularBuffer UInt8} {fuel : Nat} (sessionId : Nat)
    (receiverAddr : SockAddr) (hfuel : 0 < fuel) (hread : b.head + b.psize ≤ b.capacity)
    (ids : List Nat) :
    answerFrom fuel sessionId b receiverAddr ids (b.absHead, b.head) =
      .ok (ids.map fun _ => (receiverAddr, staleAnswer sessionId b)) := by
  induction ids with
  | nil => rfl
  | cons id ids ih =>
      have hwalk : walkCache b id fuel (b.absHead, b.head) = .ok (b.absHead, b.head) :=
        walkCache_absHead hfuel
      have hdata : b.readData b.head b.psize = .ok (slice b.data b.head b.psize) :=
        readData_eq_ok_iff.mpr ⟨hread, rfl⟩
      simp only [answerFrom, hwalk, hdata, ih, bind, Except.bind, pure, Except.pure, ne_eq,
        not_true_eq_false, if_false]
      rfl

section Request

variable {s : AudioSender UInt8} {sessionId : Nat} {req : RexmitRequest}

theorem Fitting.range_lt (h : Fitting s) : s.packetCache.range < 2 ^ 63 :=
  h.ring.range_le.trans_lt h.roundedCap_lt

/-- The numbers of the window do not wrap around. -/
theorem Fitting.walkedNum_eq (h : Fitting s) {k : Nat} (hk : k < s.packetCache.windowLen) :
    walkedNum s.packetCache k = s.packetCache.absTail + k * s.packetCache.psize := by
  have hword := h.absHead_lt
  have hle : k * s.packetCache.psize + s.packetCache.psize ≤ s.packetCache.range := by
    rw [← windowLen_mul h.ring, ← Nat.succ_mul]
    exact Nat.mul_le_mul_right _ hk
  apply wadd_of_lt
  rcases h.phase with hgrow | hfrozen
  · have hrange := hgrow.range_le
    have hpos := h.ring.psize_pos
    rw [absTail, wsub_of_le hrange hword]
    omega
  · have habs := hfrozen.absHead_lt
    have hpsize := hfrozen.psize_le
    have hrange := h.range_lt
    rw [absTail, wsub_of_lt (habs.trans_le hpsize)]
    omega

/-- The walk from the tail. -/
theorem Fitting.walkCache_tail (h : Fitting s) (id : Nat) {fuel : Nat}
    (hfuel : s.packetCache.windowLen < fuel) :
    ∃ j ≤ s.packetCache.windowLen,
      walkCache s.packetCache id fuel (s.packetCache.absTail, s.packetCache.tail) =
        .ok (walkedNum s.packetCache j, s.packetCache.windowSlot j) ∧
      (∀ i < j, walkedNum s.packetCache i < id) ∧
      (j < s.packetCache.windowLen → id ≤ walkedNum s.packetCache j) := by
  have hstart : walkedNum s.packetCache 0 = s.packetCache.absTail := by
    have hword : s.packetCache.absTail < 2 ^ 64 := by
      unfold absTail wsub
      exact Nat.mod_lt _ (by decide)
    rw [walkedNum, Nat.zero_mul, wadd, Nat.add_zero, Nat.mod_eq_of_lt hword]
  obtain ⟨j, -, hj, hwalk, hpassed, hstops⟩ := walkCache_windowSlot id h.ring h.absHead_lt
    h.range_lt (Nat.zero_add _) hfuel
  rw [hstart, windowSlot_zero h.ring] at hwalk
  exact ⟨j, hj, hwalk, fun i hi => hpassed i (Nat.zero_le i) hi, hstops⟩

theorem Fitting.answers_of_silent (h : Fitting s) (hsilent : Silent s.packetCache req.packetIds)
    {fuel : Nat} (hfuel : s.packetCache.windowLen < fuel) :
    handleRetransmission fuel sessionId s.packetCache req = .ok [] := by
  unfold handleRetransmission
  rw [h.ring.checkRange_eq]
  change answerFrom fuel sessionId s.packetCache req.receiverAddr
    (inReach s.packetCache.absTail req.packetIds) _ = .ok []
  cases hreach : inReach s.packetCache.absTail req.packetIds with
  | nil => rfl
  | cons first rest =>
      obtain ⟨hfirst, htail, hleast⟩ := least_of_inReach hreach
      rcases hsilent with hbelow | ⟨id, hid, hle, n, ⟨k, hk, rfl⟩, hidn⟩
      · exact absurd (hbelow first hfirst) (Nat.not_lt.mpr htail)
      · obtain ⟨j, hj, hwalk, hpassed, -⟩ := h.walkCache_tail first hfuel
        -- the walk cannot have passed the slot of `n`
        have hjk : j ≤ k := by
          by_contra hlt
          have hbefore := hpassed k (by omega)
          have := hleast id hid hle
          rw [h.walkedNum_eq hk] at hbefore
          omega
        have hne : walkedNum s.packetCache j ≠ s.packetCache.absHead :=
          walkedNum_ne_absHead h.ring h.absHead_lt h.range_lt (hjk.trans_lt hk)
        simp only [answerFrom, hwalk, bind, Except.bind, if_pos hne]
        rfl

theorem Fitting.answers_of_not_silent (sessionId : Nat) (h : Fitting s)
    (hsilent : ¬Silent s.packetCache req.packetIds) {fuel : Nat}
    (hfuel : s.packetCache.windowLen < fuel) :
    inReach s.packetCache.absTail req.packetIds ≠ [] ∧
      handleRetransmission fuel sessionId s.packetCache req =
        .ok ((inReach s.packetCache.absTail req.packetIds).map fun _ =>
          (req.receiverAddr, staleAnswer sessionId s.packetCache)) := by
  obtain ⟨hsome, hnone⟩ := not_or.mp hsilent
  refine ⟨mt inReach_eq_nil_iff.mp hsome, ?_⟩
  have hread : s.packetCache.head + s.packetCache.psize ≤ s.packetCache.capacity :=
    (h.ring.head_add_le h.head_lt).trans (roundedCap_le _)
  have hall := answerFrom_absHead sessionId req.receiverAddr (Nat.zero_lt_of_lt hfuel) hread
  unfold handleRetransmission
  rw [h.ring.checkRange_eq]
  change answerFrom fuel sessionId s.packetCache req.receiverAddr
    (inReach s.packetCache.absTail req.packetIds) _ = _
  cases hreach : inReach s.packetCache.absTail req.packetIds with
  | nil => rfl
  | cons first rest =>
      obtain ⟨hfirst, htail, -⟩ := least_of_inReach hreach
      obtain ⟨j, hj, hwalk, -, hstops⟩ := h.walkCache_tail first hfuel
      have hend : j = s.packetCache.windowLen := by
        by_contra hne
        have hlt : j < s.packetCache.windowLen := lt_of_le_of_ne hj hne
        have hle := hstops hlt
        rw [h.walkedNum_eq hlt] at hle
        exact hnone ⟨first, hfirst, htail, _, ⟨j, hlt, rfl⟩, hle⟩
      -- from the head on the rest is answered like the first
      rw [hend, walkedNum_windowLen h.ring h.absHead_lt h.range_lt,
        windowSlot_windowLen h.ring h.head_lt] at hwalk
      rw [← hall (first :: rest)]
      simp only [answerFrom, hwalk, walkCache_absHead (Nat.zero_lt_of_lt hfuel)]

theorem Unfit.windowLen_eq (h : Unfit s) : s.packetCache.windowLen = 0 := by
  rw [windowLen, h.range_eq, Nat.zero_div]

theorem Unfit.not_cached (h : Unfit s) (n : Nat) : ¬Cached s.packetCache n := by
  rintro ⟨k, hk, -⟩
  rw [h.windowLen_eq] at hk
  exact Nat.not_lt_zero k hk

/-- Over a cache that is too small only a request without numbers is silent. -/
theorem Unfit.silent_iff (h : Unfit s) :
    Silent s.packetCache req.packetIds ↔ req.packetIds = [] := by
  constructor
  · rintro (hbelow | ⟨id, -, -, n, hn, -⟩)
    · apply List.eq_nil_iff_forall_not_mem.mpr
      intro id hid
      have hlt := hbelow id hid
      rw [h.absTail_eq] at hlt
      exact Nat.not_lt_zero id hlt
    · exact absurd hn (h.not_cached n)
  · intro hnil
    rw [hnil]
    exact .inl (by simp)

/-- The first number makes it copy past the array. -/
theorem Unfit.answers_nil_iff (h : Unfit s) {fuel : Nat} (hfuel : 0 < fuel)
    {answers : List (SockAddr × List UInt8)} :
    handleRetransmission fuel sessionId s.packetCache req = .ok answers ↔
      req.packetIds = [] ∧ answers = [] := by
  have hcheck : s.packetCache.checkRange = .ok () := by
    simp [checkRange, h.tail_eq, h.head_eq]
  have hreach : inReach s.packetCache.absTail req.packetIds = [] ↔ req.packetIds = [] := by
    rw [inReach_eq_nil_iff, h.absTail_eq, List.eq_nil_iff_forall_not_mem]
    simp
  unfold handleRetransmission
  rw [hcheck]
  change answerFrom fuel sessionId s.packetCache req.receiverAddr
    (inReach s.packetCache.absTail req.packetIds) _ = _ ↔ _
  rw [← hreach]
  cases inReach s.packetCache.absTail req.packetIds with
  | nil => simp [answerFrom, eq_comm]
  | cons first rest =>
      have hstart : (s.packetCache.absTail, s.packetCache.tail) =
          (s.packetCache.absHead, s.packetCache.head) := by
        rw [h.absTail_eq, h.absHead_eq, h.tail_eq, h.head_eq]
      have hread : s.packetCache.readData s.packetCache.head s.packetCache.psize =
          .error .outOfBounds := by
        simp [readData, check, h.head_eq, Nat.not_le.mpr h.lt, bind, Except.bind]
      rw [hstart]
      simp [answerFrom, walkCache_absHead hfuel, hread, bind, Except.bind]

end Request

section Reached

variable {psize fsize sessionId : Nat} {s₀ s : AudioSender UInt8} {chunks : List (List UInt8)}

/-- Three packets of one byte. -/
def threePackets : List (List UInt8) := [[10], [11], [12]]

/-- In every state that a run reaches, the answers are right exactly when no number of a cached
packet is asked for and the walk gives up, so that nothing is sent. -/
theorem answers_iff (hpos : 0 < psize)
    (hinit : AudioSender.init psize fsize sessionId = some s₀)
    (hrun : chunks.foldlM AudioSender.readChunk s₀ = .ok s) (req : RexmitRequest) :
    (∃ answers, SendsRequested sessionId s.packetCache req answers) ↔
      (∀ n ∈ req.packetIds, ¬Cached s.packetCache n) ∧ Silent s.packetCache req.packetIds := by
  have hsilence (hnone : ∀ n ∈ req.packetIds, ¬Cached s.packetCache n)
      (hsends : ∀ fuel, s.packetCache.windowLen < fuel →
        handleRetransmission fuel sessionId s.packetCache req = .ok []) :
      SendsRequested sessionId s.packetCache req [] :=
    ⟨hsends, .nil, fun n => by simpa using hnone n⟩
  rcases (reachedSender_run hpos hinit hrun).cache with hfit | hunfit
  · constructor
    · rintro ⟨answers, hsends⟩
      have hsent := hsends.sends _ (Nat.lt_succ_self _)
      by_cases hsilent : Silent s.packetCache req.packetIds
      · refine ⟨fun n hn hcached => ?_, hsilent⟩
        rw [hfit.answers_of_silent hsilent (Nat.lt_succ_self _)] at hsent
        obtain rfl := Except.ok.inj hsent
        exact List.not_mem_nil ((hsends.carried_iff n).mpr ⟨hn, hcached⟩)
      · -- the first answer would be a cached packet that was asked for
        obtain ⟨hreach, heq⟩ :=
          hfit.answers_of_not_silent sessionId hsilent (Nat.lt_succ_self _)
        obtain rfl := Except.ok.inj (heq.symm.trans hsent)
        obtain ⟨first, rest, hfirst⟩ := List.exists_cons_of_ne_nil hreach
        obtain ⟨hmem, n, hn, hcached⟩ := (hsends.carried_iff _).mp
          (List.mem_map_of_mem (List.mem_map_of_mem (hfirst ▸ List.mem_cons_self)))
        refine absurd (.inr ⟨_, hmem, ?_, _, ⟨n, hn, hcached⟩, le_rfl⟩) hsilent
        rw [hcached]
        exact Nat.le_add_right _ _
    · rintro ⟨hnone, hsilent⟩
      exact ⟨[], hsilence hnone fun fuel hfuel => hfit.answers_of_silent hsilent hfuel⟩
  · have hfuel {fuel : Nat} (h : s.packetCache.windowLen < fuel) : 0 < fuel :=
      Nat.zero_lt_of_lt h
    rw [hunfit.silent_iff]
    constructor
    · rintro ⟨answers, hsends⟩
      have hsent := hsends.sends _ (Nat.lt_succ_self _)
      exact ⟨fun n _ => hunfit.not_cached n,
        ((hunfit.answers_nil_iff (hfuel (Nat.lt_succ_self _))).mp hsent).1⟩
    · rintro ⟨hnone, hnil⟩
      exact ⟨[], hsilence hnone fun fuel h => (hunfit.answers_nil_iff (hfuel h)).mpr ⟨hnil, rfl⟩⟩

theorem answers_iff_three_packets :
    ∃ s₀, AudioSender.init 1 4 7 = some s₀ ∧
      ∃ s, threePackets.foldlM AudioSender.readChunk s₀ = .ok s ∧
        ((∃ answers, SendsRequested 7 s.packetCache ⟨⟨1, 2⟩, [1]⟩ answers) ↔
          (∀ n ∈ [1], ¬Cached s.packetCache n) ∧ Silent s.packetCache [1]) :=
  ⟨_, rfl, exists_ok_and (by decide) fun _ hrun =>
    answers_iff Nat.one_pos (show AudioSender.init 1 4 7 = some _ from rfl) hrun ⟨⟨1, 2⟩, [1]⟩⟩

/-- Packet 1 is in the cache and asked for, and nothing is sent. -/
theorem cached_packet_not_sent :
    ∃ s₀, AudioSender.init 1 4 7 = some s₀ ∧
      ∃ s, threePackets.foldlM AudioSender.readChunk s₀ = .ok s ∧
        Cached s.packetCache 1 ∧
        handleRetransmission 4 7 s.packetCache ⟨⟨1, 2⟩, [1]⟩ = .ok [] ∧
        ¬∃ answers, SendsRequested 7 s.packetCache ⟨⟨1, 2⟩, [1]⟩ answers := by
  refine ⟨_, rfl, exists_ok_and (by decide) fun s hrun => ?_⟩
  have hfields := eq_of_toOption_map (v := (3, 0, 1))
    (fun s => (s.packetCache.windowLen, s.packetCache.absTail, s.packetCache.psize)) (by decide)
    hrun
  obtain ⟨hlen, htail, hpsize⟩ : s.packetCache.windowLen = 3 ∧ s.packetCache.absTail = 0 ∧
      s.packetCache.psize = 1 := by simpa using hfields
  have hsent := eq_ok_of_toOption (eq_of_toOption_map (v := some [])
    (fun s => (handleRetransmission 4 7 s.packetCache ⟨⟨1, 2⟩, [1]⟩).toOption) (by decide) hrun)
  have hcached : Cached s.packetCache 1 := ⟨1, by omega, by omega⟩
  refine ⟨hcached, hsent, ?_⟩
  rintro ⟨answers, hsends⟩
  obtain rfl := Except.ok.inj (hsent.symm.trans (hsends.sends 4 (by omega)))
  exact List.not_mem_nil ((hsends.carried_iff 1).mpr ⟨List.mem_singleton_self 1, hcached⟩)

theorem bigEndian_eq (x : Nat) : bigEndian 8 x = (storeWord x).reverse := by
  rw [bigEndian, storeWord_eq_littleEndian]

/-- Only the lowest eight bytes are stored. -/
theorem storeWord_mod (x : Nat) : storeWord (x % 2 ^ 64) = storeWord x := by
  apply List.map_congr_left
  intro i hi
  have hlt : i < 8 := List.mem_range.mp hi
  apply UInt8.toNat_inj.mp
  rw [UInt8.toNat_ofNat', UInt8.toNat_ofNat']
  interval_cases i <;> omega

/-- The stale datagram is a packet that was sent only by coincidence. -/
theorem staleAnswer_eq_bytes_iff (h : ReachedSender psize fsize sessionId s) :
    (∃ packet ∈ s.sent, staleAnswer sessionId s.packetCache = packet.bytes) ↔
      Coincides sessionId s := by
  have hsplit (packet : AudioPacket UInt8) (hmem : packet ∈ s.sent) :
      staleAnswer sessionId s.packetCache = packet.bytes ↔
        (storeWord sessionId).reverse = storeWord sessionId ∧
          storeWord packet.firstByteNum = (storeWord s.packetCache.absHead).reverse ∧
          packet.audioData = slice s.packetCache.data s.packetCache.head s.packetCache.psize := by
    rw [packet.bytes_eq, (h.sent packet hmem).1, bigEndian_eq, bigEndian_eq, storeWord_mod,
      staleAnswer]
    constructor
    · intro heq
      obtain ⟨hheader, hdata⟩ := List.append_inj heq (by simp [storeWord])
      obtain ⟨hsession, hnumber⟩ := List.append_inj hheader (by simp [storeWord])
      refine ⟨hsession.symm, ?_, hdata.symm⟩
      rw [hnumber, List.reverse_reverse]
    · rintro ⟨hsession, hnumber, hdata⟩
      rw [hsession, hnumber, List.reverse_reverse, hdata]
  constructor
  · rintro ⟨packet, hmem, heq⟩
    obtain ⟨hsession, hnumber, hdata⟩ := (hsplit packet hmem).mp heq
    exact ⟨hsession, packet, hmem, hnumber, hdata⟩
  · rintro ⟨hsession, packet, hmem, hnumber, hdata⟩
    exact ⟨packet, hmem, (hsplit packet hmem).mpr ⟨hsession, hnumber, hdata⟩⟩

/-- In every state that a run reaches, the answers are datagrams that were sent before exactly
when nothing is sent or the stale datagram coincides with one. -/
theorem originals_iff (hpos : 0 < psize)
    (hinit : AudioSender.init psize fsize sessionId = some s₀)
    (hrun : chunks.foldlM AudioSender.readChunk s₀ = .ok s) (req : RexmitRequest) :
    (∃ answers, SendsOriginals sessionId s req answers) ↔
      Silent s.packetCache req.packetIds ∨ Coincides sessionId s := by
  have hreached := reachedSender_run hpos hinit hrun
  rcases hreached.cache with hfit | hunfit
  · by_cases hsilent : Silent s.packetCache req.packetIds
    · exact iff_of_true ⟨[], fun _ hfuel => hfit.answers_of_silent hsilent hfuel, by simp⟩
        (.inl hsilent)
    · have hstale {fuel : Nat} (hfuel : s.packetCache.windowLen < fuel) :=
        hfit.answers_of_not_silent sessionId hsilent hfuel
      rw [or_iff_right hsilent, ← staleAnswer_eq_bytes_iff hreached]
      constructor
      · rintro ⟨answers, hsends⟩
        obtain ⟨hreach, heq⟩ := hstale (Nat.lt_succ_self _)
        obtain rfl := Except.ok.inj (heq.symm.trans (hsends.sends _ (Nat.lt_succ_self _)))
        obtain ⟨first, rest, hfirst⟩ := List.exists_cons_of_ne_nil hreach
        exact hsends.original _ (List.mem_map_of_mem (hfirst ▸ List.mem_cons_self))
      · intro horiginal
        refine ⟨_, fun fuel hfuel => (hstale hfuel).2, fun answer hanswer => ?_⟩
        obtain ⟨id, -, rfl⟩ := List.mem_map.mp hanswer
        exact horiginal
  · have hfuel {fuel : Nat} (h : s.packetCache.windowLen < fuel) : 0 < fuel :=
      Nat.zero_lt_of_lt h
    have hnever : ¬Coincides sessionId s := by
      rintro ⟨-, packet, hmem, -⟩
      rw [hunfit.sent_eq] at hmem
      exact List.not_mem_nil hmem
    rw [or_iff_left hnever, hunfit.silent_iff]
    constructor
    · rintro ⟨answers, hsends⟩
      have hsent := hsends.sends _ (Nat.lt_succ_self _)
      exact ((hunfit.answers_nil_iff (hfuel (Nat.lt_succ_self _))).mp hsent).1
    · intro hnil
      exact ⟨[], fun fuel h => (hunfit.answers_nil_iff (hfuel h)).mpr ⟨hnil, rfl⟩, by simp⟩

theorem originals_iff_three_packets :
    ∃ s₀, AudioSender.init 1 4 7 = some s₀ ∧
      ∃ s, threePackets.foldlM AudioSender.readChunk s₀ = .ok s ∧
        ((∃ answers, SendsOriginals 7 s ⟨⟨1, 2⟩, [3]⟩ answers) ↔
          Silent s.packetCache [3] ∨ Coincides 7 s) :=
  ⟨_, rfl, exists_ok_and (by decide) fun _ hrun =>
    originals_iff Nat.one_pos (show AudioSender.init 1 4 7 = some _ from rfl) hrun
      ⟨⟨1, 2⟩, [3]⟩⟩

/-- Packet 3 was not sent yet. Asked for it, the sender sends the empty slot at the head after a
header in host order. -/
theorem answer_is_no_original :
    ∃ s₀, AudioSender.init 1 4 7 = some s₀ ∧
      ∃ s, threePackets.foldlM AudioSender.readChunk s₀ = .ok s ∧
        handleRetransmission 4 7 s.packetCache ⟨⟨1, 2⟩, [3]⟩ =
          .ok [(⟨1, 2⟩, [7, 0, 0, 0, 0, 0, 0, 0, 3, 0, 0, 0, 0, 0, 0, 0, 0])] ∧
        ¬∃ answers, SendsOriginals 7 s ⟨⟨1, 2⟩, [3]⟩ answers := by
  refine ⟨_, rfl, exists_ok_and (by decide) fun s hrun => ?_⟩
  have hlen := eq_of_toOption_map (v := 3) (fun s => s.packetCache.windowLen) (by decide) hrun
  have hsent := eq_ok_of_toOption (eq_of_toOption_map
    (v := some [(⟨1, 2⟩, [7, 0, 0, 0, 0, 0, 0, 0, 3, 0, 0, 0, 0, 0, 0, 0, 0])])
    (fun s => (handleRetransmission 4 7 s.packetCache ⟨⟨1, 2⟩, [3]⟩).toOption) (by decide) hrun)
  have hpackets := eq_of_toOption_map
    (v := [0, 1, 2].map fun n => [0, 0, 0, 0, 0, 0, 0, 7, 0, 0, 0, 0, 0, 0, 0, n, n + 10])
    (fun s => s.sent.map AudioPacket.bytes) (by decide) hrun
  refine ⟨hsent, ?_⟩
  rintro ⟨answers, hsends⟩
  obtain rfl := Except.ok.inj (hsent.symm.trans (hsends.sends 4 (by omega)))
  obtain ⟨packet, hmem, hbytes⟩ := hsends.original _ (List.mem_singleton_self _)
  have hmap := List.mem_map_of_mem (f := AudioPacket.bytes) hmem
  rw [hpackets, ← hbytes] at hmap
  exact absurd hmap (by decide)

end Reached

end SikRadio.Sender
