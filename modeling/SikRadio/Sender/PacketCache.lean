import SikRadio.Common.PutFaults
import SikRadio.Common.WindowWalk
import SikRadio.Sender.AudioSender

/-!
# The stream and the cache of the sender

However `read` splits the input, the packets sent are the consecutive blocks of
the input, and the cache holds the last of them, one fewer than fit.
-/

namespace SikRadio.Sender

open SikRadio.Common SikRadio.Common.CircularBuffer
open Foundations Foundations.CheckedRuns Foundations.MemoryCells Foundations.RingOffsets
open Foundations.Word64

variable {α : Type}

/-- Block `k` of the input. -/
def payload (psize : Nat) (input : List α) (k : Nat) : List α :=
  (input.drop (k * psize)).take psize

/-- The first `n` packets of the input. -/
def packets (psize sessionId : Nat) (input : List α) (n : Nat) : List (AudioPacket α) :=
  (List.range n).map fun k =>
    AudioPacket.ofWords sessionId (k * psize) (payload psize input k)

/-- How many packets the cache holds after `n` packets: one fewer than fit. -/
def cached (psize fsize n : Nat) : Nat := min n (fsize / psize - 1)

section Blocks

variable {psize n k : Nat} {input chunk : List α}

/-- A complete block stays as it is when the input goes on. -/
theorem payload_append (h : (k + 1) * psize ≤ input.length) :
    payload psize (input ++ chunk) k = payload psize input k := by
  have hmul : (k + 1) * psize = k * psize + psize := by ring
  unfold payload
  rw [List.drop_append_of_le_length (by omega), List.take_append_of_le_length]
  rw [List.length_drop]
  omega

theorem length_payload (h : (k + 1) * psize ≤ input.length) :
    (payload psize input k).length = psize := by
  have hmul : (k + 1) * psize = k * psize + psize := by ring
  unfold payload
  rw [List.length_take, List.length_drop]
  omega

theorem packets_append {sessionId : Nat} (h : n * psize ≤ input.length) :
    packets psize sessionId (input ++ chunk) n = packets psize sessionId input n := by
  apply List.map_congr_left
  intro k hk
  have hk : k + 1 ≤ n := List.mem_range.mp hk
  rw [payload_append ((Nat.mul_le_mul_right psize hk).trans h)]

theorem packets_succ {sessionId : Nat} :
    packets psize sessionId input (n + 1) = packets psize sessionId input n ++
      [AudioPacket.ofWords sessionId (n * psize) (payload psize input n)] := by
  simp [packets, List.range_succ]

end Blocks

/-- The slot reached from the tail in `j` steps of one packet. -/
def stepped (b : CircularBuffer α) (j : Nat) : Nat :=
  (fun i => (i + b.psize) % b.roundedCap)^[j] b.tail

theorem stepped_eq_slot {b : CircularBuffer α} (h : Ring b) (j : Nat) :
    stepped b j = b.slot (j * b.psize) :=
  iterate_eq_windowSlot h j

variable [Zero α]

/-- The cache after `n` packets of the input: the window is the last ones of them, and each
slot of the window holds its packet. -/
structure Caches (psize fsize : Nat) (input : List α) (n : Nat) (b : CircularBuffer α) :
    Prop where
  absHead_eq : b.absHead = n * psize
  absTail_eq : b.absTail = (n - cached psize fsize n) * psize
  slots : ∀ k, n - cached psize fsize n ≤ k → k < n →
    b.occupied (stepped b (k - (n - cached psize fsize n))) = true ∧
      slice b.data (stepped b (k - (n - cached psize fsize n))) psize = payload psize input k

/-- What the worker has done when `input` has been read. -/
structure Streams (psize fsize sessionId : Nat) (input : List α) (s : AudioSender α) : Prop where
  sent_eq : s.sent = packets psize sessionId input (input.length / psize)
  caches : Caches psize fsize input (input.length / psize) s.packetCache

/-! ## The cache -/

theorem sub_cached (psize fsize n : Nat) :
    n - cached psize fsize n = n - (fsize / psize - 1) := by
  unfold cached
  omega

/-- A cache of one packet: its window is empty, and its slot is overwritten each time. -/
structure Single (n : Nat) (b : CircularBuffer α) : Prop where
  ring : Ring b
  one : b.roundedCap = b.psize
  head_eq : b.head = 0
  tail_eq : b.tail = 0
  absHead_eq : b.absHead = n * b.psize

/-- A cache of several packets, with the window that it represents. -/
structure Several (input : List α) (n : Nat) (w : StreamWindow α) (b : CircularBuffer α) :
    Prop where
  represents : Represents b w
  hi_eq : w.hi = n * b.psize
  lo_eq : w.lo = (n - (b.capacity / b.psize - 1)) * b.psize
  held_eq : ∀ k, n - (b.capacity / b.psize - 1) ≤ k → k < n →
    w.held (k * b.psize) = some (payload b.psize input k)

section Put

variable {input : List α} {n : Nat} {w : StreamWindow α} {b : CircularBuffer α}
  {packet : AudioPacket α}

theorem Single.put (h : Single n b) (hfbn : packet.firstByteNum = n * b.psize)
    (hlen : packet.psize = b.psize) (hword : (n + 1) * b.psize < 2 ^ 64) :
    b.tryPut packet = .ok (b.pushed packet) ∧ Single (n + 1) (b.pushed packet) := by
  have hpos := h.ring.psize_pos
  have habs : b.absHead ≤ packet.firstByteNum := by rw [h.absHead_eq, hfbn]
  have hoffset : b.headOffset packet = 0 := by
    rw [headOffset_eq habs, h.absHead_eq, hfbn, Nat.sub_self]
  have hdvd : b.psize ∣ b.headOffset packet := hoffset ▸ dvd_zero _
  have hround : (0 + 0 + b.psize) % b.roundedCap = 0 := by
    rw [h.one, Nat.add_zero, Nat.zero_add, Nat.mod_self]
  constructor
  · rw [tryPut_of_tail_eq_head (h.tail_eq.trans h.head_eq.symm) habs,
      h.ring.tryPushHead_eq_ok_iff]
    refine ⟨hdvd, Or.inr (Or.inr ⟨?_, ?_, le_of_eq hlen.symm, rfl⟩)⟩
    · rw [hoffset]
      exact Nat.zero_le _
    · rw [hoffset, h.one]
      exact hpos
  · refine ⟨ring_pushed h.ring hdvd, ?_, ?_, ?_, ?_⟩
    · rw [roundedCap_pushed, pushed_psize]
      exact h.one
    · rw [pushed_head, hoffset, h.head_eq, hround]
    · rw [pushed_tail, hoffset, h.head_eq]
      simp only [tailAfterPush, h.tail_eq, h.one, Nat.zero_add, Nat.mod_self, ite_self]
    · rw [pushed_absHead, pushed_psize, hfbn]
      have hmul : (n + 1) * b.psize = n * b.psize + b.psize := by ring
      rw [wadd_of_lt (by omega), hmul]

theorem Several.put (h : Several input n w b) (hfbn : packet.firstByteNum = n * b.psize)
    (hdata : packet.audioData = payload b.psize input n) (hlen : packet.psize = b.psize)
    (hword : (n + 1) * b.psize < 2 ^ 64) :
    b.tryPut packet = .ok (b.pushed packet) ∧
      ∃ w', Several input (n + 1) w' (b.pushed packet) := by
  have hrep := h.represents
  have hmul : (n + 1) * b.psize = n * b.psize + b.psize := by ring
  have hahead : w.hi ≤ packet.firstByteNum := by rw [h.hi_eq, hfbn]
  have hoffset : b.headOffset packet = 0 := by
    rw [headOffset_eq (hrep.hi_eq ▸ hahead), hrep.hi_eq, h.hi_eq, hfbn, Nat.sub_self]
  have hnear : b.headOffset packet ≤ b.psize := hoffset ▸ Nat.zero_le _
  have halign : packet.firstByteNum ≡ w.lo [MOD b.psize] := by
    rw [hfbn, ← h.hi_eq]
    exact hrep.lo_modEq_hi.symm
  have hrep' := hrep.pushed hahead (hrep.dvd_headOffset halign hahead) hnear (le_of_eq hlen.symm)
    (by omega)
  refine ⟨hrep.tryPut_of_ahead halign hahead hnear (le_of_eq hlen.symm), _, hrep', ?_, ?_, ?_⟩
  · rw [pushed_psize]
    change packet.firstByteNum + b.psize = _
    rw [hfbn, hmul]
  · rw [pushed_psize, pushed_capacity, StreamWindow.lo_push, h.lo_eq, hfbn, ← hmul,
      roundedCap_sub_psize, ← Nat.sub_mul]
    exact max_eq_right (Nat.mul_le_mul_right _ (by omega))
  · intro k hk hkn
    rw [pushed_psize, pushed_capacity] at hk
    rw [pushed_psize]
    rcases Nat.eq_or_lt_of_le (Nat.lt_succ_iff.mp hkn) with rfl | hlt
    · rw [← hfbn, StreamWindow.held_push_self, ← hdata, List.take_of_length_le (le_of_eq hlen)]
    · have hlt' : k * b.psize < w.hi := by
        rw [h.hi_eq]
        exact Nat.mul_lt_mul_of_pos_right hlt hrep.ring.psize_pos
      rw [StreamWindow.held_push_of_lt hahead hlt']
      exact h.held_eq k (by omega) hlt

/-- More input does not change what is cached. -/
theorem Several.append (h : Several input n w b) (hn : n * b.psize ≤ input.length)
    (chunk : List α) : Several (input ++ chunk) n w b := by
  refine { h with held_eq := fun k hk hkn => ?_ }
  rw [payload_append ((Nat.mul_le_mul_right _ hkn).trans hn)]
  exact h.held_eq k hk hkn

omit [Zero α] in
theorem Single.caches (h : Single n b) (hword : n * b.psize < 2 ^ 64)
    (hone : b.capacity / b.psize = 1) : Caches b.psize b.capacity input n b := by
  have hcached : n - cached b.psize b.capacity n = n := by
    rw [sub_cached, hone]
    omega
  have hrange : b.range = 0 := by simp [range, h.tail_eq, h.head_eq]
  refine ⟨h.absHead_eq, ?_, fun k hk hkn => ?_⟩
  · rw [hcached, absTail, hrange, h.absHead_eq, wsub_of_le (Nat.zero_le _) hword, Nat.sub_zero]
  · omega

theorem Several.caches (h : Several input n w b) : Caches b.psize b.capacity input n b := by
  have hrep := h.represents
  have hlength := hrep.length_eq
  refine ⟨hrep.hi_eq.trans h.hi_eq, ?_, fun k hk hkn => ?_⟩ <;> rw [sub_cached] at *
  · rw [hrep.absTail_eq, h.lo_eq]
  · have hx : (n - (b.capacity / b.psize - 1)) * b.psize +
        (k - (n - (b.capacity / b.psize - 1))) * b.psize = k * b.psize := by
      rw [← Nat.add_mul, Nat.add_sub_cancel' hk]
    have hlt : k * b.psize < n * b.psize :=
      Nat.mul_lt_mul_of_pos_right hkn hrep.ring.psize_pos
    have hslot := hrep.slots _ (Nat.dvd_mul_left b.psize (k - (n - (b.capacity / b.psize - 1))))
      (by rw [h.lo_eq, h.hi_eq] at hlength; omega)
    rw [h.lo_eq, hx, h.held_eq k hk hkn] at hslot
    rw [stepped_eq_slot hrep.ring]
    exact hslot

end Put

inductive CacheState (input : List α) (n : Nat) (b : CircularBuffer α) : Prop where
  | single (h : Single n b) (hone : b.capacity / b.psize = 1)
  | several (w : StreamWindow α) (h : Several input n w b)

theorem CacheState.append {input : List α} {n : Nat} {b : CircularBuffer α}
    (h : CacheState input n b) (hn : n * b.psize ≤ input.length) (chunk : List α) :
    CacheState (input ++ chunk) n b := by
  cases h with
  | single h hone => exact .single h hone
  | several w h => exact .several w (h.append hn chunk)

/-- Packet `n` of the input is stored. -/
theorem CacheState.put {input : List α} {n : Nat} {b : CircularBuffer α} {packet : AudioPacket α}
    (h : CacheState input n b) (hfbn : packet.firstByteNum = n * b.psize)
    (hdata : packet.audioData = payload b.psize input n) (hlen : packet.psize = b.psize)
    (hword : (n + 1) * b.psize < 2 ^ 64) :
    b.tryPut packet = .ok (b.pushed packet) ∧ CacheState input (n + 1) (b.pushed packet) := by
  cases h with
  | single h hone =>
      obtain ⟨hput, hsingle⟩ := h.put hfbn hlen hword
      exact ⟨hput, .single hsingle (by rw [pushed_capacity, pushed_psize, hone])⟩
  | several w h =>
      obtain ⟨hput, w', hseveral⟩ := h.put hfbn hdata hlen hword
      exact ⟨hput, .several w' hseveral⟩

theorem CacheState.caches {input : List α} {n : Nat} {b : CircularBuffer α}
    (h : CacheState input n b) (hword : n * b.psize < 2 ^ 64) :
    Caches b.psize b.capacity input n b := by
  cases h with
  | single h hone => exact h.caches hword hone
  | several w h => exact h.caches

/-- The cache before the first packet. -/
theorem cacheState_reset {psize fsize : Nat} (hpos : 0 < psize) (hfit : psize ≤ fsize)
    {b : CircularBuffer α} (hnew : CircularBuffer.new fsize = some b) :
    CacheState [] 0 (b.reset psize) := by
  have hzero : b.absHead = 0 ∧ b.byte0 = 0 := new_positions hnew
  obtain ⟨-, hcap, -⟩ := new_fields hnew
  rcases Nat.lt_or_ge fsize (2 * psize) with hone | h2
  · have hdiv : fsize / psize = 1 := Nat.div_eq_of_lt_le (by omega) (by omega)
    refine .single ⟨ring_reset b hpos (hcap ▸ hfit), ?_, rfl, rfl, ?_⟩ ?_
    · change b.capacity / psize * psize = psize
      rw [hcap, hdiv, Nat.one_mul]
    · change b.absHead = 0 * psize
      rw [hzero.1, Nat.zero_mul]
    · change b.capacity / psize = 1
      rw [hcap, hdiv]
  · have hreset : b.reset psize = b.resetAt psize 0 := by
      simp only [resetAt, reset, ← hzero.1]
      rw [hzero.1, ← hzero.2]
    have hrep := represents_resetAt b hpos (hcap ▸ h2) (Nat.two_pow_pos 64)
    rw [hreset]
    exact .several _ ⟨hrep, by simp [StreamWindow.start], by simp [StreamWindow.start],
      fun k _ hk => absurd hk (Nat.not_lt_zero k)⟩

/-! ## The loop -/

/-- The invariant of the loop after `input` was read, with `n` packets sent. -/
structure Sending (psize fsize sessionId n : Nat) (input : List α) (s : AudioSender α) :
    Prop where
  psize_eq : s.psize = psize
  session_eq : s.sessionId = sessionId
  length_eq : n * psize + s.nread = input.length
  nread_lt : s.nread < psize
  buf_eq : slice s.audioBuf 0 s.nread = input.drop (n * psize)
  fbn_eq : s.firstByteNum = n * psize
  sent_eq : s.sent = packets psize sessionId input n
  cache_psize : s.packetCache.psize = psize
  cache_capacity : s.packetCache.capacity = fsize
  cache : CacheState input n s.packetCache

section Loop

variable {psize fsize sessionId n : Nat} {input chunk : List α} {s : AudioSender α}

/-- The bytes collected after a `read`. -/
theorem Sending.slice_blit (h : Sending psize fsize sessionId n input s) :
    slice (blit s.audioBuf s.nread chunk) 0 (s.nread + chunk.length) =
      (input ++ chunk).drop (n * psize) := by
  have hlen := h.length_eq
  rw [slice_add, Nat.zero_add, slice_blit_of_disjoint _ (by omega),
    MemoryCells.slice_blit _ _ rfl, h.buf_eq,
    List.drop_append_of_le_length (by omega)]

/-- A `read` that does not complete a packet. -/
theorem Sending.collect (h : Sending psize fsize sessionId n input s)
    (hpart : s.nread + chunk.length < psize) :
    ∃ s', s.readChunk chunk = .ok s' ∧
      Sending psize fsize sessionId n (input ++ chunk) s' := by
  have hlen := h.length_eq
  refine ⟨{ s with audioBuf := blit s.audioBuf s.nread chunk, nread := s.nread + chunk.length },
    ?_, h.psize_eq, h.session_eq, ?_, hpart, h.slice_blit, h.fbn_eq, ?_, h.cache_psize,
    h.cache_capacity, ?_⟩
  · rw [AudioSender.readChunk, if_neg (by rw [h.psize_eq]; omega)]
    rfl
  · rw [List.length_append, ← hlen, Nat.add_assoc]
  · rw [packets_append (by omega)]
    exact h.sent_eq
  · exact h.cache.append (by rw [h.cache_psize]; omega) chunk

/-- A `read` that completes packet `n`. -/
theorem Sending.complete (h : Sending psize fsize sessionId n input s)
    (hfull : s.nread + chunk.length = psize) (hword : (n + 1) * psize < 2 ^ 64) :
    ∃ s', s.readChunk chunk = .ok s' ∧
      Sending psize fsize sessionId (n + 1) (input ++ chunk) s' := by
  have hlen := h.length_eq
  have hmul : (n + 1) * psize = n * psize + psize := by ring
  have hlen' : (input ++ chunk).length = (n + 1) * psize := by
    rw [List.length_append]
    omega
  have hblock : slice (blit s.audioBuf s.nread chunk) 0 psize =
      payload psize (input ++ chunk) n := by
    rw [← hfull, h.slice_blit, payload, hfull, List.take_of_length_le]
    rw [List.length_drop, hlen']
    omega
  let packet := AudioPacket.ofWords sessionId (n * psize) (payload psize (input ++ chunk) n)
  have hpacket : AudioPacket.ofWords s.sessionId s.firstByteNum
      (slice (blit s.audioBuf s.nread chunk) 0 s.psize) = packet := by
    rw [h.psize_eq, h.session_eq, h.fbn_eq, hblock]
  have hcache := h.cache.append (by rw [h.cache_psize]; omega) chunk
  have hfbn : packet.firstByteNum = n * s.packetCache.psize := by
    rw [h.cache_psize]
    exact Nat.mod_eq_of_lt (by omega)
  have hdata : packet.audioData = payload s.packetCache.psize (input ++ chunk) n := by
    rw [h.cache_psize]
    rfl
  have hpsize : packet.psize = s.packetCache.psize := by
    rw [h.cache_psize]
    exact length_payload (le_of_eq hlen'.symm)
  obtain ⟨hput, hcache'⟩ := hcache.put hfbn hdata hpsize (by rw [h.cache_psize]; exact hword)
  refine ⟨{ s with
    packetCache := s.packetCache.pushed packet
    sent := s.sent ++ [packet]
    firstByteNum := wadd s.firstByteNum s.psize
    audioBuf := fill (blit s.audioBuf s.nread chunk) 0 (s.psize + 1) 0
    nread := 0 }, ?_, h.psize_eq, h.session_eq, ?_, ?_, ?_, ?_, ?_, ?_, ?_, hcache'⟩
  · rw [AudioSender.readChunk, if_pos (by rw [h.psize_eq]; exact hfull), hpacket,
      AudioSender.sendPacket, hput]
    rfl
  · exact hlen'.symm
  · exact lt_of_le_of_lt (Nat.zero_le _) h.nread_lt
  · exact (List.drop_eq_nil_of_le (le_of_eq hlen')).symm
  · change wadd s.firstByteNum s.psize = _
    rw [h.fbn_eq, h.psize_eq, wadd_of_lt (by omega), hmul]
  · change s.sent ++ [packet] = _
    rw [packets_succ, packets_append (by omega), h.sent_eq]
  · rw [pushed_psize]
    exact h.cache_psize
  · rw [pushed_capacity]
    exact h.cache_capacity

theorem Sending.count_eq (h : Sending psize fsize sessionId n input s) :
    input.length / psize = n := by
  have hlt := h.nread_lt
  rw [← h.length_eq, Nat.mul_comm, Nat.mul_add_div (by omega), Nat.div_eq_of_lt hlt,
    Nat.add_zero]

/-- What the invariant says about the packets sent and the cache. -/
theorem Sending.streams (h : Sending psize fsize sessionId n input s)
    (hword : input.length / psize * psize < 2 ^ 64) : Streams psize fsize sessionId input s := by
  have hdiv := h.count_eq
  rw [hdiv] at hword
  refine ⟨hdiv ▸ h.sent_eq, hdiv ▸ ?_⟩
  have hcaches := h.cache.caches (by rw [h.cache_psize]; exact hword)
  rwa [h.cache_psize, h.cache_capacity] at hcaches

/-- The loop over the remaining reads. -/
theorem Sending.run (h : Sending psize fsize sessionId n input s) {chunks : List (List α)}
    (hread : Guarded AudioSender.readChunk AudioSender.ReadReturns s chunks)
    (hword : (input ++ chunks.flatten).length / psize * psize < 2 ^ 64) :
    ∃ s' n', chunks.foldlM AudioSender.readChunk s = .ok s' ∧
      Sending psize fsize sessionId n' (input ++ chunks.flatten) s' := by
  induction chunks generalizing n input s with
  | nil => exact ⟨s, n, rfl, by simpa using h⟩
  | cons chunk chunks ih =>
      obtain ⟨⟨hpos, hle⟩, hrest⟩ := hread
      have hlen := h.length_eq
      have hlt := h.nread_lt
      rw [h.psize_eq] at hle
      rw [List.flatten_cons, ← List.append_assoc] at hword ⊢
      have hstep : ∃ s₁ n₁, s.readChunk chunk = .ok s₁ ∧
          Sending psize fsize sessionId n₁ (input ++ chunk) s₁ := by
        rcases Nat.lt_or_ge (s.nread + chunk.length) psize with hpart | hfull
        · obtain ⟨s₁, hs, h₁⟩ := h.collect hpart
          exact ⟨s₁, n, hs, h₁⟩
        · have hmul : (n + 1) * psize = n * psize + psize := by ring
          have hn : n + 1 ≤ (input ++ chunk ++ chunks.flatten).length / psize := by
            rw [Nat.le_div_iff_mul_le (by omega), List.length_append, List.length_append]
            omega
          have hfull' : s.nread + chunk.length = psize := by omega
          obtain ⟨s₁, hs, h₁⟩ := h.complete hfull'
            (Nat.lt_of_le_of_lt (Nat.mul_le_mul_right psize hn) hword)
          exact ⟨s₁, n + 1, hs, h₁⟩
      obtain ⟨s₁, n₁, hs, h₁⟩ := hstep
      obtain ⟨s', n', hrun, h'⟩ := ih h₁ (hrest s₁ hs) hword
      refine ⟨s', n', ?_, h'⟩
      simp only [List.foldlM_cons, bind_eq_ok_iff]
      exact ⟨s₁, hs, hrun⟩

end Loop

theorem sending_init {psize fsize sessionId : Nat} (hpos : 0 < psize) (hfit : psize ≤ fsize)
    {s : AudioSender α} (hinit : AudioSender.init psize fsize sessionId = some s) :
    Sending psize fsize sessionId 0 [] s := by
  obtain ⟨cache, hnew, rfl⟩ := Option.map_eq_some_iff.mp hinit
  exact ⟨rfl, rfl, by simp, hpos, by simp, by simp, rfl, rfl, (new_fields hnew).2.1,
    cacheState_reset hpos hfit hnew⟩

/-- However `read` splits the input, at every point of the run the packets sent are the
complete blocks of what was read so far, and the cache holds the last of them. -/
theorem sends_the_stream (psize fsize sessionId : Nat) (hpos : 0 < psize)
    (hfit : psize ≤ fsize) {s₀ : AudioSender α}
    (hinit : AudioSender.init psize fsize sessionId = some s₀) (chunks : List (List α))
    (hread : Guarded AudioSender.readChunk AudioSender.ReadReturns s₀ chunks)
    (hword : chunks.flatten.length / psize * psize < 2 ^ 64) :
    ∀ before after, chunks = before ++ after →
      ∃ s, before.foldlM AudioSender.readChunk s₀ = .ok s ∧
        Streams psize fsize sessionId before.flatten s := by
  rintro before after rfl
  have hle : before.flatten.length / psize * psize < 2 ^ 64 := by
    refine Nat.lt_of_le_of_lt (Nat.mul_le_mul_right psize (Nat.div_le_div_right ?_)) hword
    rw [List.flatten_append, List.length_append]
    exact Nat.le_add_right _ _
  obtain ⟨s, n, hrun, hsending⟩ := (sending_init hpos hfit hinit).run
    (Guarded.append_iff.mp hread).1 (by simpa using hle)
  rw [List.nil_append] at hsending
  exact ⟨s, hrun, hsending.streams hle⟩

/-- Five bytes arrive in four reads and make two packets of two bytes. -/
theorem sends_two_packets :
    ∃ s₀, AudioSender.init 2 6 7 = some s₀ ∧ ∀ before after,
      [[10], [11], [12, 13], [(14 : UInt8)]] = before ++ after →
        ∃ s, before.foldlM AudioSender.readChunk s₀ = .ok s ∧
          Streams 2 6 7 before.flatten s :=
  ⟨_, rfl, sends_the_stream 2 6 7 (by decide) (by decide) rfl _ (by decide) (by decide)⟩

end SikRadio.Sender
