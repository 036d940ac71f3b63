import SikRadio.Sender.Answers

/-!
# The configurations of the sender

The sender takes any packet size and any cache size. A cache smaller than a
packet stops the program at the first packet and at the first number that is
asked for. In a cache that holds a packet nothing stops the program as long as
the stream passes position `2 ^ 64` at most once, and later only where the
numbers come back to the top of the words out of step with the frozen window.

## Implementation notes

`AudioSender` and `Retransmitter` share the cache under its lock, so a run is a
list of reads and requests in any order. A walk of the cache takes fewer rounds
than `fuel` when `fuel` exceeds the size of the cache.
-/

namespace SikRadio.Sender

open SikRadio.Common SikRadio.Common.CircularBuffer
open Foundations.CheckedRuns Foundations.MemoryCells Foundations.Word64

/-- What the two workers do with the cache. -/
inductive CacheAction where
  | readChunk (chunk : List UInt8)
  | handleRetransmission (req : RexmitRequest)

namespace AudioSender

def step (fuel : Nat) (s : AudioSender UInt8) : CacheAction → Except Fault (AudioSender UInt8)
  | .readChunk chunk => s.readChunk chunk
  | .handleRetransmission req => do
      let _ ← Sender.handleRetransmission fuel s.sessionId s.packetCache req
      return s

/-- Reads return what `read` can return. -/
def ReadsInput (s : AudioSender UInt8) : CacheAction → Prop
  | .readChunk chunk => s.ReadReturns chunk
  | .handleRetransmission _ => True

instance (s : AudioSender UInt8) (action : CacheAction) : Decidable (s.ReadsInput action) :=
  match action with
  | .readChunk chunk => inferInstanceAs (Decidable (s.ReadReturns chunk))
  | .handleRetransmission _ => inferInstanceAs (Decidable True)

end AudioSender

/-- The input that a run reads. -/
def bytesRead (actions : List CacheAction) : List UInt8 :=
  actions.flatMap fun
    | .readChunk chunk => chunk
    | .handleRetransmission _ => []

/-- The requests that a run handles. -/
def requests (actions : List CacheAction) : List RexmitRequest :=
  actions.filterMap fun
    | .readChunk _ => none
    | .handleRetransmission req => some req

@[simp] theorem bytesRead_nil : bytesRead [] = [] := rfl

@[simp] theorem bytesRead_readChunk (chunk : List UInt8) (actions : List CacheAction) :
    bytesRead (.readChunk chunk :: actions) = chunk ++ bytesRead actions := rfl

@[simp] theorem bytesRead_handleRetransmission (req : RexmitRequest)
    (actions : List CacheAction) :
    bytesRead (.handleRetransmission req :: actions) = bytesRead actions := rfl

@[simp] theorem requests_readChunk (chunk : List UInt8) (actions : List CacheAction) :
    requests (.readChunk chunk :: actions) = requests actions := rfl

@[simp] theorem requests_handleRetransmission (req : RexmitRequest)
    (actions : List CacheAction) :
    requests (.handleRetransmission req :: actions) = req :: requests actions := rfl

/-- How many packets it takes for the head to pass position `2 ^ 64`. -/
def untilWrap (psize : Nat) : Nat := (2 ^ 64 + psize - 1) / psize

/-- The position of the head from then on. -/
def frozenHead (psize : Nat) : Nat := untilWrap psize * psize - 2 ^ 64

/-- The position of the tail from then on. -/
def frozenTail (psize fsize : Nat) : Nat :=
  frozenHead psize + 2 ^ 64 - cached psize fsize (untilWrap psize) * psize

/-- Packet `i` comes after the head has passed position `2 ^ 64`. Its number is not below the
tail and out of step with the head. -/
structure OutOfStep (psize fsize i : Nat) : Prop where
  several : 2 * psize ≤ fsize
  late : untilWrap psize ≤ i
  inside : frozenTail psize fsize ≤ i * psize % 2 ^ 64
  unaligned : ¬psize ∣ i * psize % 2 ^ 64 - frozenHead psize

/-- A packet fits and no packet of the input is out of step, or the input is shorter than a
packet and nothing is asked for. -/
def SafeInput (psize fsize : Nat) (actions : List CacheAction) : Prop :=
  (psize ≤ fsize ∧ ∀ i < (bytesRead actions).length / psize, ¬OutOfStep psize fsize i) ∨
    ((bytesRead actions).length < psize ∧ ∀ req ∈ requests actions, req.packetIds = [])

theorem lt_untilWrap_iff {psize n : Nat} (hpos : 0 < psize) :
    n < untilWrap psize ↔ n * psize < 2 ^ 64 := by
  have hmul : (n + 1) * psize = n * psize + psize := by ring
  rw [untilWrap, ← Nat.add_one_le_iff, Nat.le_div_iff_mul_le hpos, hmul]
  omega

/-! ## The numbers of the packets -/

/-- The worker after `n` packets, over a cache in which a packet fits. -/
structure After (psize fsize sessionId n : Nat) (s : AudioSender UInt8) : Prop where
  reached : ReachedSender psize fsize sessionId s
  fitting : Fitting s
  nread_lt : s.nread < psize
  fbn_eq : s.firstByteNum = n * psize % 2 ^ 64
  growing : Growing s → 2 * psize ≤ fsize →
    n < untilWrap psize ∧ s.packetCache.absHead = n * psize ∧
      s.packetCache.range = cached psize fsize n * psize
  frozen : Frozen s.packetCache →
    untilWrap psize ≤ n ∧ s.packetCache.absHead = frozenHead psize ∧
      s.packetCache.range = cached psize fsize (untilWrap psize) * psize

section Packet

variable {psize fsize sessionId n fuel : Nat} {s s' : AudioSender UInt8} {chunk : List UInt8}

/-- A frozen window holds a packet beside the free slot. -/
theorem ReachedSender.several_of_frozen (h : ReachedSender psize fsize sessionId s)
    (hfit : Fitting s) (hfrozen : Frozen s.packetCache) : 2 * psize ≤ fsize := by
  have hrange := hfit.ring.range_add_le hfit.head_lt
  have hcap := roundedCap_le s.packetCache
  have hpsize := hfrozen.psize_le
  rw [h.cache_psize] at hrange hpsize
  rw [h.cache_capacity] at hcap
  omega

theorem After.nextPacket_fbn (h : After psize fsize sessionId n s) :
    (nextPacket s chunk).firstByteNum = n * psize % 2 ^ 64 := by
  have hmod : (nextPacket s chunk).firstByteNum = s.firstByteNum % 2 ^ 64 := rfl
  rw [hmod, h.fbn_eq, Nat.mod_mod]

theorem After.put_of_growing (h : After psize fsize sessionId n s) (hgrow : Growing s) :
    s.packetCache.tryPut (nextPacket s chunk) =
      .ok (s.packetCache.pushed (nextPacket s chunk)) := by
  apply h.fitting.tryPut_of_growing hgrow (hgrow.nextPacket_firstByteNum h.fitting)
  rw [nextPacket_psize, h.reached.psize_eq, h.reached.cache_psize]

/-- Packet `n` can be put unless it is out of step. -/
theorem After.put_iff (h : After psize fsize sessionId n s) :
    (∃ cache, s.packetCache.tryPut (nextPacket s chunk) = .ok cache) ↔
      ¬OutOfStep psize fsize n := by
  rcases h.fitting.phase with hgrow | hfrozen
  · refine iff_of_true ⟨_, h.put_of_growing hgrow⟩ fun hout => ?_
    exact absurd (h.growing hgrow hout.several).1 (Nat.not_lt.mpr hout.late)
  · have htwo := h.reached.several_of_frozen h.fitting hfrozen
    obtain ⟨hlate, habs, hrange⟩ := h.frozen hfrozen
    have hpsize := h.reached.cache_psize
    have htail : s.packetCache.absTail = frozenTail psize fsize := by
      rw [absTail, wsub_of_lt (hfrozen.absHead_lt.trans_le hfrozen.psize_le), habs, hrange]
      rfl
    have hle : frozenHead psize ≤ frozenTail psize fsize := by
      have hlt := h.fitting.range_lt
      rw [hrange] at hlt
      unfold frozenTail
      omega
    have hput {cache : CircularBuffer UInt8} :
        s.packetCache.tryPut (nextPacket s chunk) = .ok cache ↔
          ((nextPacket s chunk).firstByteNum < s.packetCache.absTail ∨
            s.packetCache.psize ∣ s.packetCache.headOffset (nextPacket s chunk)) ∧
              s.packetCache = cache :=
      h.fitting.tryPut_of_frozen hfrozen
    rw [htail, h.nextPacket_fbn, hpsize] at hput
    constructor
    · rintro ⟨cache, hok⟩ hout
      rcases (hput.mp hok).1 with hbelow | hdvd
      · exact absurd hout.inside (Nat.not_le.mpr hbelow)
      · have hahead : s.packetCache.absHead ≤ (nextPacket s chunk).firstByteNum := by
          rw [habs, h.nextPacket_fbn]
          exact hle.trans hout.inside
        rw [headOffset_eq hahead, h.nextPacket_fbn, habs] at hdvd
        exact hout.unaligned hdvd
    · intro hin
      refine ⟨_, hput.mpr ⟨?_, rfl⟩⟩
      rcases Nat.lt_or_ge (n * psize % 2 ^ 64) (frozenTail psize fsize) with hbelow | habove
      · exact .inl hbelow
      · have hahead : s.packetCache.absHead ≤ (nextPacket s chunk).firstByteNum := by
          rw [habs, h.nextPacket_fbn]
          exact hle.trans habove
        rw [headOffset_eq hahead, h.nextPacket_fbn, habs]
        exact .inr (not_not.mp fun hnot => hin ⟨htwo, hlate, habove, hnot⟩)

/-- What a put does to the positions of a growing window. -/
theorem After.grown (h : After psize fsize sessionId n s) (hgrow : Growing s)
    (htwo : 2 * psize ≤ fsize) {cache : CircularBuffer UInt8}
    (hput : s.packetCache.tryPut (nextPacket s chunk) = .ok cache) :
    cache.absHead = wadd (n * psize) psize ∧ cache.range = cached psize fsize (n + 1) * psize := by
  obtain rfl := Except.ok.inj ((h.put_of_growing hgrow).symm.trans hput)
  obtain ⟨hearly, habs, hrange⟩ := h.growing hgrow htwo
  have hpsize := h.reached.cache_psize
  have hcap := h.reached.cache_capacity
  have hfbn : (nextPacket s chunk).firstByteNum = s.packetCache.absHead :=
    (hgrow.nextPacket_firstByteNum h.fitting).trans hgrow.fbn_eq
  have hoffset : s.packetCache.headOffset (nextPacket s chunk) = 0 := by
    rw [headOffset_eq hfbn.ge, hfbn, Nat.sub_self]
  have hfit : 2 * s.packetCache.psize ≤ s.packetCache.capacity := by rw [hpsize, hcap]; exact htwo
  obtain ⟨hpushed, -⟩ := range_pushed h.fitting.ring hfit (hoffset ▸ dvd_zero _)
    (hoffset ▸ Nat.zero_le _)
  constructor
  · rw [pushed_absHead, hfbn, habs, hpsize]
  · have hspan : s.packetCache.roundedCap - psize = (fsize / psize - 1) * psize := by
      rw [roundedCap, hpsize, hcap, Nat.sub_mul, Nat.one_mul]
    have hnext : cached psize fsize n * psize + psize = (cached psize fsize n + 1) * psize := by
      ring
    rw [hpushed, hoffset, hrange, hpsize, hspan, Nat.add_zero, hnext, Nat.mul_min_mul_right]
    congr 1
    unfold cached
    omega

/-- A window with room for several packets is not empty after a packet. -/
theorem psize_le_cached (htwo : 2 * psize ≤ fsize) (hpos : 0 < psize) :
    psize ≤ cached psize fsize (n + 1) * psize := by
  have hdiv : 2 ≤ fsize / psize := (Nat.le_div_iff_mul_le hpos).mpr htwo
  apply Nat.le_mul_of_pos_left
  unfold cached
  omega

/-- A window that still grows after packet `n` grew before it. -/
theorem After.growing_afterPacket (h : After psize fsize sessionId n s)
    {cache : CircularBuffer UInt8}
    (hput : s.packetCache.tryPut (nextPacket s chunk) = .ok cache)
    (hle : cache.range ≤ cache.absHead) (htwo : 2 * psize ≤ fsize) :
    n + 1 < untilWrap psize ∧ cache.absHead = (n + 1) * psize ∧
      cache.range = cached psize fsize (n + 1) * psize := by
  have hpos : 0 < psize := Nat.zero_lt_of_lt h.nread_lt
  have hmul : (n + 1) * psize = n * psize + psize := by ring
  rcases h.fitting.phase with hgrow | hfrozen
  · obtain ⟨habs, hrange⟩ := h.grown hgrow htwo hput
    have hearly := (lt_untilWrap_iff hpos).mp (h.growing hgrow htwo).1
    have hheld := psize_le_cached htwo hpos (n := n)
    -- a head past position 2 ^ 64 would lie below the length of the window
    have hin : n * psize + psize < 2 ^ 64 := by
      by_contra hover
      rw [habs, hrange, wadd] at hle
      omega
    refine ⟨(lt_untilWrap_iff hpos).mpr (hmul ▸ hin), ?_, hrange⟩
    exact habs.trans ((wadd_of_lt hin).trans hmul.symm)
  · obtain ⟨-, rfl⟩ := (h.fitting.tryPut_of_frozen hfrozen).mp hput
    exact absurd (hfrozen.psize_le.trans hle) (Nat.not_le.mpr hfrozen.absHead_lt)

/-- A window that is frozen after packet `n` was frozen before, or packet `n` has taken its head
past position `2 ^ 64`. -/
theorem After.frozen_afterPacket (h : After psize fsize sessionId n s)
    {cache : CircularBuffer UInt8}
    (hput : s.packetCache.tryPut (nextPacket s chunk) = .ok cache)
    (habs : cache.absHead < psize) (htwo : 2 * psize ≤ fsize) :
    untilWrap psize ≤ n + 1 ∧ cache.absHead = frozenHead psize ∧
      cache.range = cached psize fsize (untilWrap psize) * psize := by
  have hpos : 0 < psize := Nat.zero_lt_of_lt h.nread_lt
  have hmul : (n + 1) * psize = n * psize + psize := by ring
  rcases h.fitting.phase with hgrow | hfrozen
  · obtain ⟨habs', hrange'⟩ := h.grown hgrow htwo hput
    have hearly := (h.growing hgrow htwo).1
    have hword := (lt_untilWrap_iff hpos).mp hearly
    rw [habs', wadd] at habs
    have hover : ¬n * psize + psize < 2 ^ 64 := by
      intro hin
      rw [Nat.mod_eq_of_lt hin] at habs
      omega
    have hwrap : untilWrap psize = n + 1 := by
      have hlate := mt (lt_untilWrap_iff (n := n + 1) hpos).mp (hmul.symm ▸ hover)
      omega
    have hsmall : psize < 2 ^ 64 := by
      have hmax := h.fitting.capacity_le
      have hfits := h.fitting.ring.psize_le
      rw [h.reached.cache_psize] at hfits
      unfold ptrdiffMax at hmax
      omega
    have hhead : frozenHead psize = n * psize + psize - 2 ^ 64 := by
      unfold frozenHead
      simp only [hwrap, hmul]
    refine ⟨hwrap.le, ?_, ?_⟩
    · rw [habs', hhead, wadd]
      omega
    · rw [hwrap]
      exact hrange'
  · obtain ⟨-, rfl⟩ := (h.fitting.tryPut_of_frozen hfrozen).mp hput
    obtain ⟨hlate, habs', hrange'⟩ := h.frozen hfrozen
    exact ⟨hlate.trans (Nat.le_succ n), habs', hrange'⟩

/-- The state after packet `n`. -/
theorem After.afterPacket (h : After psize fsize sessionId n s)
    (hfull : s.nread + chunk.length = s.psize) {cache : CircularBuffer UInt8}
    (hput : s.packetCache.tryPut (nextPacket s chunk) = .ok cache) :
    After psize fsize sessionId (n + 1) (afterPacket s chunk cache) := by
  have hmul : (n + 1) * psize = n * psize + psize := by ring
  have hreached := h.reached.readChunk ((readChunk_eq_ok_iff_of_full hfull).mpr ⟨_, hput, rfl⟩)
  have hsame : s.psize = s.packetCache.psize := h.reached.psize_eq.trans h.reached.cache_psize.symm
  have hfitting := h.fitting.afterPacket hsame hput
  have hfbn : (Sender.afterPacket s chunk cache).firstByteNum = (n + 1) * psize % 2 ^ 64 := by
    rw [afterPacket_firstByteNum, h.fbn_eq, h.reached.psize_eq, wadd, Nat.mod_add_mod, hmul]
  refine ⟨hreached, hfitting, Nat.zero_lt_of_lt h.nread_lt, hfbn, fun hgrow htwo => ?_,
    fun hfrozen => ?_⟩
  · have hle := hgrow.range_le
    rw [afterPacket_packetCache] at hle ⊢
    exact h.growing_afterPacket hput hle htwo
  · have htwo := hreached.several_of_frozen hfitting hfrozen
    have habs := hfrozen.absHead_lt
    rw [hreached.cache_psize] at habs
    rw [afterPacket_packetCache] at habs ⊢
    exact h.frozen_afterPacket hput habs htwo

/-- Bytes that do not complete a packet. -/
theorem After.collect (h : After psize fsize sessionId n s)
    (hpart : s.nread + chunk.length < psize) (hs : s.readChunk chunk = .ok s') :
    After psize fsize sessionId n s' ∧ s'.nread = s.nread + chunk.length := by
  have hreached := h.reached.readChunk hs
  rw [readChunk_of_part (by rw [h.reached.psize_eq]; omega)] at hs
  obtain rfl := Except.ok.inj hs
  have hfit := h.fitting
  refine ⟨⟨hreached, ⟨hfit.ring, hfit.head_lt, hfit.absHead_lt, hfit.capacity_le, ?_⟩, hpart,
    h.fbn_eq, fun hgrow => h.growing ⟨hgrow.range_le, hgrow.fbn_eq⟩, h.frozen⟩, rfl⟩
  exact hfit.phase.imp_left fun hgrow => ⟨hgrow.range_le, hgrow.fbn_eq⟩

end Packet

/-! ## Runs -/

section Run

variable {psize fsize sessionId n fuel : Nat} {s : AudioSender UInt8} {actions : List CacheAction}

theorem Fitting.windowLen_lt (h : Fitting s) (hfuel : s.packetCache.capacity < fuel) :
    s.packetCache.windowLen < fuel :=
  (CircularBuffer.windowLen_lt h.ring h.head_lt).trans
    ((Nat.div_le_self _ _).trans_lt hfuel)

/-- A request never stops the program while a packet fits. -/
theorem Fitting.exists_answers (sessionId : Nat) (h : Fitting s) (req : RexmitRequest)
    (hfuel : s.packetCache.windowLen < fuel) :
    ∃ answers, handleRetransmission fuel sessionId s.packetCache req = .ok answers := by
  by_cases hsilent : Silent s.packetCache req.packetIds
  · exact ⟨_, h.answers_of_silent hsilent hfuel⟩
  · exact ⟨_, (h.answers_of_not_silent sessionId hsilent hfuel).2⟩

/-- A step that does not stop leaves the question to the rest of the run. -/
theorem run_cons_ok_iff {action : CacheAction} {s₁ : AudioSender UInt8}
    (hs : AudioSender.step fuel s action = .ok s₁) :
    (∃ s', (action :: actions).foldlM (AudioSender.step fuel) s = .ok s') ↔
      ∃ s', actions.foldlM (AudioSender.step fuel) s₁ = .ok s' := by
  rw [List.foldlM_cons, hs]
  rfl

/-- A property of the first number and of all later ones. -/
theorem forall_from_iff {P : Nat → Prop} (n m : Nat) (hn : P n) :
    (∀ i, n + 1 ≤ i → i < n + 1 + m → P i) ↔ ∀ i, n ≤ i → i < n + (m + 1) → P i := by
  constructor
  · intro hnone i hi hlt
    rcases Nat.eq_or_lt_of_le hi with rfl | hi
    · exact hn
    · exact hnone i hi (by omega)
  · intro hnone i hi hlt
    exact hnone i (by omega) (by omega)

/-- A packet that cannot be put stops the run. -/
theorem not_run_of_not_put {chunk : List UInt8} (hfull : s.nread + chunk.length = s.psize)
    (hput : ∀ cache, s.packetCache.tryPut (nextPacket s chunk) ≠ .ok cache) :
    ¬∃ s', (.readChunk chunk :: actions).foldlM (AudioSender.step fuel) s = .ok s' := by
  rintro ⟨s', hrun⟩
  rw [List.foldlM_cons] at hrun
  obtain ⟨s₁, hs, -⟩ := bind_eq_ok_iff.mp hrun
  obtain ⟨cache, hok, -⟩ := (readChunk_eq_ok_iff_of_full hfull).mp hs
  exact hput cache hok

/-- From a cache in which a packet fits a run goes on exactly when no packet is out of step. -/
theorem After.run_ok_iff (h : After psize fsize sessionId n s) (hfuel : fsize < fuel)
    (hread : Guarded (AudioSender.step fuel) AudioSender.ReadsInput s actions) :
    (∃ s', actions.foldlM (AudioSender.step fuel) s = .ok s') ↔
      ∀ i, n ≤ i → i < n + (s.nread + (bytesRead actions).length) / psize →
        ¬OutOfStep psize fsize i := by
  induction actions generalizing n s with
  | nil =>
      refine iff_of_true ⟨s, rfl⟩ fun i hi hlt => ?_
      rw [bytesRead_nil, List.length_nil, Nat.add_zero, Nat.div_eq_of_lt h.nread_lt] at hlt
      omega
  | cons action actions ih =>
      obtain ⟨hguard, hrest⟩ := hread
      cases action with
      | readChunk chunk =>
          obtain ⟨-, hle⟩ := hguard
          have hpsize := h.reached.psize_eq
          have hlt := h.nread_lt
          have hpos : 0 < psize := Nat.zero_lt_of_lt hlt
          rw [bytesRead_readChunk, List.length_append, ← Nat.add_assoc]
          rcases Nat.lt_or_ge (s.nread + chunk.length) psize with hpart | hfull
          · have hs : AudioSender.step fuel s (.readChunk chunk) = .ok _ :=
              readChunk_of_part (by omega)
            obtain ⟨h₁, hnread⟩ := h.collect hpart hs
            rw [run_cons_ok_iff hs, ih h₁ (hrest _ hs), hnread]
          · have hfull' : s.nread + chunk.length = s.psize := by omega
            have hcount : (s.nread + chunk.length + (bytesRead actions).length) / psize =
                (bytesRead actions).length / psize + 1 := by
              rw [hfull', hpsize, Nat.add_comm, Nat.add_div_right _ hpos]
            rw [hcount]
            by_cases hout : OutOfStep psize fsize n
            · refine iff_of_false ?_ fun hnone =>
                hnone n le_rfl (Nat.lt_add_of_pos_right (Nat.succ_pos _)) hout
              exact not_run_of_not_put hfull' fun cache hput => h.put_iff.mp ⟨cache, hput⟩ hout
            · obtain ⟨cache, hput⟩ := h.put_iff.mpr hout
              have hs : AudioSender.step fuel s (.readChunk chunk) = .ok _ :=
                (readChunk_eq_ok_iff_of_full hfull').mpr ⟨cache, hput, rfl⟩
              rw [run_cons_ok_iff hs, ih (h.afterPacket hfull' hput) (hrest _ hs),
                afterPacket_nread, Nat.zero_add]
              exact forall_from_iff n _ hout
      | handleRetransmission req =>
          obtain ⟨answers, hanswers⟩ := h.fitting.exists_answers s.sessionId req
            (h.fitting.windowLen_lt (h.reached.cache_capacity.symm ▸ hfuel))
          have hs : AudioSender.step fuel s (.handleRetransmission req) = .ok s := by
            rw [AudioSender.step, hanswers]
            rfl
          rw [run_cons_ok_iff hs, ih h (hrest _ hs), bytesRead_handleRetransmission]

/-- From a cache that is too small a run goes on exactly when no packet is completed and no
number is asked for. -/
theorem Unfit.run_ok_iff (h : Unfit s) (hnread : s.nread < s.psize) (hfuel : 0 < fuel)
    (hread : Guarded (AudioSender.step fuel) AudioSender.ReadsInput s actions) :
    (∃ s', actions.foldlM (AudioSender.step fuel) s = .ok s') ↔
      s.nread + (bytesRead actions).length < s.psize ∧
        ∀ req ∈ requests actions, req.packetIds = [] := by
  induction actions generalizing s with
  | nil => exact iff_of_true ⟨s, rfl⟩ ⟨by simpa [bytesRead] using hnread, by simp [requests]⟩
  | cons action actions ih =>
      obtain ⟨hguard, hrest⟩ := hread
      cases action with
      | readChunk chunk =>
          obtain ⟨-, hle⟩ := hguard
          rw [bytesRead_readChunk, List.length_append, ← Nat.add_assoc, requests_readChunk]
          rcases Nat.lt_or_ge (s.nread + chunk.length) s.psize with hpart | hfull
          · have hs : AudioSender.step fuel s (.readChunk chunk) = .ok _ :=
              readChunk_of_part (by omega)
            have hunfit : Unfit { s with
                audioBuf := blit s.audioBuf s.nread chunk, nread := s.nread + chunk.length } :=
              ⟨h.lt, h.tail_eq, h.head_eq, h.absHead_eq, h.fbn_eq, h.sent_eq⟩
            rw [run_cons_ok_iff hs, ih hunfit hpart (hrest _ hs)]
          · refine iff_of_false ?_ fun hnone => by omega
            apply not_run_of_not_put (by omega)
            intro cache
            exact h.not_put (by simp [nextPacket, AudioPacket.ofWords, h.fbn_eq])
      | handleRetransmission req =>
          rw [bytesRead_handleRetransmission, requests_handleRetransmission]
          by_cases hnil : req.packetIds = []
          · have hs : AudioSender.step fuel s (.handleRetransmission req) = .ok s := by
              rw [AudioSender.step, (h.answers_nil_iff hfuel).mpr ⟨hnil, rfl⟩]
              rfl
            rw [run_cons_ok_iff hs, ih h hnread (hrest _ hs)]
            simp [hnil]
          · refine iff_of_false ?_ fun hnone => hnil (hnone.2 req List.mem_cons_self)
            rintro ⟨s', hrun⟩
            rw [List.foldlM_cons] at hrun
            obtain ⟨s₁, hs, -⟩ := bind_eq_ok_iff.mp hrun
            obtain ⟨answers, hanswers, -⟩ := bind_eq_ok_iff.mp hs
            exact hnil ((h.answers_nil_iff hfuel).mp hanswers).1

/-- Before the first packet. -/
theorem after_init {s₀ : AudioSender UInt8} (hpos : 0 < psize) (hfit : psize ≤ fsize)
    (hinit : AudioSender.init psize fsize sessionId = some s₀) :
    After psize fsize sessionId 0 s₀ := by
  have hreached := reachedSender_init hpos hinit
  have hfitting : Fitting s₀ := by
    apply hreached.cache.resolve_right
    intro hunfit
    have hlt := hunfit.lt
    rw [hreached.cache_psize, hreached.cache_capacity] at hlt
    exact absurd hfit (Nat.not_le.mpr hlt)
  obtain ⟨cache, hnew, rfl⟩ := Option.map_eq_some_iff.mp hinit
  have hrange : (cache.reset psize).range = 0 := Nat.sub_self 0
  refine ⟨hreached, hfitting, hpos, by simp, fun _ _ => ⟨?_, ?_, ?_⟩, fun hfrozen => ?_⟩
  · rw [lt_untilWrap_iff hpos, Nat.zero_mul]
    exact Nat.two_pow_pos 64
  · rw [Nat.zero_mul]
    exact (new_positions hnew).1
  · rw [hrange, cached, Nat.zero_min, Nat.zero_mul]
  · have hpsize := hfrozen.psize_le
    rw [hrange, hreached.cache_psize] at hpsize
    exact absurd hpos (Nat.not_lt.mpr hpsize)

/-- A run of reads and requests in any order stops at no point exactly when its input is safe. -/
theorem runs_safely_iff {s₀ : AudioSender UInt8} (hpos : 0 < psize)
    (hinit : AudioSender.init psize fsize sessionId = some s₀) (hfuel : fsize < fuel)
    (hread : Guarded (AudioSender.step fuel) AudioSender.ReadsInput s₀ actions) :
    (∃ s, actions.foldlM (AudioSender.step fuel) s₀ = .ok s) ↔
      SafeInput psize fsize actions := by
  have hnread : s₀.nread = 0 := by
    obtain ⟨cache, -, rfl⟩ := Option.map_eq_some_iff.mp hinit
    rfl
  unfold SafeInput
  rcases Nat.lt_or_ge fsize psize with hsmall | hfit
  · have hreached := reachedSender_init hpos hinit
    have hunfit : Unfit s₀ := by
      apply hreached.cache.resolve_left
      intro hfitting
      have hle := hfitting.ring.psize_le
      rw [hreached.cache_psize, hreached.cache_capacity] at hle
      exact absurd hle (Nat.not_le.mpr hsmall)
    rw [hunfit.run_ok_iff (by rw [hnread, hreached.psize_eq]; exact hpos)
      (Nat.zero_lt_of_lt hfuel) hread, hnread, Nat.zero_add, hreached.psize_eq]
    exact (or_iff_right fun h => absurd h.1 (Nat.not_le.mpr hsmall)).symm
  · rw [(after_init hpos hfit hinit).run_ok_iff hfuel hread]
    simp only [hnread, Nat.zero_add]
    constructor
    · intro hnone
      exact .inl ⟨hfit, fun i hi => hnone i (Nat.zero_le i) hi⟩
    · rintro (⟨-, hnone⟩ | ⟨hshort, -⟩) i - hi
      · exact hnone i hi
      · rw [Nat.div_eq_of_lt hshort] at hi
        exact absurd hi (Nat.not_lt_zero i)

/-- A packet and a request over a cache with room for two packets. -/
theorem runs_safely_iff_packet_and_request :
    ∃ s₀, AudioSender.init 2 4 7 = some s₀ ∧
      ((∃ s, [.readChunk [1], .readChunk [2], .handleRetransmission ⟨⟨1, 2⟩, [0]⟩].foldlM
          (AudioSender.step 5) s₀ = .ok s) ↔
        SafeInput 2 4
          [.readChunk [1], .readChunk [2], .handleRetransmission ⟨⟨1, 2⟩, [0]⟩]) :=
  ⟨_, rfl, runs_safely_iff (by decide) (show AudioSender.init 2 4 7 = some _ from rfl) (by decide)
    (by decide)⟩

/-- The first packet of two bytes is copied past a cache of one byte. -/
theorem cache_smaller_than_packet_stops :
    ∃ s₀, AudioSender.init 2 1 7 = some s₀ ∧
      Guarded (AudioSender.step 2) AudioSender.ReadsInput s₀ [.readChunk [1, 2]] ∧
      [CacheAction.readChunk [1, 2]].foldlM (AudioSender.step 2) s₀ = .error .outOfBounds ∧
      ¬∃ s, [CacheAction.readChunk [1, 2]].foldlM (AudioSender.step 2) s₀ = .ok s :=
  ⟨_, rfl, by decide, rfl, fun ⟨_, hs⟩ => ne_ok_of_isOk (by decide) hs⟩

end Run

end SikRadio.Sender
