import SikRadio.Common.KeptStream
import SikRadio.Common.WindowWalk

/-!
# Counting up to the first gap

`cnt_upto_gap` walks from the tail until it meets a slot that is not occupied or
is back at the tail. It never asks for the head. Behind the window one slot can
still be occupied, the one at the head: a push that drives packets out does not
clear it. So the count is one too high exactly when the window has no gap and the
newest packet driven out was received.

## Implementation notes

What is left at the head is computed from the operations, like the queue of the
packets that are kept.
-/

namespace SikRadio.Common.CircularBuffer

open Foundations Foundations.CheckedRuns Foundations.MemoryCells Foundations.Word64
  Foundations.RingOffsets Foundations.BlockQueue

variable {α : Type} {b : CircularBuffer α} {packet : AudioPacket α}

/-! ## The walk -/

/-- The rounds from slot `k` on, with `n` slots of the ring left. -/
theorem countFrom_windowSlot (h : Ring b) {k n : Nat} (hkn : k + n = b.capacity / b.psize)
    (hn : 0 < n) (cnt : Nat) {fuel : Nat} (hfuel : n ≤ fuel) :
    b.countFrom fuel cnt (b.windowSlot k) =
      .ok (cnt + ((List.range' k n).takeWhile fun k => b.occupied (b.windowSlot k)).length) := by
  have hpos := h.psize_pos
  have hcap := h.psize_le_roundedCap
  induction n generalizing k cnt fuel with
  | zero => exact absurd hn (Nat.lt_irrefl 0)
  | succ n ih =>
      obtain ⟨fuel, rfl⟩ : ∃ m, fuel = m + 1 := ⟨fuel - 1, by omega⟩
      have hslot : b.windowSlot k < b.capacity :=
        (windowSlot_lt h k).trans_le (roundedCap_le b)
      have hback := windowSlot_eq_tail_iff h (Nat.succ_pos k) (by omega)
      rw [countFrom, check, if_pos hslot, List.range'_succ]
      cases hocc : b.occupied (b.windowSlot k) with
      | false => simp [hocc, bind, Except.bind, pure, Except.pure]
      | true =>
          have hround : b.roundedCap ≠ 0 := by omega
          simp only [List.takeWhile_cons, hocc, if_true, List.length_cons, check, if_pos hpos.ne',
            if_pos hround, windowSlot_succ, bind, Except.bind]
          cases n with
          | zero =>
              rw [if_pos (hback.mpr hkn)]
              rfl
          | succ n =>
              rw [if_neg fun heq => by have := hback.mp heq; omega]
              refine (ih (by omega) (Nat.succ_pos n) (cnt + 1) (by omega)).trans ?_
              rw [Nat.add_right_comm, Nat.add_assoc]

/-- The count is the number of occupied slots from the tail on, anywhere in the ring. -/
theorem cntUptoGap_eq (h : Ring b) {fuel : Nat} (hfuel : b.capacity / b.psize ≤ fuel) :
    b.cntUptoGap fuel = .ok ((List.range (b.capacity / b.psize)).takeWhile fun k =>
      b.occupied (b.windowSlot k)).length := by
  have hone : 0 < b.capacity / b.psize := Nat.div_pos h.psize_le h.psize_pos
  rw [cntUptoGap, ← windowSlot_zero h, countFrom_windowSlot h (Nat.zero_add _) hone 0 hfuel,
    Nat.zero_add, List.range_eq_range']

/-! ## What a push leaves at the head -/

/-- Whether the slot at the head is occupied after an operation, when `left` says so before. -/
def KeptStream.leavesBehind (capacity : Nat) (s : KeptStream α) (left : Bool) :
    BufferOp α → Bool
  | .reset _ | .resetAt _ _ => false
  | .push packet =>
      let ahead := wsub packet.firstByteNum s.absHead
      if s.psize < ahead then left
      else
        (drivenOut (capacity / s.psize - 1)
          (appended (ahead / s.psize) (packet.audioData.take s.psize) s.kept)).getLast?.join.isSome
  | .dump _ => left

def KeptStream.leftFrom (capacity : Nat) : KeptStream α → Bool → List (BufferOp α) → Bool
  | _, left, [] => left
  | s, left, op :: ops =>
      leftFrom capacity (s.step capacity op) (s.leavesBehind capacity left op) ops

/-- Whether the slot at the head is occupied after a list of operations on a new buffer: the last
accepted push since the reset drove packets out, and the newest of them was received. -/
def KeptStream.leftBehind (capacity : Nat) (ops : List (BufferOp α)) : Bool :=
  leftFrom capacity { absHead := 0, psize := 0, kept := [] } false ops

/-- Behind the window only the slot at the head can be occupied, and `left` says whether it is. -/
def OccupiedBehind (b : CircularBuffer α) (left : Bool) : Prop :=
  ∀ k, b.windowLen ≤ k → k < b.capacity / b.psize →
    b.occupied (b.windowSlot k) = (left && decide (k = b.windowLen))

variable [Zero α]

theorem occupiedBehind_reset (b : CircularBuffer α) {psize : Nat} (hpos : 0 < psize)
    (hle : psize ≤ b.capacity) : OccupiedBehind (b.reset psize) false := by
  intro k _ _
  have hslot := windowSlot_lt (ring_reset b hpos hle) k
  have hcap := roundedCap_le (b.reset psize)
  have hsame : (b.reset psize).capacity = b.capacity := rfl
  rw [Bool.false_and]
  exact fill_of_mem _ _ (by omega)

namespace Holds

variable {q : BlockQueue α} {left : Bool} (h : Holds b q)

include h

/-- The slots of the window are occupied where the queue has a block. -/
theorem occupied_eq {i : Nat} (hi : i < q.length) :
    b.occupied (b.windowSlot i) = (blockAt q i).isSome :=
  (h.slots i hi).occupied_eq

/-- A push that drives packets out leaves the newest of them at the head. -/
theorem occupiedBehind_pushed (hbehind : OccupiedBehind b left)
    (hdvd : b.psize ∣ b.headOffset packet) (hnear : b.headOffset packet ≤ b.psize)
    (hlen : b.psize ≤ packet.psize) :
    OccupiedBehind (b.pushed packet)
      (drivenOut (b.capacity / b.psize - 1) (appended (b.headOffset packet / b.psize)
        (packet.audioData.take b.psize) q)).getLast?.join.isSome := by
  have hfit : 2 ≤ b.capacity / b.psize :=
    (Nat.le_div_iff_mul_le h.ring.psize_pos).mpr h.two_fit
  have hheld := h.windowLen_eq
  have hwindow := windowLen_pushed h.ring hdvd h.two_fit hnear
  intro k hlo hhi
  rw [hwindow] at hlo
  rw [pushed_capacity, pushed_psize] at hhi
  rw [windowSlot_pushed h.ring hdvd h.two_fit hnear, getLast?_drivenOut, length_appended, hwindow,
    ← hheld]
  rcases Nat.lt_or_ge (b.capacity / b.psize - 1)
    (b.windowLen + b.headOffset packet / b.psize + 1) with hfull | hroom
  · have hback : b.windowLen + b.headOffset packet / b.psize + 1 - (b.capacity / b.psize - 1) + k =
        b.windowLen + b.headOffset packet / b.psize + 1 - (b.capacity / b.psize - 1) - 1 +
          b.capacity / b.psize := by omega
    have hslot := h.slotHolds_appended hdvd hnear hlen
      (j := b.windowLen + b.headOffset packet / b.psize + 1 - (b.capacity / b.psize - 1) - 1)
      (by omega) (by omega)
    have hend : k = min (b.windowLen + b.headOffset packet / b.psize + 1)
        (b.capacity / b.psize - 1) := by omega
    rw [hback, windowSlot_add_capacity, if_neg (Nat.not_le.mpr hfull), decide_eq_true hend,
      Bool.and_true]
    exact hslot.occupied_eq
  · have hbefore : b.windowLen + b.headOffset packet / b.psize < k := by omega
    have hclear := hbehind k ((Nat.le_add_right _ _).trans hbefore.le) hhi
    rw [decide_eq_false ((Nat.le_add_right _ _).trans_lt hbefore).ne', Bool.and_false] at hclear
    rw [Nat.sub_eq_zero_of_le hroom, Nat.zero_add, if_pos hroom,
      occupied_pushed_behind h.ring hdvd h.two_fit hnear hbefore hhi]
    exact hclear

/-- A dump clears what it removes and leaves the slot at the head as it is. -/
theorem occupiedBehind_dumped (hbehind : OccupiedBehind b left) {n : Nat} (hn : n ≤ q.length) :
    OccupiedBehind (b.dumpedBy (n * b.psize)) left := by
  have hpos := h.ring.psize_pos
  have hle : n * b.psize ≤ b.range := h.length_eq ▸ Nat.mul_le_mul_right _ hn
  have hdvd : b.psize ∣ n * b.psize := Nat.dvd_mul_left _ _
  have hwindow := h.windowLen_eq
  have hroom := windowLen_lt h.ring h.head_lt
  have hafter := (h.dumped hn).windowLen_eq
  rw [List.length_drop] at hafter
  intro k hlo hhi
  rw [hafter] at hlo
  have hslot : (b.dumpedBy (n * b.psize)).windowSlot k = b.windowSlot (n + k) := by
    rw [windowSlot, slot_dumpedBy, windowSlot, Nat.add_mul]
    rfl
  have hround : (b.dumpedBy (n * b.psize)).capacity / (b.dumpedBy (n * b.psize)).psize =
      b.capacity / b.psize := rfl
  rw [hround] at hhi
  rw [hslot, hafter]
  rcases Nat.lt_or_ge (n + k) (b.capacity / b.psize) with hin | hwrap
  · have hkept := (dumpedBy_keep h.ring h.head_lt hle hdvd (Nat.dvd_mul_left b.psize (n + k))
      (Nat.mul_le_mul_right _ (by omega)) (Nat.mul_lt_mul_of_pos_right hin hpos)).1
    have hsame : n + k = q.length ↔ k = q.length - n := by omega
    rw [windowSlot, hkept, ← windowSlot, hbehind (n + k) (by omega) hin, hwindow]
    simp only [hsame]
  · obtain ⟨j, hj⟩ := Nat.exists_eq_add_of_le hwrap
    have hgone := slotHolds_dumpedBy_gone h.ring h.head_lt hle hdvd
      (Nat.dvd_mul_left b.psize j) (Nat.mul_lt_mul_of_pos_right (show j < n by omega) hpos)
    rw [hj, Nat.add_comm, windowSlot_add_capacity, windowSlot, hgone.1, eq_comm,
      Bool.and_eq_false_iff]
    exact .inr (decide_eq_false (by omega))

end Holds

/-! ## Runs -/

/-- The buffer is at the stream `s` and `left` says what is behind the window. -/
structure FollowsBehind (capacity : Nat) (b : CircularBuffer α) (s : KeptStream α) (left : Bool) :
    Prop where
  follows : Follows capacity b s
  behind : 2 ≤ b.capacity / b.psize → OccupiedBehind b left

namespace FollowsBehind

variable {capacity nbytes : Nat} {s : KeptStream α} {left : Bool} {b' : CircularBuffer α}
  (h : FollowsBehind capacity b s left)

include h

theorem push (hpush : b.tryPushHead packet = .ok b') :
    FollowsBehind capacity b' (s.step capacity (.push packet))
      (s.leavesBehind capacity left (.push packet)) := by
  refine ⟨h.follows.push hpush, fun hfit => ?_⟩
  obtain ⟨hcapacity, hpsize, -⟩ := tryPushHead_fields hpush
  rw [hcapacity, hpsize] at hfit
  have hholds := h.follows.holds hfit
  have hpos := hholds.ring.psize_pos
  have hcap : 2 * b.psize ≤ b.roundedCap := two_mul_le_div_mul hpos hholds.two_fit
  have hoffset : wsub packet.firstByteNum s.absHead = b.headOffset packet := by
    rw [← h.follows.absHead_eq]
    rfl
  simp only [KeptStream.leavesBehind, hoffset, ← h.follows.psize_eq, ← h.follows.capacity_eq]
  obtain ⟨hdvd, ⟨hfar, rfl⟩ | ⟨hnear, hout, -⟩ | ⟨hnear, -, hlen, rfl⟩⟩ :=
    hholds.ring.tryPushHead_eq_ok_iff.mp hpush
  · rw [if_pos hfar]
    exact h.behind hfit
  · omega
  · rw [if_neg (Nat.not_lt.mpr hnear)]
    exact hholds.occupiedBehind_pushed (h.behind hfit) hdvd hnear hlen

theorem dump (hle : nbytes ≤ b.range) {result : CircularBuffer α × List α}
    (hdump : b.dumpTail nbytes = .ok result) :
    FollowsBehind capacity result.1 (s.step capacity (.dump nbytes)) left := by
  refine ⟨h.follows.dump hle hdump, fun hfit => ?_⟩
  obtain ⟨hdvd, hcapacity, hpsize, -⟩ := dumpTail_fields hdump
  rw [hcapacity, hpsize] at hfit
  have hholds := h.follows.holds hfit
  have hcleared := hholds.occupiedBehind_dumped (h.behind hfit) (hholds.div_le_length hdvd hle)
  rw [Nat.div_mul_cancel hdvd] at hcleared
  rw [dumpTail_eq hholds.ring hholds.head_lt hle hdvd] at hdump
  obtain rfl := Except.ok.inj hdump
  exact hcleared

theorem step {op : BufferOp α} (hguard : DumpsWindow b op) (hstep : opStep b op = .ok b') :
    FollowsBehind capacity b' (s.step capacity op) (s.leavesBehind capacity left op) := by
  have hfollows := h.follows.step hguard hstep
  cases op with
  | reset psize =>
      obtain rfl := Except.ok.inj hstep
      refine ⟨hfollows, fun hfit => ?_⟩
      obtain ⟨hpos, h2⟩ := two_fit_of_le_div hfit
      exact occupiedBehind_reset b hpos (le_trans (Nat.le_mul_of_pos_left _ (by decide)) h2)
  | resetAt psize absHead =>
      obtain rfl := Except.ok.inj hstep
      refine ⟨hfollows, fun hfit => ?_⟩
      obtain ⟨hpos, h2⟩ := two_fit_of_le_div hfit
      exact occupiedBehind_reset { b with absHead, byte0 := absHead } hpos
        (le_trans (Nat.le_mul_of_pos_left _ (by decide)) h2)
  | push packet => exact h.push hstep
  | dump nbytes =>
      obtain ⟨result, hdump, rfl⟩ := map_eq_ok_iff.mp hstep
      exact h.dump hguard hdump

theorem run {ops : List (BufferOp α)} (hguard : Guarded opStep DumpsWindow b ops)
    (hrun : ops.foldlM opStep b = .ok b') :
    FollowsBehind capacity b' (ops.foldl (KeptStream.step capacity) s)
      (s.leftFrom capacity left ops) := by
  induction ops generalizing b s left with
  | nil =>
      obtain rfl := Except.ok.inj hrun
      exact h
  | cons op ops ih =>
      rw [List.foldlM_cons] at hrun
      obtain ⟨c, hop, hrun⟩ := bind_eq_ok_iff.mp hrun
      exact ih (h.step hguard.1 hop) (hguard.2 c hop) hrun

end FollowsBehind

/-- `cnt_upto_gap` returns the number of packets received one after the other from the tail on,
and that many packets do not reach past the head. -/
def CountsBuffered (b : CircularBuffer α) (q : BlockQueue α) : Prop :=
  ∃ cnt, (∀ fuel, b.capacity / b.psize ≤ fuel → b.cntUptoGap fuel = .ok cnt) ∧
    cnt = unbroken q ∧ cnt * b.psize ≤ b.range

theorem Holds.countsBuffered_iff {q : BlockQueue α} {left : Bool} (h : Holds b q)
    (hbehind : OccupiedBehind b left) : CountsBuffered b q ↔ none ∈ q ∨ left = false := by
  have hwindow := h.windowLen_eq
  have hroom := windowLen_lt h.ring h.head_lt
  have hhead : b.occupied (b.windowSlot q.length) = left := by
    rw [hbehind q.length hwindow.le (hwindow ▸ hroom), hwindow, decide_eq_true rfl, Bool.and_true]
  have hcount := length_takeWhile_range_eq_iff (p := fun k => b.occupied (b.windowSlot k))
    (hwindow ▸ hroom) fun i hi => h.occupied_eq hi
  rw [hhead] at hcount
  rw [← hcount]
  constructor
  · rintro ⟨cnt, hcnt, rfl, -⟩
    have heq := (cntUptoGap_eq h.ring le_rfl).symm.trans (hcnt _ le_rfl)
    exact Except.ok.inj heq
  · intro heq
    refine ⟨q.unbroken, fun fuel hfuel => ?_, rfl, ?_⟩
    · rw [cntUptoGap_eq h.ring hfuel, heq]
    · rw [← h.length_eq]
      exact Nat.mul_le_mul_right _ (unbroken_le_length q)

/-- In every state that resets, forward pushes and dumps reach with two packets fitting, the count
is right exactly when a packet is missing in the window or the slot at the head is not occupied. -/
theorem counts_buffered_iff {capacity : Nat} {b₀ b : CircularBuffer α} {ops : List (BufferOp α)}
    (hnew : new capacity = some b₀) (hguard : Guarded opStep DumpsWindow b₀ ops)
    (hrun : ops.foldlM opStep b₀ = .ok b) (hfit : 2 ≤ b.capacity / b.psize) :
    CountsBuffered b (KeptStream.after capacity ops).kept ↔
      none ∈ (KeptStream.after capacity ops).kept ∨
        KeptStream.leftBehind capacity ops = false := by
  have hpsize := (new_fields hnew).1
  have hstart : FollowsBehind capacity b₀ { absHead := 0, psize := 0, kept := [] } false := by
    refine ⟨follows_new hnew, fun hfit => ?_⟩
    rw [hpsize, Nat.div_zero] at hfit
    omega
  have hend := hstart.run hguard hrun
  exact (hend.follows.holds hfit).countsBuffered_iff (hend.behind hfit)

/-- A window with a missing packet. -/
theorem counts_buffered_iff_skipping :
    ∃ b₀, new 4 = some b₀ ∧ ∃ b, skippingOps.foldlM opStep b₀ = .ok b ∧
      2 ≤ b.capacity / b.psize ∧
      (CountsBuffered b (KeptStream.after 4 skippingOps).kept ↔
        none ∈ (KeptStream.after 4 skippingOps).kept ∨
          KeptStream.leftBehind 4 skippingOps = false) := by
  refine ⟨_, rfl, exists_ok_and (by decide) fun b hrun => ?_⟩
  have hfit : 2 ≤ b.capacity / b.psize :=
    of_decide_eq_true (eq_of_toOption_map (fun b => decide (2 ≤ b.capacity / b.psize))
      (by decide) hrun)
  exact ⟨hfit, counts_buffered_iff rfl (by decide) hrun hfit⟩

/-- Four packets in order. -/
def inOrderOps : List (BufferOp UInt8) :=
  .resetAt 1 0 :: (List.range 4).map fun n => .push (AudioPacket.oneByte 9 n)

/-- The window holds the packets 1 to 3, and packet 0, which was driven out, is counted too. -/
theorem counts_evicted_packet :
    ∃ b₀, new 4 = some b₀ ∧ Guarded opStep DumpsWindow b₀ inOrderOps ∧
      ∃ b, inOrderOps.foldlM opStep b₀ = .ok b ∧ 2 ≤ b.capacity / b.psize ∧
        b.cntUptoGap 4 = .ok 4 ∧ b.psize = 1 ∧ b.range = 3 ∧
        ¬CountsBuffered b (KeptStream.after 4 inOrderOps).kept := by
  refine ⟨_, rfl, by decide, exists_ok_and (by decide) fun b hrun => ?_⟩
  have hfields := eq_of_toOption_map (v := (4, 1, 3))
    (fun b => (b.capacity, b.psize, b.range)) (by decide) hrun
  obtain ⟨hcap, hpsize, hrange⟩ : b.capacity = 4 ∧ b.psize = 1 ∧ b.range = 3 := by
    simpa using hfields
  have hcount := eq_of_toOption_map (v := .ok 4) (fun b => b.cntUptoGap 4) rfl hrun
  have hrounds : b.capacity / b.psize = 4 := by rw [hcap, hpsize]
  refine ⟨by omega, hcount, hpsize, hrange, ?_⟩
  rintro ⟨cnt, hcnt, heq, -⟩
  have hsame := Except.ok.inj ((hcnt 4 hrounds.le).symm.trans hcount)
  exact absurd (heq.symm.trans hsame) (by decide)

end SikRadio.Common.CircularBuffer
