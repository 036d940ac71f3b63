import SikRadio.Common.DumpTail

/-!
# What a run of the buffer keeps

Resets, forward pushes and dumps on a new buffer determine a queue of packets
without any arrays. The buffer follows that queue through every run, so that a
dump outputs what arrived, in the order of the stream, with silence for what did
not.

## Implementation notes

A reset to a packet size of which two do not fit is allowed in a run; until the
next reset nothing is said about the slots. A push that is dismissed leaves the
queue alone, like the buffer. Gap fills are not among the operations.
-/

namespace SikRadio.Common.CircularBuffer

open Foundations Foundations.CheckedRuns Foundations.MemoryCells Foundations.Word64
  Foundations.RingOffsets Foundations.BlockQueue

variable {α : Type} {b : CircularBuffer α} {packet : AudioPacket α} {nbytes : Nat}

/-- What happens to a buffer: a reset in either form, a forward push or a dump. -/
inductive BufferOp (α : Type) where
  | reset (psize : Nat)
  | resetAt (psize absHead : Nat)
  | push (packet : AudioPacket α)
  | dump (nbytes : Nat)

def opStep [Zero α] (b : CircularBuffer α) : BufferOp α → Except Fault (CircularBuffer α)
  | .reset psize => .ok (b.reset psize)
  | .resetAt psize absHead => .ok (b.resetAt psize absHead)
  | .push packet => b.tryPushHead packet
  | .dump nbytes => Prod.fst <$> b.dumpTail nbytes

/-- A dump asks for no more than the window holds. -/
def DumpsWindow (b : CircularBuffer α) : BufferOp α → Prop
  | .dump nbytes => nbytes ≤ b.range
  | _ => True

instance (b : CircularBuffer α) : (op : BufferOp α) → Decidable (DumpsWindow b op)
  | .reset _ => isTrue trivial
  | .resetAt _ _ => isTrue trivial
  | .push _ => isTrue trivial
  | .dump nbytes => inferInstanceAs (Decidable (nbytes ≤ b.range))

/-- The stream as the operations alone determine it: the number of the next byte, the packet
size and the packets that are kept, `none` for one that was never received. -/
structure KeptStream (α : Type) where
  absHead : Nat
  psize : Nat
  kept : BlockQueue α

/-- The effect of an operation when `capacity` bytes are there. -/
def KeptStream.step (capacity : Nat) (s : KeptStream α) : BufferOp α → KeptStream α
  | .reset psize => { s with psize, kept := [] }
  | .resetAt psize absHead => { absHead, psize, kept := [] }
  | .push packet =>
      let ahead := wsub packet.firstByteNum s.absHead
      if s.psize < ahead then s
      else
        { s with
          absHead := wadd packet.firstByteNum s.psize
          kept := newest (capacity / s.psize - 1)
            (appended (ahead / s.psize) (packet.audioData.take s.psize) s.kept) }
  | .dump nbytes => { s with kept := s.kept.drop (nbytes / s.psize) }

/-- The stream after a list of operations on a new buffer. -/
def KeptStream.after (capacity : Nat) (ops : List (BufferOp α)) : KeptStream α :=
  ops.foldl (KeptStream.step capacity) { absHead := 0, psize := 0, kept := [] }

/-- The buffer is at the stream `s`; its slots are only accounted for when two packets fit. -/
structure Follows [Zero α] (capacity : Nat) (b : CircularBuffer α) (s : KeptStream α) : Prop where
  capacity_eq : b.capacity = capacity
  absHead_eq : b.absHead = s.absHead
  psize_eq : b.psize = s.psize
  holds : 2 ≤ b.capacity / b.psize → Holds b s.kept

theorem two_fit_of_le_div {m n : Nat} (h : 2 ≤ m / n) : 0 < n ∧ 2 * n ≤ m := by
  have hpos : 0 < n := by
    apply Nat.pos_of_ne_zero
    rintro rfl
    rw [Nat.div_zero] at h
    omega
  exact ⟨hpos, (Nat.le_div_iff_mul_le hpos).mp h⟩

theorem clearSkipped_fields [Zero α] {writePos : Nat} {b' : CircularBuffer α}
    (hclear : b.clearSkipped writePos = .ok b') :
    b'.capacity = b.capacity ∧ b'.psize = b.psize := by
  unfold clearSkipped at hclear
  split at hclear
  case isTrue =>
    obtain ⟨-, rfl⟩ := clear_eq_ok_iff.mp hclear
    exact ⟨rfl, rfl⟩
  case isFalse =>
    obtain ⟨_, hfst, hsnd⟩ := bind_eq_ok_iff.mp hclear
    obtain ⟨-, rfl⟩ := clear_eq_ok_iff.mp hfst
    obtain ⟨-, rfl⟩ := clear_eq_ok_iff.mp hsnd
    exact ⟨rfl, rfl⟩

/-- What a push does to the sizes and the head's number, whatever the state of the buffer. -/
theorem tryPushHead_fields [Zero α] {b' : CircularBuffer α}
    (hpush : b.tryPushHead packet = .ok b') :
    b'.capacity = b.capacity ∧ b'.psize = b.psize ∧
      b'.absHead = if b.psize < b.headOffset packet then b.absHead
        else wadd packet.firstByteNum b.psize := by
  simp only [tryPushHead, bind_eq_ok_iff, check_eq_ok_iff, exists_const] at hpush
  obtain ⟨-, -, hpush⟩ := hpush
  split at hpush
  case isTrue hfar =>
    obtain rfl := Except.ok.inj hpush
    exact ⟨rfl, rfl, (if_pos hfar).symm⟩
  case isFalse hnear =>
    rw [if_neg hnear]
    split at hpush
    case isTrue =>
      obtain ⟨_, hstore, -, -, hpush⟩ := by simpa only [bind_eq_ok_iff] using hpush
      obtain ⟨-, -, rfl⟩ := store_eq_ok_iff.mp hstore
      obtain rfl := Except.ok.inj hpush
      exact ⟨rfl, rfl, rfl⟩
    case isFalse =>
      obtain ⟨_, hclear, _, hstore, hpush⟩ := by simpa only [bind_eq_ok_iff] using hpush
      obtain ⟨hcapacity, hpsize⟩ := clearSkipped_fields hclear
      obtain ⟨-, -, rfl⟩ := store_eq_ok_iff.mp hstore
      obtain rfl := Except.ok.inj hpush
      exact ⟨hcapacity, hpsize, rfl⟩

theorem dumpTail_fields [Zero α] {result : CircularBuffer α × List α}
    (hdump : b.dumpTail nbytes = .ok result) :
    b.psize ∣ nbytes ∧ result.1.capacity = b.capacity ∧ result.1.psize = b.psize ∧
      result.1.absHead = b.absHead := by
  simp only [dumpTail, bind_eq_ok_iff, check_eq_ok_iff, readData_eq_ok_iff, clear_eq_ok_iff,
    pure_eq_ok_iff, exists_const] at hdump
  obtain ⟨-, hdvd, _, -, _, -, _, ⟨-, rfl⟩, _, ⟨-, rfl⟩, -, rfl⟩ := hdump
  exact ⟨Nat.dvd_of_mod_eq_zero hdvd, rfl, rfl, rfl⟩

namespace Follows

variable [Zero α] {capacity : Nat} {s : KeptStream α} {b' : CircularBuffer α}
  (h : Follows capacity b s)

include h

theorem push (hpush : b.tryPushHead packet = .ok b') :
    Follows capacity b' (s.step capacity (.push packet)) := by
  obtain ⟨hcapacity, hpsize, habsHead⟩ := tryPushHead_fields hpush
  have hoffset : wsub packet.firstByteNum s.absHead = b.headOffset packet := by
    rw [← h.absHead_eq]
    rfl
  simp only [KeptStream.step, hoffset, ← h.psize_eq]
  split
  case isTrue hfar =>
    refine ⟨hcapacity.trans h.capacity_eq, ?_, hpsize.trans h.psize_eq, fun hfit => ?_⟩
    · rw [habsHead, if_pos hfar, h.absHead_eq]
    · rw [hcapacity, hpsize] at hfit
      have hholds := h.holds hfit
      obtain ⟨-, ⟨-, rfl⟩ | ⟨hnear, -⟩ | ⟨hnear, -⟩⟩ :=
        hholds.ring.tryPushHead_eq_ok_iff.mp hpush
      · exact hholds
      · omega
      · omega
  case isFalse hnear =>
    refine ⟨hcapacity.trans h.capacity_eq, ?_, hpsize, fun hfit => ?_⟩
    · rw [habsHead, if_neg hnear]
    · rw [hcapacity, hpsize] at hfit
      have hholds := h.holds hfit
      have hcap := two_mul_le_div_mul hholds.ring.psize_pos hholds.two_fit
      have hpos := hholds.ring.psize_pos
      obtain ⟨hdvd, ⟨hfar, -⟩ | ⟨-, hout, -⟩ | ⟨hnear, -, hlen, rfl⟩⟩ :=
        hholds.ring.tryPushHead_eq_ok_iff.mp hpush
      · omega
      · rw [roundedCap] at hout
        omega
      · rw [← h.capacity_eq]
        exact hholds.pushed hdvd hnear hlen

theorem dump (hle : nbytes ≤ b.range) {result : CircularBuffer α × List α}
    (hdump : b.dumpTail nbytes = .ok result) :
    Follows capacity result.1 (s.step capacity (.dump nbytes)) := by
  obtain ⟨hdvd, hcapacity, hpsize, habsHead⟩ := dumpTail_fields hdump
  refine ⟨hcapacity.trans h.capacity_eq, habsHead.trans h.absHead_eq, hpsize.trans h.psize_eq,
    fun hfit => ?_⟩
  rw [hcapacity, hpsize] at hfit
  have hholds := h.holds hfit
  have hmul : nbytes / b.psize * b.psize = nbytes := Nat.div_mul_cancel hdvd
  have hcount := hholds.div_le_length hdvd hle
  rw [dumpTail_eq hholds.ring hholds.head_lt hle hdvd] at hdump
  obtain rfl := Except.ok.inj hdump
  have hdumped := hholds.dumped hcount
  rw [hmul] at hdumped
  simpa only [KeptStream.step, ← h.psize_eq] using hdumped

/-- Every operation of a run keeps the buffer at the stream. -/
theorem step {op : BufferOp α} (hguard : DumpsWindow b op) (hstep : opStep b op = .ok b') :
    Follows capacity b' (s.step capacity op) := by
  cases op with
  | reset psize =>
      obtain rfl := Except.ok.inj hstep
      refine ⟨h.capacity_eq, h.absHead_eq, rfl, fun hfit => ?_⟩
      obtain ⟨hpos, h2⟩ := two_fit_of_le_div hfit
      exact holds_reset b hpos h2
  | resetAt psize absHead =>
      obtain rfl := Except.ok.inj hstep
      refine ⟨h.capacity_eq, rfl, rfl, fun hfit => ?_⟩
      obtain ⟨hpos, h2⟩ := two_fit_of_le_div hfit
      exact holds_reset { b with absHead, byte0 := absHead } hpos h2
  | push packet => exact h.push hstep
  | dump nbytes =>
      obtain ⟨result, hdump, rfl⟩ := map_eq_ok_iff.mp hstep
      exact h.dump hguard hdump

end Follows

theorem follows_new [Zero α] {capacity : Nat} (hnew : new capacity = some b) :
    Follows capacity b { absHead := 0, psize := 0, kept := [] } := by
  unfold new at hnew
  split at hnew
  case isTrue =>
    obtain rfl := Option.some.inj hnew
    refine ⟨rfl, rfl, rfl, fun hfit => ?_⟩
    have hpos := (two_fit_of_le_div hfit).1
    exact absurd hpos (Nat.lt_irrefl 0)
  case isFalse => cases hnew

/-- A run keeps the buffer at the stream that its operations determine. -/
theorem follows_of_run [Zero α] {capacity : Nat} {ops : List (BufferOp α)}
    {b' : CircularBuffer α} {s : KeptStream α} (h : Follows capacity b s)
    (hguard : Guarded opStep DumpsWindow b ops) (hrun : ops.foldlM opStep b = .ok b') :
    Follows capacity b' (ops.foldl (KeptStream.step capacity) s) := by
  induction ops generalizing b s with
  | nil =>
      obtain rfl := Except.ok.inj hrun
      exact h
  | cons op ops ih =>
      rw [List.foldlM_cons] at hrun
      obtain ⟨c, hop, hrun⟩ := bind_eq_ok_iff.mp hrun
      exact ih (h.step hguard.1 hop) (hguard.2 c hop) hrun

/-- In every state that resets, forward pushes and dumps reach with two packets fitting, a dump
of whole packets outputs the oldest bytes of the stream, with zeros for packets that were never
received, and removes exactly them. -/
theorem dumpTail_removes_oldest [Zero α] {capacity : Nat} {b₀ b : CircularBuffer α}
    {ops : List (BufferOp α)} (hnew : new capacity = some b₀)
    (hguard : Guarded opStep DumpsWindow b₀ ops) (hrun : ops.foldlM opStep b₀ = .ok b)
    (hfit : 2 ≤ b.capacity / b.psize) {nbytes : Nat} (hdvd : b.psize ∣ nbytes)
    (hle : nbytes ≤ b.range) :
    (KeptStream.after capacity ops).kept.length * b.psize = b.range ∧
      ∃ b', b.dumpTail nbytes =
          .ok (b', heard b.psize ((KeptStream.after capacity ops).kept.take (nbytes / b.psize))) ∧
        DumpedFrom b nbytes b' := by
  have hfollows : Follows capacity b (KeptStream.after capacity ops) :=
    follows_of_run (follows_new hnew) hguard hrun
  have hholds := hfollows.holds hfit
  have hmul : nbytes / b.psize * b.psize = nbytes := Nat.div_mul_cancel hdvd
  have houtput := hholds.dumpOutput (hholds.div_le_length hdvd hle)
  have hmax : b.capacity ≤ ptrdiffMax := by
    obtain ⟨-, hcapacity, hmax⟩ := new_fields hnew
    rwa [hfollows.capacity_eq, ← hcapacity]
  refine ⟨hholds.length_eq, b.dumpedBy nbytes, ?_,
    dumpedFrom_dumpedBy hholds.ring hholds.two_fit hmax hle hdvd⟩
  rw [dumpTail_eq hholds.ring hholds.head_lt hle hdvd, ← houtput, hmul]

/-- A run that skips a packet and dumps the one before it. -/
def skippingOps : List (BufferOp UInt8) :=
  [.resetAt 1 5, .push (AudioPacket.oneByte 9 5), .push (AudioPacket.oneByte 9 7), .dump 1,
    .push (AudioPacket.oneByte 9 8)]

/-- After that run a dump of two bytes starts with silence. -/
theorem dumpTail_removes_oldest_skipping :
    ∃ b₀, new 4 = some b₀ ∧ ∃ b, skippingOps.foldlM opStep b₀ = .ok b ∧
      2 ≤ b.capacity / b.psize ∧ b.psize ∣ 2 ∧ 2 ≤ b.range ∧
      ∃ b', b.dumpTail 2 =
          .ok (b', heard b.psize ((KeptStream.after 4 skippingOps).kept.take (2 / b.psize))) ∧
        DumpedFrom b 2 b' := by
  refine ⟨_, rfl, exists_ok_and (by decide) fun b hrun => ?_⟩
  have hfit : 2 ≤ b.capacity / b.psize ∧ b.psize ∣ 2 ∧ 2 ≤ b.range :=
    of_decide_eq_true (eq_of_toOption_map
      (fun b => decide (2 ≤ b.capacity / b.psize ∧ b.psize ∣ 2 ∧ 2 ≤ b.range)) (by decide) hrun)
  exact ⟨hfit.1, hfit.2.1, hfit.2.2,
    (dumpTail_removes_oldest rfl (by decide) hrun hfit.1 hfit.2.1 hfit.2.2).2⟩

end SikRadio.Common.CircularBuffer
