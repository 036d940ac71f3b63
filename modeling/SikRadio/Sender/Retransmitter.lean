import SikRadio.Common.CircularBuffer
import SikRadio.Common.ControlDatagrams

/-!
# The Retransmitter worker

`handle_retransmission` sorts the requested numbers, skips those before the tail
of the cache and walks the cache alongside the rest.

## Implementation notes

The walk adds the payload size to a 64-bit position until it meets the head or
reaches the requested number; it is run for at most `fuel` rounds. The result
lists the datagrams in the order they are sent; `sendto` sending everything is
assumed.
-/

namespace SikRadio.Sender

open SikRadio.Common Foundations.CheckedRuns Foundations.Word64

/-- The inner loop: the position and the cache index at which it stops for the number `id`. -/
def walkCache (cache : CircularBuffer UInt8) (id : Nat) :
    Nat → Nat × Nat → Except Fault (Nat × Nat)
  | 0, _ => .error .outOfFuel
  | fuel + 1, (cachePacketNum, cacheIdx) =>
      if cachePacketNum ≠ cache.absHead ∧ cachePacketNum < id then do
        check (cache.psize ≠ 0) .divByZero
        check (cache.roundedCap ≠ 0) .divByZero
        walkCache cache id fuel
          (wadd cachePacketNum cache.psize, (cacheIdx + cache.psize) % cache.roundedCap)
      else .ok (cachePacketNum, cacheIdx)

/-- The loop over the requested numbers. The header holds both words as they are in memory. -/
def answerFrom (fuel sessionId : Nat) (cache : CircularBuffer UInt8) (receiverAddr : SockAddr) :
    List Nat → Nat × Nat → Except Fault (List (SockAddr × List UInt8))
  | [], _ => .ok []
  | id :: ids, start => do
      let (cachePacketNum, cacheIdx) ← walkCache cache id fuel start
      if cachePacketNum ≠ cache.absHead then return []
      else
        let audioData ← cache.readData cacheIdx cache.psize
        let rest ← answerFrom fuel sessionId cache receiverAddr ids (cachePacketNum, cacheIdx)
        return (receiverAddr, storeWord sessionId ++ storeWord cachePacketNum ++ audioData) :: rest

/-- `handle_retransmission`. -/
def handleRetransmission (fuel sessionId : Nat) (cache : CircularBuffer UInt8)
    (req : RexmitRequest) : Except Fault (List (SockAddr × List UInt8)) := do
  cache.checkRange
  let packetIds := (req.packetIds.insertionSort (· ≤ ·)).dropWhile fun id => id < cache.absTail
  answerFrom fuel sessionId cache req.receiverAddr packetIds (cache.absTail, cache.tail)

theorem answerFrom_dst {fuel sessionId : Nat} {cache : CircularBuffer UInt8}
    {receiverAddr : SockAddr} {ids : List Nat} {start : Nat × Nat}
    {answers : List (SockAddr × List UInt8)}
    (h : answerFrom fuel sessionId cache receiverAddr ids start = .ok answers) :
    ∀ answer ∈ answers, answer.1 = receiverAddr := by
  induction ids generalizing start answers with
  | nil =>
      obtain rfl := Except.ok.inj h
      simp
  | cons id ids ih =>
      obtain ⟨⟨cachePacketNum, cacheIdx⟩, -, h⟩ := bind_eq_ok_iff.mp h
      dsimp only at h
      split at h
      case isTrue =>
        obtain rfl := Except.ok.inj h
        simp
      case isFalse =>
        obtain ⟨audioData, -, h⟩ := bind_eq_ok_iff.mp h
        obtain ⟨rest, hrest, h⟩ := bind_eq_ok_iff.mp h
        obtain rfl := Except.ok.inj h
        rintro answer hanswer
        rcases List.mem_cons.mp hanswer with rfl | hmem
        · rfl
        · exact ih hrest answer hmem

/-- Every answer goes to the address that the request carries. -/
theorem handleRetransmission_dst {fuel sessionId : Nat} {cache : CircularBuffer UInt8}
    {req : RexmitRequest} {answers : List (SockAddr × List UInt8)}
    (h : handleRetransmission fuel sessionId cache req = .ok answers) :
    ∀ answer ∈ answers, answer.1 = req.receiverAddr := by
  obtain ⟨-, -, h⟩ := bind_eq_ok_iff.mp h
  exact answerFrom_dst h

end SikRadio.Sender
