import SikRadio.Common.CircularBuffer

/-!
# The AudioSender worker

The worker collects what `read` returns until a packet is complete, sends it
and puts it into the cache. A run is the list of what the calls of `read`
return before the end of the input.

## Implementation notes

`sent` records what was sent. `poll` reporting an event and `sendto` sending
everything are assumed.
-/

namespace SikRadio.Sender

open SikRadio.Common Foundations.CheckedRuns Foundations.MemoryCells Foundations.Word64

structure AudioSender (α : Type) where
  psize : Nat
  sessionId : Nat
  packetCache : CircularBuffer α
  audioBuf : Nat → α
  nread : Nat
  firstByteNum : Nat
  sent : List (AudioPacket α)

namespace AudioSender

variable {α : Type} [Zero α]

/-- The worker before its loop, with the cache that `main` makes. -/
def init (psize fsize sessionId : Nat) : Option (AudioSender α) :=
  (CircularBuffer.new fsize).map fun cache =>
    { psize, sessionId, packetCache := cache.reset psize, audioBuf := fun _ => 0, nread := 0,
      firstByteNum := 0, sent := [] }

def sendPacket (s : AudioSender α) (packet : AudioPacket α) :
    Except Fault (AudioSender α) := do
  let sent := s.sent ++ [packet]
  let packetCache ← s.packetCache.tryPut packet
  return { s with sent, packetCache }

/-- One iteration of the loop in `run`, in which `read` returns the bytes of `chunk`. -/
def readChunk (s : AudioSender α) (chunk : List α) : Except Fault (AudioSender α) := do
  let audioBuf := blit s.audioBuf s.nread chunk
  let nread := s.nread + chunk.length
  if nread = s.psize then
    let s' ← s.sendPacket
      (AudioPacket.ofWords s.sessionId s.firstByteNum (slice audioBuf 0 s.psize))
    return { s' with
      firstByteNum := wadd s.firstByteNum s.psize
      audioBuf := fill audioBuf 0 (s.psize + 1) 0
      nread := 0 }
  else return { s with audioBuf, nread }

/-- What `read` can return before the end of the input: at least one byte, and at most as
many as asked for. -/
def ReadReturns (s : AudioSender α) (chunk : List α) : Prop :=
  0 < chunk.length ∧ chunk.length ≤ s.psize - s.nread

instance (s : AudioSender α) (chunk : List α) : Decidable (s.ReadReturns chunk) :=
  inferInstanceAs (Decidable (_ ∧ _))

end AudioSender

end SikRadio.Sender
