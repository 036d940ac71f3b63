import SikRadio.Common.CircularBuffer
import SikRadio.Common.ControlDatagrams
import SikRadio.Receiver.Stations

/-!
# The RexmitSender worker

`order_retransmission` walks the window of the buffer from the tail to the head
and asks the current station for the slots that are not occupied.

## Implementation notes

The loop ends when it meets the head; it is run for at most `fuel` rounds.
`sendto` sending the whole text is assumed.
-/

namespace SikRadio.Receiver

open SikRadio.Common Foundations.CheckedRuns Foundations.Word64

variable {α : Type}

/-- The loop of `order_retransmission` from index `i` on. -/
def missingFrom (buffer : CircularBuffer α) : Nat → Nat → Except Fault (List Nat)
  | 0, _ => .error .outOfFuel
  | fuel + 1, i =>
      if i = buffer.head then .ok []
      else do
        check (i < buffer.capacity) .outOfBounds
        check (buffer.psize ≠ 0) .divByZero
        check (buffer.roundedCap ≠ 0) .divByZero
        let packetIds ← missingFrom buffer fuel ((i + buffer.psize) % buffer.roundedCap)
        return if buffer.occupied i then packetIds else wadd i buffer.absTail :: packetIds

/-- `order_retransmission`: the address and the text that it sends, if it sends any. -/
def orderRetransmission (fuel : Nat) (stations : Stations) (buffer : CircularBuffer α) :
    Except Fault (Option (SockAddr × List Char)) :=
  if stations.currentStation = none then return none
  else do
    let packetIds ← if buffer.empty then pure [] else missingFrom buffer fuel buffer.tail
    if packetIds = [] then return none
    else
      let station ← stations.current
      -- the address in the request is not part of its text
      return some (station.ctrlAddr, RexmitRequest.toStr ⟨⟨0, 0⟩, packetIds⟩)

end SikRadio.Receiver
