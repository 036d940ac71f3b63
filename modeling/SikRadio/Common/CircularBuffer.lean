import SikRadio.Common.AudioPacket
import SikRadio.Common.Process
import SikRadio.Foundations.MemoryCells

/-!
# The circular buffer

The definitions follow `circular_buffer.cc` member by member. Every division,
assertion and array access that can go wrong is checked and stops with a
`Fault`.

## Implementation notes

Stream positions are 64-bit words and wrap around. Indices are natural numbers:
the allocation bounds the capacity by `PTRDIFF_MAX` and a datagram bounds the
payload, so no sum of indices overflows. The one difference of indices that can
fall below zero, in `fillGap`, wraps around as in the source.
-/

namespace SikRadio.Common

open Foundations.CheckedRuns Foundations.MemoryCells Foundations.Word64

structure CircularBuffer (α : Type) where
  absHead : Nat
  byte0 : Nat
  capacity : Nat
  psize : Nat
  tail : Nat
  head : Nat
  data : Nat → α
  occupied : Nat → Bool
  empty : Bool

namespace CircularBuffer

variable {α : Type}

/-- `PTRDIFF_MAX`, the largest array that `new char[capacity]` can return. -/
def ptrdiffMax : Nat := 2 ^ 63 - 1

/-- The constructor; it ends the program when the arrays cannot be allocated. -/
def new [Zero α] (capacity : Nat) : Option (CircularBuffer α) :=
  if capacity ≤ ptrdiffMax then
    some
      { absHead := 0, byte0 := 0, capacity, psize := 0, tail := 0, head := 0,
        data := fun _ => 0, occupied := fun _ => false, empty := true }
  else none

def roundedCap (b : CircularBuffer α) : Nat := b.capacity / b.psize * b.psize

inductive Side where
  | none
  | left
  | right
  deriving DecidableEq

def sideof (b : CircularBuffer α) (idx : Nat) : Side :=
  if b.tail ≤ b.head then
    if b.tail ≤ idx ∧ idx ≤ b.head then .left else .none
  else if idx ≤ b.head then .left
  else if b.tail ≤ idx ∧ idx < b.roundedCap then .right
  else .none

def range (b : CircularBuffer α) : Nat :=
  if b.tail ≤ b.head then b.head - b.tail
  else b.head + (b.roundedCap - b.tail)

def absTail (b : CircularBuffer α) : Nat := wsub b.absHead b.range

/-- The wrapped branch of `range` divides by `_psize`. -/
def checkRange (b : CircularBuffer α) : Except Fault Unit :=
  check (b.tail ≤ b.head ∨ b.psize ≠ 0) .divByZero

def printingThreshold (b : CircularBuffer α) : Nat := wadd b.byte0 (b.capacity / 4 * 3)

/-- `memset` of both arrays over the same indices. -/
def clear [Zero α] (b : CircularBuffer α) (pos n : Nat) : Except Fault (CircularBuffer α) := do
  check (pos + n ≤ b.capacity) .outOfBounds
  return { b with data := fill b.data pos n 0, occupied := fill b.occupied pos n false }

/-- `memcpy` of `_psize` bytes of the packet to index `pos`, which is marked occupied. -/
def store (b : CircularBuffer α) (pos : Nat) (packet : AudioPacket α) :
    Except Fault (CircularBuffer α) := do
  check (b.psize ≤ packet.psize) .outOfBounds
  check (pos + b.psize ≤ b.capacity ∧ pos < b.capacity) .outOfBounds
  return { b with
    data := blit b.data pos (packet.audioData.take b.psize)
    occupied := fun i => if i = pos then true else b.occupied i }

/-- The bytes that `write` takes from the data array. -/
def readData (b : CircularBuffer α) (pos n : Nat) : Except Fault (List α) := do
  check (pos + n ≤ b.capacity) .outOfBounds
  return slice b.data pos n

/-- The one-argument `reset`. -/
def reset [Zero α] (b : CircularBuffer α) (psize : Nat) : CircularBuffer α :=
  { b with
    tail := 0, head := 0, psize, empty := true
    data := fill b.data 0 b.capacity 0
    occupied := fill b.occupied 0 b.capacity false }

/-- The two-argument `reset`. -/
def resetAt [Zero α] (b : CircularBuffer α) (psize absHead : Nat) : CircularBuffer α :=
  { b with absHead, byte0 := absHead }.reset psize

/-- The second component is what is written to standard output. -/
def dumpTail [Zero α] (b : CircularBuffer α) (nbytes : Nat) :
    Except Fault (CircularBuffer α × List α) := do
  check (b.psize ≠ 0) .divByZero
  check (nbytes % b.psize = 0) .assertFailed
  let fstChunk :=
    if b.head < b.tail ∧ b.roundedCap - b.tail < nbytes then b.roundedCap - b.tail else nbytes
  let sndChunk := nbytes - fstChunk
  let fst ← b.readData b.tail fstChunk
  let snd ← b.readData 0 sndChunk
  let cleared ← b.clear b.tail fstChunk
  let cleared ← cleared.clear 0 sndChunk
  check (b.roundedCap ≠ 0) .divByZero
  return ({ cleared with tail := (b.tail + nbytes) % b.roundedCap }, fst ++ snd)

/-- The index at which `fill_gap` stores: the offset moved by the tail and, when
the buffer is wrapped and the offset lies left, moved back by the part of the
ring from the tail on. -/
def gapIndex (b : CircularBuffer α) (tailOffset : Nat) : Nat :=
  if b.head < b.tail ∧ b.sideof tailOffset = .left then
    wsub (b.tail + tailOffset) (b.roundedCap - b.tail)
  else b.tail + tailOffset

/-- The distance of a packet from the tail of the window. -/
def tailOffset (b : CircularBuffer α) (packet : AudioPacket α) : Nat :=
  wsub packet.firstByteNum b.absTail

def fillGap (b : CircularBuffer α) (packet : AudioPacket α) :
    Except Fault (CircularBuffer α) := do
  b.checkRange
  check (b.psize ≠ 0) .divByZero
  check (b.tailOffset packet % b.psize = 0) .assertFailed
  -- the side is asked for the offset, not for an index
  check (b.sideof (b.tailOffset packet) ≠ .none) .assertFailed
  let stored ← b.store (b.gapIndex (b.tailOffset packet)) packet
  return { stored with empty := false }

/-- The distance of a packet from the head. -/
def headOffset (b : CircularBuffer α) (packet : AudioPacket α) : Nat :=
  wsub packet.firstByteNum b.absHead

/-- Clear the slots that a push skips, from the head up to the write position. -/
def clearSkipped [Zero α] (b : CircularBuffer α) (writePos : Nat) :
    Except Fault (CircularBuffer α) :=
  if b.head ≤ writePos then b.clear b.head (writePos - b.head)
  else do
    let cleared ← b.clear b.head (b.roundedCap - b.head)
    cleared.clear 0 writePos

/-- The tail after a push, given the unreduced new head. -/
def tailAfterPush (b : CircularBuffer α) (virtNewHead : Nat) : Nat :=
  let newHead := virtNewHead % b.roundedCap
  let newTail := (newHead + b.psize) % b.roundedCap
  if b.roundedCap ≤ virtNewHead ∧
      ((b.tail ≤ b.head ∧ b.tail ≤ newHead) ∨ b.head < b.tail) then newTail
  else if b.head < b.tail ∧ b.tail ≤ newHead then newTail
  else b.tail

def tryPushHead [Zero α] (b : CircularBuffer α) (packet : AudioPacket α) :
    Except Fault (CircularBuffer α) := do
  check (b.psize ≠ 0) .divByZero
  check (b.headOffset packet % b.psize = 0) .assertFailed
  if b.psize < b.headOffset packet then
    return b
  else
    let absHead := wadd packet.firstByteNum b.psize
    if b.roundedCap ≤ b.headOffset packet then
      let stored ← (b.reset b.psize).store 0 packet
      check (b.roundedCap ≠ 0) .divByZero
      return { stored with
        absHead
        head := b.psize
        tail := (b.psize + b.psize) % b.roundedCap
        empty := false }
    else
      let writePos := (b.head + b.headOffset packet) % b.roundedCap
      let cleared ← b.clearSkipped writePos
      let stored ← cleared.store writePos packet
      let virtNewHead := b.head + b.headOffset packet + b.psize
      return { stored with
        absHead
        head := virtNewHead % b.roundedCap
        tail := b.tailAfterPush virtNewHead
        empty := false }

def tryPut [Zero α] (b : CircularBuffer α) (packet : AudioPacket α) :
    Except Fault (CircularBuffer α) := do
  b.checkRange
  if packet.firstByteNum < b.absTail then
    return b
  else if b.absHead ≤ packet.firstByteNum then
    b.tryPushHead packet
  else
    b.fillGap packet

/-- The rounds of `cnt_upto_gap` from index `i` on, with `cnt` packets counted. -/
def countFrom (b : CircularBuffer α) : Nat → Nat → Nat → Except Fault Nat
  | 0, _, _ => .error .outOfFuel
  | fuel + 1, cnt, i => do
      check (i < b.capacity) .outOfBounds
      if b.occupied i then
        check (b.psize ≠ 0) .divByZero
        check (b.roundedCap ≠ 0) .divByZero
        let next := (i + b.psize) % b.roundedCap
        -- the loop is bounded by the tail, not by the head
        if next = b.tail then return cnt + 1
        else b.countFrom fuel (cnt + 1) next
      else return cnt

/-- `cnt_upto_gap`, run for at most `fuel` rounds. -/
def cntUptoGap (b : CircularBuffer α) (fuel : Nat) : Except Fault Nat :=
  b.countFrom fuel 0 b.tail

/-- The packets that `try_put` drops: too far behind or too far ahead. -/
def Dismisses (b : CircularBuffer α) (packet : AudioPacket α) : Prop :=
  packet.firstByteNum < b.absTail ∨
    (b.absHead ≤ packet.firstByteNum ∧ b.psize < b.headOffset packet)

instance (b : CircularBuffer α) (packet : AudioPacket α) : Decidable (b.Dismisses packet) :=
  inferInstanceAs (Decidable (_ ∨ _))

end CircularBuffer

end SikRadio.Common
