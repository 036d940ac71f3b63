import SikRadio.Common.CircularBuffer

/-!
# The AudioReceiver and AudioPrinter workers

The two workers share the buffer and the printer's event queue. Every section
of code that runs under the buffer lock is one step: the session checks with
the reset of a new session, the put with its print job, and one `handle_print`.
An action that its worker cannot take, because it has no packet in hand or no
event to handle, leaves the state unchanged, so that every list of actions is
an interleaving.

## Implementation notes

`log` is not part of the program. It records what the properties speak about:
the packets handled and kept, the chunks written with the stream position of
the tail, and the station changes. Log messages of the program are left out.
-/

namespace SikRadio.Receiver

open SikRadio.Common Foundations.CheckedRuns Foundations.Word64

/-- `read_packet`. The socket cuts a datagram to the buffer; one that is shorter than a
header is malformed. -/
def readPacket (datagram : List UInt8) : Option (AudioPacket UInt8) :=
  let pktBuf := datagram.take udpMaxDataSize
  if pktBuf.length < 16 then none
  else some (AudioPacket.ofBuffer pktBuf (pktBuf.length - 16))

/-- `NO_SESSION`. -/
def noSession : Nat := 0

inductive Observation (α : Type) where
  | handled (packet : AudioPacket α)
  | kept (packet : AudioPacket α)
  | written (position byte0 absHead : Nat) (chunk : List α)
  | stationChanged

structure Playback (α : Type) where
  buffer : CircularBuffer α
  hasPrinted : Bool
  curSession : Nat
  inHand : Option (AudioPacket α)
  printerQueue : List EventType
  printing : Bool
  log : List (Observation α)

/-- What the two workers can do next. -/
inductive Action (α : Type) where
  | receive (packet : AudioPacket α)
  | put
  | changeStation
  | popEvent
  | print

/-- A packet that is put as soon as it is received. -/
def arrival {α : Type} (packet : AudioPacket α) : List (Action α) := [.receive packet, .put]

/-- The packets that a list of actions receives. -/
def received {α : Type} (actions : List (Action α)) : List (AudioPacket α) :=
  actions.filterMap fun
    | .receive packet => some packet
    | _ => none

namespace Playback

variable {α : Type} [Zero α]

/-- The workers before their first event, over the buffer that `main` makes. -/
def init (buffer : CircularBuffer α) : Playback α where
  buffer
  hasPrinted := false
  curSession := noSession
  inHand := none
  printerQueue := []
  printing := false
  log := []

/-- `handle_audio_packet` up to the put: the session checks and, for a newer
session, the reset under the lock. -/
def openSession (s : Playback α) (packet : AudioPacket α) : Playback α :=
  if packet.sessionId < s.curSession then s
  else if s.buffer.capacity < s.buffer.psize then { s with curSession := noSession }
  else
    let s :=
      if s.curSession < packet.sessionId then
        { s with
          curSession := packet.sessionId
          hasPrinted := false
          buffer := s.buffer.resetAt packet.psize packet.firstByteNum }
      else s
    if packet.firstByteNum < s.buffer.byte0 then s
    else { s with inHand := some packet }

/-- The test that decides about a print job after a put. -/
def Prints (s : Playback α) (packet : AudioPacket α) : Prop :=
  s.hasPrinted = true ∨
    s.buffer.printingThreshold ≤ wsub (wadd packet.firstByteNum s.buffer.psize) 1

instance (s : Playback α) (packet : AudioPacket α) : Decidable (s.Prints packet) :=
  inferInstanceAs (Decidable (_ ∨ _))

/-- The state with the buffer that `try_put` left; the packet is gone from hand. -/
def stored (s : Playback α) (packet : AudioPacket α) (buffer : CircularBuffer α) : Playback α :=
  { s with
    buffer
    inHand := none
    log := if s.buffer.Dismisses packet then s.log else s.log ++ [.kept packet] }

/-- What follows `try_put` in the second critical section of `handle_audio_packet`. -/
def afterPut (s : Playback α) (packet : AudioPacket α) (buffer : CircularBuffer α) :
    Playback α :=
  let s := s.stored packet buffer
  if s.Prints packet then
    { s with hasPrinted := true, printerQueue := s.printerQueue ++ [.newJobs] }
  else s

/-- The second critical section of `handle_audio_packet`. -/
def putPacket (s : Playback α) (packet : AudioPacket α) : Except Fault (Playback α) := do
  let buffer ← s.buffer.tryPut packet
  return s.afterPut packet buffer

/-- `handle_audio_packet` when no other worker runs between its two sections. -/
def handleAudioPacket (s : Playback α) (packet : AudioPacket α) : Except Fault (Playback α) :=
  let s : Playback α := { s.openSession packet with log := s.log ++ [.handled packet] }
  match s.inHand with
  | none => .ok s
  | some packet => s.putPacket packet

/-- A datagram on the data socket; a malformed one is logged and dropped. -/
def handleDatagram (s : Playback UInt8) (datagram : List UInt8) :
    Except Fault (Playback UInt8) :=
  match readPacket datagram with
  | none => .ok s
  | some packet => s.handleAudioPacket packet

/-- The handling of `CURRENT_STATION_CHANGED` in `run`, as far as the buffer is concerned. -/
def changeStation (s : Playback α) : Playback α :=
  { s with curSession := noSession, log := s.log ++ [.stationChanged] }

/-- `AudioPrinterWorker::run` reads one event. -/
def popEvent (s : Playback α) : Playback α :=
  match s.printerQueue with
  | [] => s
  | event :: rest => { s with printerQueue := rest, printing := event = .newJobs }

/-- `handle_print`; the warning about a packet loss reads the flag of the tail slot. -/
def handlePrint (s : Playback α) : Except Fault (Playback α) := do
  check (s.buffer.tail < s.buffer.capacity) .outOfBounds
  let (buffer, chunk) ← s.buffer.dumpTail s.buffer.psize
  return { s with
    buffer
    printing := false
    log := s.log ++ [.written s.buffer.absTail s.buffer.byte0 s.buffer.absHead chunk] }

def step (s : Playback α) : Action α → Except Fault (Playback α)
  | .receive packet =>
      match s.inHand with
      | some _ => .ok s
      | none => .ok { s.openSession packet with log := s.log ++ [.handled packet] }
  | .put =>
      match s.inHand with
      | some packet => s.putPacket packet
      | none => .ok s
  | .changeStation =>
      match s.inHand with
      | some _ => .ok s
      | none => .ok s.changeStation
  | .popEvent => if s.printing then .ok s else .ok s.popEvent
  | .print => if s.printing then s.handlePrint else .ok s

/-- Run a list of actions. -/
def run (s : Playback α) (actions : List (Action α)) : Except Fault (Playback α) :=
  actions.foldlM step s

/-- The print jobs that are queued or taken from the queue and not yet handled. -/
def pendingJobs (s : Playback α) : Nat :=
  s.printerQueue.count .newJobs + if s.printing then 1 else 0

end Playback

end SikRadio.Receiver
