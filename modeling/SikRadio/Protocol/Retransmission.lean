import SikRadio.Receiver.Playback
import SikRadio.Receiver.RexmitSender
import SikRadio.Sender.AudioSender
import SikRadio.Sender.Controller
import SikRadio.Sender.Retransmitter

/-!
# A request for retransmission and its answers

The request goes from the control socket of the RexmitSender to the controller,
which queues it for the Retransmitter; the answers go back to the address the
request came from. The packets of the station are awaited on the data socket of
the AudioReceiver, which is another socket with another port, so no answer is
ever handled as a packet: a gap is never closed by the answers to its request.

## Implementation notes

The network is taken at its best: it loses nothing and delivers every datagram
to the socket bound at its destination address.
-/

namespace SikRadio.Protocol

open SikRadio.Common SikRadio.Receiver SikRadio.Sender
open Foundations.CheckedRuns Foundations.MemoryCells Foundations.Word64

/-- A host that runs the receiver. Both sockets are bound at every address of the host, so
the system gives them different ports. -/
structure ReceiverHost where
  sAddr : Nat
  dataPort : Nat
  rexmitPort : Nat
  dataPort_lt : dataPort < 2 ^ 16
  rexmitPort_lt : rexmitPort < 2 ^ 16
  distinct : rexmitPort ≠ dataPort

namespace ReceiverHost

def dataAddr (host : ReceiverHost) : SockAddr := ⟨host.sAddr, htons host.dataPort⟩

/-- The source address of what the RexmitSender sends. -/
def rexmitAddr (host : ReceiverHost) : SockAddr := ⟨host.sAddr, htons host.rexmitPort⟩

theorem rexmitAddr_ne_dataAddr (host : ReceiverHost) : host.rexmitAddr ≠ host.dataAddr := by
  intro h
  have hport : htons host.rexmitPort = htons host.dataPort := congrArg SockAddr.sinPort h
  apply host.distinct
  rw [← ntohs_htons host.rexmitPort_lt, hport, ntohs_htons host.dataPort_lt]

/-- The datagrams that reach the data socket. -/
def dataSocketReceives (host : ReceiverHost) (datagrams : List (SockAddr × List UInt8)) :
    List (List UInt8) :=
  (datagrams.filter fun d => d.1 = host.dataAddr).map Prod.snd

end ReceiverHost

/-- What the two programs of an exchange hold. -/
structure Exchange where
  host : ReceiverHost
  stations : Stations
  receiver : Playback UInt8
  controller : Controller
  sender : AudioSender UInt8

namespace Exchange

/-- Serve the requests that a datagram has queued. -/
def serve (fuel : Nat) (x : Exchange) (served : Controller) :
    Except Fault (List (SockAddr × List UInt8)) := do
  let jobs := served.rexmitJobQueue.drop x.controller.rexmitJobQueue.length
  let answers ← jobs.mapM (handleRetransmission fuel x.sender.sessionId x.sender.packetCache)
  return answers.flatten

/-- One `order_retransmission` up to the answers that the network delivers to the data socket;
nothing when no request is sent. -/
def run (fuel : Nat) (x : Exchange) : Except Fault (Option (List (List UInt8))) := do
  match ← orderRetransmission fuel x.stations x.receiver.buffer with
  | none => return none
  | some (_, text) =>
      let served ← x.controller.handleDatagram x.host.rexmitAddr text
      let answers ← x.serve fuel served
      return some (x.host.dataSocketReceives answers)

/-- The index of the slot of position `n`. -/
def slot (buffer : CircularBuffer UInt8) (n : Nat) : Nat :=
  (buffer.tail + wsub n buffer.absTail) % buffer.roundedCap

/-- The positions of the window. -/
def InWindow (buffer : CircularBuffer UInt8) (n : Nat) : Prop :=
  buffer.absTail ≤ n ∧ n < buffer.absHead ∧ buffer.psize ∣ n - buffer.absTail

instance (buffer : CircularBuffer UInt8) (n : Nat) : Decidable (InWindow buffer n) :=
  inferInstanceAs (Decidable (_ ∧ _))

/-- Nothing happened to the slot of position `n`. -/
def Untouched (before after : CircularBuffer UInt8) (n : Nat) : Prop :=
  after.occupied (slot before n) = before.occupied (slot before n) ∧
    slice after.data (slot before n) before.psize = slice before.data (slot before n) before.psize

/-- The answers close the gap at position `n`: one of the datagrams on the data socket, decoded
and handled, leaves the slot of `n` occupied with what the sender sent, and leaves the other
slots of the window alone, except those of packets that are answered too. -/
def ClosesGap (fuel : Nat) (x : Exchange) (n : Nat) : Prop :=
  ∃ datagrams datagram packet after original,
    x.run fuel = .ok (some datagrams) ∧ datagram ∈ datagrams ∧
      readPacket datagram = some packet ∧ x.receiver.handleAudioPacket packet = .ok after ∧
      original ∈ x.sender.sent ∧ original.firstByteNum = n ∧
      after.buffer.occupied (slot x.receiver.buffer n) = true ∧
      slice after.buffer.data (slot x.receiver.buffer n) x.receiver.buffer.psize =
        original.audioData ∧
      ∀ m, InWindow x.receiver.buffer m → m ≠ n →
        (∀ d ∈ datagrams, ∀ p, readPacket d = some p → p.firstByteNum ≠ m) →
        Untouched x.receiver.buffer after.buffer m

variable {fuel : Nat} {x : Exchange}

/-- Every answer to a request of the receiver goes to the RexmitSender. -/
theorem dst_of_serve {served : Controller} {text : List Char}
    (hserved : x.controller.handleDatagram x.host.rexmitAddr text = .ok served)
    {answers : List (SockAddr × List UInt8)} (hanswers : x.serve fuel served = .ok answers) :
    ∀ answer ∈ answers, answer.1 = x.host.rexmitAddr := by
  obtain ⟨answered, hmap, h⟩ := bind_eq_ok_iff.mp hanswers
  obtain rfl := Except.ok.inj h
  intro answer hanswer
  obtain ⟨ofRequest, hmem, hin⟩ := List.mem_flatten.mp hanswer
  obtain ⟨req, hreq, hserve⟩ := exists_of_mem_mapM hmap hmem
  rw [handleRetransmission_dst hserve answer hin]
  exact Controller.receiverAddr_of_queued hserved req hreq

/-- The data socket receives none of the answers. -/
theorem dataSocket_receives_nothing {datagrams : List (List UInt8)}
    (h : x.run fuel = .ok (some datagrams)) : datagrams = [] := by
  obtain ⟨order, -, h⟩ := bind_eq_ok_iff.mp h
  cases order with
  | none => cases Except.ok.inj h
  | some order =>
      obtain ⟨served, hserved, h⟩ := bind_eq_ok_iff.mp h
      obtain ⟨answers, hanswers, h⟩ := bind_eq_ok_iff.mp h
      obtain rfl := Option.some.inj (Except.ok.inj h)
      have hdst := dst_of_serve hserved hanswers
      have hnone : answers.filter (fun d => d.1 = x.host.dataAddr) = [] := by
        apply List.filter_eq_nil_iff.mpr
        intro answer hanswer
        simpa [hdst answer hanswer] using x.host.rexmitAddr_ne_dataAddr
      simp [ReceiverHost.dataSocketReceives, hnone]

/-- No gap is ever closed by the answers to a request. -/
theorem retransmission_never_closes (fuel : Nat) (x : Exchange) (n : Nat) :
    ¬ x.ClosesGap fuel n := by
  rintro ⟨datagrams, datagram, -, -, -, hrun, hmem, -⟩
  rw [dataSocket_receives_nothing hrun] at hmem
  exact List.not_mem_nil hmem

section Example

def exampleReply : LookupReply := ⟨['2', '3', '9', '.', '1', '.', '1', '.', '1'], 20000, ['R']⟩

/-- The receiver knows one station. The sender has sent three packets of one byte, of which
the receiver has got the first and the last. -/
def afterOneLoss : Except Fault Exchange := do
  let stations ← Stations.run (fun _ => some 5) none .init
    [.handleLookupReply exampleReply ⟨2, htons 30000⟩ 0 0]
  let buffer ← (CircularBuffer.new 4).elim (.error .fatal) .ok
  let receiver ← Playback.run (.init buffer)
    (arrival (AudioPacket.oneByte 7 0) ++ arrival (AudioPacket.oneByte 7 2))
  let sender ← (AudioSender.init 1 4 7).elim (.error .fatal) .ok
  let sender ← [[10], [11], [12]].foldlM AudioSender.readChunk sender
  return { host := ⟨1, 20000, 40000, by decide, by decide, by decide⟩, stations, receiver,
           controller := ⟨exampleReply, [], [], []⟩, sender }

/-- Packet 1 is in both windows and missing. The receiver asks for it, and nothing comes back
to the data socket. -/
theorem lost_packet_stays_lost :
    ∃ x, afterOneLoss = .ok x ∧
      (InWindow x.receiver.buffer 1 ∧ InWindow x.sender.packetCache 1 ∧
        x.receiver.buffer.occupied (slot x.receiver.buffer 1) = false) ∧
      x.run 10 = .ok (some []) ∧ ¬ x.ClosesGap 10 1 := by
  apply exists_ok_and (by decide)
  intro x hx
  have hgap := eq_of_toOption_map (v := true) (fun x : Exchange =>
    decide (InWindow x.receiver.buffer 1 ∧ InWindow x.sender.packetCache 1 ∧
      x.receiver.buffer.occupied (slot x.receiver.buffer 1) = false)) (by decide) hx
  have hrun : x.run 10 = .ok (some []) := eq_ok_of_toOption (eq_of_toOption_map
    (v := some (some [])) (fun x : Exchange => (x.run 10).toOption) (by decide) hx)
  refine ⟨of_decide_eq_true hgap, hrun, ?_⟩
  rintro ⟨datagrams, datagram, -, -, -, hrun', hmem, -⟩
  obtain rfl : [] = datagrams := Option.some.inj (Except.ok.inj (hrun.symm.trans hrun'))
  exact List.not_mem_nil hmem

end Example

end Exchange

end SikRadio.Protocol
