import SikRadio.Common.AudioPacket
import SikRadio.Common.ControlDatagrams

/-!
# The Controller worker

The controller answers lookup requests and queues retransmission requests for
the Retransmitter.

## Implementation notes

`sent` records the replies. `recvfrom` and `sendto` are assumed to succeed.
-/

namespace SikRadio.Sender

open SikRadio.Common Foundations.CheckedRuns

structure Controller where
  lookupReply : LookupReply
  rexmitJobQueue : List RexmitRequest
  retransmitterEvent : List EventType
  sent : List (SockAddr × List Char)

namespace Controller

def handleLookupRequest (s : Controller) (srcAddr : SockAddr) : Controller :=
  { s with sent := s.sent ++ [(srcAddr, s.lookupReply.toStr)] }

def handleRexmitRequest (s : Controller) (req : RexmitRequest) : Controller :=
  { s with
    rexmitJobQueue := s.rexmitJobQueue ++ [req]
    retransmitterEvent := s.retransmitterEvent ++ [.newJobs] }

/-- The string that the constructors get: what `recvfrom` put into the buffer, up to the first
null character. -/
def receivedString (datagram : List Char) : List Char :=
  (datagram.take udpMaxDataSize).takeWhile fun c => c ≠ Char.ofNat 0

/-- One datagram in `run`; what the constructors throw is caught. -/
def handleDatagram (s : Controller) (srcAddr : SockAddr) (datagram : List Char) :
    Except Fault Controller :=
  let reqBuf := receivedString datagram
  if isLookupRequest reqBuf then return s.handleLookupRequest srcAddr
  else do
    match ← RexmitRequest.ofString srcAddr reqBuf with
    | some req => return s.handleRexmitRequest req
    | none => return s

/-- A datagram queues requests of its own sender only. -/
theorem receiverAddr_of_queued {s s' : Controller} {srcAddr : SockAddr} {datagram : List Char}
    (h : s.handleDatagram srcAddr datagram = .ok s') :
    ∀ req ∈ s'.rexmitJobQueue.drop s.rexmitJobQueue.length, req.receiverAddr = srcAddr := by
  unfold handleDatagram at h
  extract_lets reqBuf at h
  split at h
  case isTrue =>
    obtain rfl := Except.ok.inj h
    simp [handleLookupRequest]
  case isFalse =>
    obtain ⟨parsed, hparsed, hs'⟩ := bind_eq_ok_iff.mp h
    cases parsed with
    | none =>
        obtain rfl := Except.ok.inj hs'
        simp
    | some req =>
        obtain rfl := Except.ok.inj hs'
        simpa [handleRexmitRequest] using RexmitRequest.receiverAddr_of_ofString hparsed

/-- A datagram is answered at most once, with the announcement, and at the address it came from. -/
theorem sent_of_handleDatagram {s s' : Controller} {srcAddr : SockAddr} {datagram : List Char}
    (h : s.handleDatagram srcAddr datagram = .ok s') :
    s'.lookupReply = s.lookupReply ∧
      (s'.sent = s.sent ∨ s'.sent = s.sent ++ [(srcAddr, s.lookupReply.toStr)]) := by
  unfold handleDatagram at h
  extract_lets reqBuf at h
  split at h
  case isTrue =>
    obtain rfl := Except.ok.inj h
    exact ⟨rfl, .inr rfl⟩
  case isFalse =>
    obtain ⟨parsed, -, hs'⟩ := bind_eq_ok_iff.mp h
    cases parsed with
    | none =>
        obtain rfl := Except.ok.inj hs'
        exact ⟨rfl, .inl rfl⟩
    | some req =>
        obtain rfl := Except.ok.inj hs'
        exact ⟨rfl, .inl rfl⟩

end Controller

end SikRadio.Sender
