import SikRadio.Common.SignalHandler
import SikRadio.Sender.RequestClasses

/-!
# The locks of the sender

The workers share the job queue, the packet cache and the event queues. The
Controller takes the lock of the job queue before it pushes the event, and the
Retransmitter takes it after it has popped the event.

## Implementation notes

As for the receiver, a write to a queue waits while the pipe is full. The
Retransmitter may serve any number of jobs in a turn.
-/

namespace SikRadio.Sender.Locking

open SikRadio.Common Foundations.LockOrder Foundations.CheckedRuns

/-- The workers, in the order of their ids. -/
inductive Worker where
  | retransmitter
  | controller
  | audioSender
  deriving DecidableEq

/-- The threads of the workers and the one of `main`. -/
inductive Thread where
  | worker (w : Worker)
  | main
  deriving DecidableEq

inductive Lock where
  | jobQueue
  | packetCache
  | event (w : Worker)
  deriving DecidableEq

/-- The ids from the greatest one down. -/
def workers : List Worker := [.audioSender, .controller, .retransmitter]

instance : Fintype Worker := ⟨workers.toFinset, fun w => by cases w <;> simp [workers]⟩

instance : Fintype Thread :=
  ⟨insert .main (Finset.univ.image .worker), fun t => by cases t <;> simp⟩

instance : Fintype Lock :=
  ⟨{.jobQueue, .packetCache} ∪ Finset.univ.image .event, fun l => by cases l <;> simp⟩

/-! ## What the functions do under locks -/

def handleRexmitRequest : List (Instr Lock Worker) :=
  locked .jobQueue <| locked (.event .retransmitter) [.push .retransmitter]

def handleRetransmission : List (Instr Lock Worker) := locked .packetCache []

/-- The handling of `NEW_JOBS`: the length of the queue is read under its lock, the jobs are
served without it. -/
def serveJobs (newJobs : Nat) : List (Instr Lock Worker) :=
  locked .jobQueue [] ++ (List.range newJobs).flatMap fun _ => handleRetransmission

/-- `send_packet`, after the packet was sent. -/
def sendPacket : List (Instr Lock Worker) := locked .packetCache []

/-- `signal_handler`, which finds the given workers signalled when it gets to them. -/
def signalHandler (signalled : Worker → Bool) : List (Instr Lock Worker) :=
  Common.signalHandler .event workers signalled

/-- What one datagram in the Controller's `run` does to locks and queues. -/
def ofDatagram (srcAddr : SockAddr) (datagram : List Char) : List (Instr Lock Worker) :=
  let reqBuf := Controller.receivedString datagram
  if isLookupRequest reqBuf then []
  else
    match RexmitRequest.ofString srcAddr reqBuf with
    | .ok (some _) => handleRexmitRequest
    | _ => []

/-- The events that a datagram queues are those that its code pushes. -/
theorem events_of_handleDatagram {s s' : Controller} {srcAddr : SockAddr} {datagram : List Char}
    (h : s.handleDatagram srcAddr datagram = .ok s') :
    s'.retransmitterEvent.length = s.retransmitterEvent.length +
      (ofDatagram srcAddr datagram).count (.push .retransmitter) := by
  unfold Controller.handleDatagram at h
  unfold ofDatagram
  dsimp only at h ⊢
  split at h
  case isTrue hlookup =>
    obtain rfl := Except.ok.inj h
    simp [hlookup, Controller.handleLookupRequest]
  case isFalse hlookup =>
    obtain ⟨parsed, hparsed, hs'⟩ := bind_eq_ok_iff.mp h
    rw [if_neg hlookup, hparsed]
    cases parsed with
    | none =>
        obtain rfl := Except.ok.inj hs'
        rfl
    | some req =>
        obtain rfl := Except.ok.inj hs'
        simp [Controller.handleRexmitRequest, handleRexmitRequest]

/-! ## The order of the locks -/

def rank : Lock → Nat
  | .jobQueue => 0
  | .packetCache => 1
  | .event _ => 2

theorem balanced_handleRexmitRequest : Balanced rank ∅ handleRexmitRequest :=
  .locked (by simp) (.locked (by decide) ((balanced_nil _).push _))

theorem balanced_handleRetransmission : Balanced rank ∅ handleRetransmission :=
  .locked (by simp) (balanced_nil _)

theorem balanced_serveJobs (newJobs : Nat) : Balanced rank ∅ (serveJobs newJobs) :=
  .append (.locked (by simp) (balanced_nil _)) (.flatMap fun _ _ => balanced_handleRetransmission)

theorem balanced_ofDatagram (srcAddr : SockAddr) (datagram : List Char) :
    Balanced rank ∅ (ofDatagram srcAddr datagram) := by
  unfold ofDatagram
  dsimp only
  split
  · exact balanced_nil _
  · split
    · exact balanced_handleRexmitRequest
    · exact balanced_nil _

/-! ## The turns of the threads -/

/-- What a thread runs in one turn of its loop, and the queue from which it takes an event
before. -/
inductive Turn : Thread → Option Worker → List (Instr Lock Worker) → Prop
  /-- An event to which its worker does nothing, `TERMINATE` among them. -/
  | event (w : Worker) : Turn (.worker w) w []
  | datagram (srcAddr : SockAddr) (datagram : List Char) :
      Turn (.worker .controller) none (ofDatagram srcAddr datagram)
  | newJobs (newJobs : Nat) :
      Turn (.worker .retransmitter) (some .retransmitter) (serveJobs newJobs)
  | sendPacket : Turn (.worker .audioSender) none sendPacket

/-- What the threads and the signals do. -/
def Allowed : Action Thread Lock Worker → Prop
  | .start t event code => Turn t event code
  | .interrupt _ code => ∃ signalled, code = signalHandler signalled
  | .advance _ => True

/-- No signal is handled on a thread that holds the lock of a queue. -/
def Harmless (s : Threads Thread Lock Worker) : Action Thread Lock Worker → Prop
  | .interrupt t _ => ∀ w, s.owner (.event w) ≠ some t
  | _ => True

theorem Turn.balanced {t : Thread} {event : Option Worker} {code : List (Instr Lock Worker)}
    (h : Turn t event code) : Balanced rank ∅ code := by
  cases h with
  | event => exact balanced_nil _
  | datagram => exact balanced_ofDatagram _ _
  | newJobs => exact balanced_serveJobs _
  | sendPacket => exact .locked (by simp) (balanced_nil _)

theorem disciplined_of_allowed {s : Threads Thread Lock Worker} {a : Action Thread Lock Worker}
    (ha : Allowed a) (hs : Harmless s a) : Threads.Disciplined rank s a := by
  cases a with
  | start t event code => exact Turn.balanced ha
  | interrupt t code =>
      obtain ⟨signalled, rfl⟩ := ha
      refine balanced_signalHandler (fun m hm w => ?_) signalled
      cases m with
      | event v => exact absurd (Threads.mem_heldBy.mp hm) (hs v)
      | jobQueue => exact Nat.zero_lt_two
      | packetCache => exact Nat.one_lt_two
  | advance t => trivial

/-! ## Who waits for whom -/

/-- As for the receiver, threads that wait do so for one that can go on or writes to a full
queue. -/
theorem waits_end {capacity : Nat} {s : Threads Thread Lock Worker}
    (hreach : Threads.Reaches capacity (fun s a => Allowed a ∧ Harmless s a) Threads.idle s) :
    (∀ t, s.code t ≠ [] → ∃ u, Relation.ReflTransGen s.Waits t u ∧
      (s.CanAdvance capacity u ∨ s.LacksRoom capacity u)) ∧
    ((∀ w, s.toWrite w ≤ capacity) →
      ∃ ts : List Thread, ∀ t, (ts.foldl (fun s t => s.advance capacity t) s).code t = []) := by
  have horderly : Threads.Orderly rank s :=
    Threads.Orderly.reaches (fun _ _ ha => disciplined_of_allowed ha.1 ha.2)
      Threads.orderly_idle hreach
  exact ⟨fun t ht => horderly.exists_chain ht, fun hroom => horderly.exists_drain hroom⟩

/-- The AudioSender has taken the lock of the packet cache, and a signal runs on the thread of
`main`. -/
def interrupted : Threads Thread Lock Worker :=
  ((Threads.idle.step 1 (.start (.worker .audioSender) none sendPacket)).step 1
    (.advance (.worker .audioSender))).step 1 (.interrupt .main (signalHandler fun _ => false))

theorem waits_end_interrupted :
    ∃ ts : List Thread, ∀ t,
      (ts.foldl (fun s t => s.advance 1 t) interrupted).code t = [] := by
  have hreach : Threads.Reaches 1 (fun s a => Allowed a ∧ Harmless s a) Threads.idle interrupted :=
    .tail (.tail (.single ⟨.start (.worker .audioSender) none sendPacket,
        ⟨Turn.sendPacket, trivial⟩, rfl⟩)
      ⟨.advance (.worker .audioSender), ⟨trivial, trivial⟩, rfl⟩)
      ⟨.interrupt .main _, ⟨⟨_, rfl⟩, fun w => by simp [Threads.idle, Threads.step, Threads.start,
        Threads.advance, Threads.take, Threads.setCode, Threads.setOwner, sendPacket, locked]⟩,
        rfl⟩
  exact (waits_end hreach).2 fun w => by cases w <;> decide

/-- The Controller gets one datagram again and again, and the Retransmitter serves what is
queued. -/
def Repeats (srcAddr : SockAddr) (datagram : List Char) : Action Thread Lock Worker → Prop
  | .start t event code =>
      (t = .worker .controller ∧ event = none ∧ code = ofDatagram srcAddr datagram) ∨
        (t = .worker .retransmitter ∧ event = some .retransmitter ∧
          ∃ newJobs, code = serveJobs newJobs)
  | .interrupt _ _ => False
  | .advance _ => True

/-- One kind of request is enough to block the sender for ever, whatever the capacity of a pipe
is: the Controller writes to the full queue of the Retransmitter and holds the lock of the job
queue, for which the Retransmitter waits. No signal helps. -/
theorem requests_block_sender {srcAddr : SockAddr} {datagram : List Char} {packetIds : List Nat}
    (hrequest : IsRexmit (Controller.receivedString datagram) packetIds) {capacity : Nat}
    (hcapacity : 0 < capacity) :
    ∃ s, Threads.Reaches capacity (fun _ => Repeats srcAddr datagram) Threads.idle s ∧
      ∀ s', Threads.Reaches capacity (fun _ => Allowed) s s' →
        s'.owner .jobQueue = some (.worker .controller) ∧
        (∃ pre rest, s'.code (.worker .controller) = pre ++ .push .retransmitter :: rest) ∧
        (∃ pre rest, s'.code (.worker .retransmitter) = pre ++ .acquire .jobQueue :: rest) ∧
        capacity ≤ s'.pending .retransmitter := by
  have hcode : ofDatagram srcAddr datagram =
      [.acquire .jobQueue, .acquire (.event .retransmitter)] ++ .push .retransmitter ::
        [.release (.event .retransmitter), .release .jobQueue] := by
    have hlookup : ¬isLookupRequest (Controller.receivedString datagram) = true := fun h =>
      not_isRexmit_of_isLookup (isLookupRequest_iff.mp h) packetIds hrequest
    unfold ofDatagram
    simp only [if_neg hlookup, RexmitRequest.ofString_of_isRexmit hrequest]
    rfl
  have honce (w : Worker) : (ofDatagram srcAddr datagram).count (.push w) =
      if w = .retransmitter then 1 else 0 := by
    rw [hcode]
    cases w <;> rfl
  have hwriter := balanced_ofDatagram srcAddr datagram
  have hne : Thread.worker .controller ≠ .worker .retransmitter := by decide
  rw [hcode] at hwriter honce
  have hjam : ∃ s, Threads.Reaches capacity (fun _ => Repeats srcAddr datagram) Threads.idle s ∧
      s.FullFor capacity (.worker .controller) (.worker .retransmitter) .jobQueue
        .retransmitter :=
    Threads.exists_fullFor hne hcapacity hwriter honce rfl (by decide) (balanced_serveJobs 1)
      (fun _ => .inl ⟨rfl, rfl, hcode.symm⟩) (fun _ => .inr ⟨rfl, rfl, 1, rfl⟩) fun _ _ => trivial
  obtain ⟨s, hreach, hfull⟩ := hjam
  refine ⟨s, hreach, fun s' hreach' => ?_⟩
  have hstuck := hfull.reaches (fun _ v code hstart => ?_) (fun _ code hsignal => ?_) hreach'
  · obtain ⟨pre, rest, hwrites, -⟩ := hstuck.writes
    exact ⟨hstuck.owner, ⟨pre, rest, hwrites⟩, hstuck.waits, hstuck.full⟩
  · -- nobody else reads this queue
    cases hstart with
    | event => rfl
    | newJobs => rfl
  · obtain ⟨signalled, rfl⟩ := hsignal
    exact release_notMem_signalHandler (by simp) signalled

/-- A request for the packet at position 0. -/
def firstPacket : List Char := rexmitLine [['0']]

theorem requests_block_sender_firstPacket :
    ∃ s, Threads.Reaches 1 (fun _ => Repeats ⟨0, 0⟩ firstPacket) Threads.idle s ∧
      ∀ s', Threads.Reaches 1 (fun _ => Allowed) s s' →
        s'.owner .jobQueue = some (.worker .controller) ∧
        (∃ pre rest, s'.code (.worker .controller) = pre ++ .push .retransmitter :: rest) ∧
        (∃ pre rest, s'.code (.worker .retransmitter) = pre ++ .acquire .jobQueue :: rest) ∧
        1 ≤ s'.pending .retransmitter := by
  have hnumber : IsNumber ['0'] 0 := ⟨by simp, by simp, rfl, Nat.two_pow_pos 64⟩
  have hline : IsRexmit firstPacket [0] := ⟨[['0']], .cons hnumber .nil, .inl rfl⟩
  have hrequest : IsRexmit (Controller.receivedString firstPacket) [0] := by
    rw [Controller.receivedString_eq (by decide) (null_not_mem_of_isRexmit hline)]
    exact hline
  exact requests_block_sender hrequest Nat.one_pos

end SikRadio.Sender.Locking
