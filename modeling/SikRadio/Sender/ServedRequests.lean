import SikRadio.Sender.OverwrittenSlot
import SikRadio.Sender.RequestClasses
import SikRadio.Sender.RexmitJobs

/-!
# The sender as a whole

The AudioSender reads its input and fills the cache, the Controller answers and
queues what it receives, and the Retransmitter serves the queue from the cache,
each at its own pace. Whatever the interleaving, the packets sent are those of
the input, every datagram is answered or queued for what it is, and what is sent
for a request depends only on the number of packets sent when it is served.

## Implementation notes

A packet is sent and put into the cache in one step, since no other worker can
tell whether the packet was sent. The Controller receives nothing between its two
pushes. `received`, `replies` and `retransmitted` record the traffic of the two
sockets; a worker that has returned takes no further steps.
-/

namespace SikRadio.Sender

open SikRadio.Common Foundations.CheckedRuns Foundations.Word64 Foundations.BlockRounds

structure Transmitter where
  audioSender : AudioSender UInt8
  lookupReply : LookupReply
  jobs : RexmitJobs
  received : List (SockAddr × List Char)
  replies : List (SockAddr × List Char)
  retransmitted : List (SockAddr × List UInt8)

/-- The job that the next operation of the retransmitter hands to `handle_retransmission`. -/
def RexmitJobs.handedOver (s : RexmitJobs) : Option RexmitRequest :=
  match s.retransmitter, s.jobQueue with
  | .serving (_ + 1), job :: _ => some job
  | _, _ => none

/-- The next operation hands over at most the job at the front. -/
theorem RexmitJobs.logs_advance {s s' : RexmitJobs} (hs : s.advance = .ok s') :
    s'.served = s.served ++ s.handedOver.toList ∧ s'.queued = s.queued := by
  unfold advance at hs
  unfold handedOver
  cases hat : s.retransmitter with
  | serving newJobs =>
      cases newJobs with
      | zero =>
          rw [hat] at hs
          obtain rfl := Except.ok.inj hs
          simp
      | succ newJobs =>
          cases hjobs : s.jobQueue with
          | nil => simp [hat, hjobs] at hs
          | cons job rest =>
              simp only [hat, hjobs] at hs
              obtain rfl := Except.ok.inj hs
              simp
  | waiting =>
      simp only [hat] at hs
      split at hs <;> obtain rfl := Except.ok.inj hs <;> simp
  | popped =>
      simp only [hat] at hs
      split at hs <;> obtain rfl := Except.ok.inj hs <;> simp
  | sleeping newJobs =>
      simp only [hat] at hs
      obtain rfl := Except.ok.inj hs
      simp
  | handling newJobs =>
      cases hjobs : s.jobQueue with
      | nil => simp [hat, hjobs] at hs
      | cons job rest =>
          simp only [hat, hjobs] at hs
          obtain rfl := Except.ok.inj hs
          simp
  | returned =>
      simp only [hat] at hs
      obtain rfl := Except.ok.inj hs
      simp

namespace Transmitter

/-- A datagram in the Controller's `run`, up to the first of its two pushes. -/
def receive (x : Transmitter) (srcAddr : SockAddr) (datagram : List Char) :
    Except Fault Transmitter :=
  if x.jobs.pushing then .ok x
  else
    let taken : Transmitter := { x with received := x.received ++ [(srcAddr, datagram)] }
    let reqBuf := Controller.receivedString datagram
    if isLookupRequest reqBuf then
      .ok { taken with replies := x.replies ++ [(srcAddr, x.lookupReply.toStr)] }
    else do
      match ← RexmitRequest.ofString srcAddr reqBuf with
      | some req => return { taken with jobs := x.jobs.pushJob req }
      | none => return taken

/-- The next operation of the Retransmitter, which holds the lock of the cache for a whole
request. -/
def retransmit (fuel : Nat) (x : Transmitter) : Except Fault Transmitter := do
  let jobs ← x.jobs.advance
  match x.jobs.handedOver with
  | some req =>
      let answers ←
        handleRetransmission fuel x.audioSender.sessionId x.audioSender.packetCache req
      return { x with jobs, retransmitted := x.retransmitted ++ answers }
  | none => return { x with jobs }

inductive Action where
  | read (chunk : List UInt8)
  | receive (srcAddr : SockAddr) (datagram : List Char)
  | pushEvent
  | terminate
  | retransmit

def step (fuel : Nat) (x : Transmitter) : Action → Except Fault Transmitter
  | .read chunk => do
      let audioSender ← x.audioSender.readChunk chunk
      return { x with audioSender }
  | .receive srcAddr datagram => x.receive srcAddr datagram
  | .pushEvent => .ok { x with jobs := x.jobs.pushEvent }
  | .terminate => .ok { x with jobs := { x.jobs with myEvent := x.jobs.myEvent ++ [.terminate] } }
  | .retransmit => x.retransmit fuel

/-- Run a list of actions. -/
def run (fuel : Nat) (x : Transmitter) (actions : List Action) : Except Fault Transmitter :=
  actions.foldlM (step fuel) x

/-- Reads return what `read` can return, and no text is empty where the parser looks at its last
character. -/
def Takes (x : Transmitter) : Action → Prop
  | .read chunk => x.audioSender.ReadReturns chunk
  | .receive _ datagram => trimmed (Controller.receivedString datagram) ≠ []
  | _ => True

instance (x : Transmitter) : (action : Action) → Decidable (x.Takes action)
  | .read chunk => inferInstanceAs (Decidable (x.audioSender.ReadReturns chunk))
  | .receive _ _ => inferInstanceAs (Decidable (_ ≠ _))
  | .pushEvent | .terminate | .retransmit => isTrue trivial

/-- The bytes that a run reads. -/
def inputOf (actions : List Action) : List UInt8 :=
  actions.flatMap fun
    | .read chunk => chunk
    | _ => []

/-! ## Datagrams -/

section Datagrams

variable {d : SockAddr × List Char} {req : RexmitRequest}

/-- The Controller takes the datagram for a lookup. -/
def isLookup (d : SockAddr × List Char) : Bool :=
  isLookupRequest (Controller.receivedString d.2)

/-- The retransmission request that a datagram makes. -/
def requestOf (d : SockAddr × List Char) : Option RexmitRequest :=
  match RexmitRequest.ofString d.1 (Controller.receivedString d.2) with
  | .ok req => req
  | .error _ => none

theorem requestOf_eq_some_iff :
    requestOf d = some req ↔
      req.receiverAddr = d.1 ∧ IsRexmit (Controller.receivedString d.2) req.packetIds := by
  constructor
  · intro h
    have hparsed :
        RexmitRequest.ofString d.1 (Controller.receivedString d.2) = .ok (some req) := by
      unfold requestOf at h
      split at h
      case h_1 parsed hparsed => rw [hparsed, h]
      case h_2 => cases h
    exact ⟨RexmitRequest.receiverAddr_of_ofString hparsed,
      RexmitRequest.isRexmit_of_ofString hparsed⟩
  · rintro ⟨haddr, hrexmit⟩
    rw [requestOf, RexmitRequest.ofString_of_isRexmit hrexmit, ← haddr]

/-- A lookup makes no request. -/
theorem requestOf_of_isLookup (h : isLookup d = true) : requestOf d = none := by
  rw [Option.eq_none_iff_forall_not_mem]
  intro req hreq
  have hrexmit := (requestOf_eq_some_iff.mp hreq).2
  exact not_isRexmit_of_isLookup (isLookupRequest_iff.mp h) _ hrexmit

end Datagrams

/-- What the Controller works on. -/
def controller (x : Transmitter) : Controller where
  lookupReply := x.lookupReply
  rexmitJobQueue := x.jobs.jobQueue
  retransmitterEvent := x.jobs.myEvent
  sent := x.replies

variable {x y : Transmitter} {srcAddr : SockAddr} {datagram : List Char}

/-- With nothing between its pushes the Controller handles a datagram. -/
theorem controller_receive (hidle : x.jobs.pushing = false)
    (hs : x.receive srcAddr datagram = .ok y) :
    x.controller.handleDatagram srcAddr datagram =
      .ok ({ y with jobs := y.jobs.pushEvent } : Transmitter).controller := by
  have hstays : x.jobs.pushEvent = x.jobs := by simp [RexmitJobs.pushEvent, hidle]
  rw [receive, if_neg (by simp [hidle])] at hs
  unfold Controller.handleDatagram
  dsimp only at hs ⊢
  split at hs
  case isTrue hlookup =>
    obtain rfl := Except.ok.inj hs
    rw [if_pos hlookup]
    simp only [Controller.handleLookupRequest, controller, hstays]
    rfl
  case isFalse hlookup =>
    rw [if_neg hlookup]
    obtain ⟨parsed, hparsed, hs⟩ := bind_eq_ok_iff.mp hs
    rw [hparsed]
    cases parsed with
    | none =>
        obtain rfl := Except.ok.inj hs
        simp only [controller, hstays]
        rfl
    | some req =>
        obtain rfl := Except.ok.inj hs
        have hpushes := RexmitJobs.pushEvent_pushJob x.jobs x.controller req hidle rfl rfl
        simp only [controller, hpushes]
        rfl

/-- What the Controller does with a datagram that it takes. -/
theorem exists_receive (x : Transmitter) (srcAddr : SockAddr)
    (hnonempty : trimmed (Controller.receivedString datagram) ≠ []) :
    x.receive srcAddr datagram = .ok x ∨
      x.jobs.pushing = false ∧ x.receive srcAddr datagram = .ok { x with
        received := x.received ++ [(srcAddr, datagram)]
        replies := x.replies ++
          if isLookup (srcAddr, datagram) then [(srcAddr, x.lookupReply.toStr)] else []
        jobs := (requestOf (srcAddr, datagram)).elim x.jobs x.jobs.pushJob } := by
  unfold receive
  cases hpushing : x.jobs.pushing with
  | true => exact .inl (if_pos rfl)
  | false =>
      refine .inr ⟨rfl, ?_⟩
      rw [if_neg (by simp)]
      cases hlookup : isLookupRequest (Controller.receivedString datagram) with
      | true =>
          have hrequest : requestOf (srcAddr, datagram) = none := requestOf_of_isLookup hlookup
          simp only [isLookup, hlookup, if_true, hrequest, Option.elim]
      | false =>
          have hok : ∀ fault,
              RexmitRequest.ofString srcAddr (Controller.receivedString datagram) ≠
                .error fault := by
            intro fault hfault
            exact hnonempty (RexmitRequest.ofString_eq_error_iff.mp hfault).1
          cases hparsed : RexmitRequest.ofString srcAddr (Controller.receivedString datagram) with
          | error fault => exact absurd hparsed (hok fault)
          | ok parsed =>
              have hrequest : requestOf (srcAddr, datagram) = parsed := by
                simp only [requestOf, hparsed]
              cases parsed with
              | none =>
                  simp only [isLookup, hlookup, hrequest, hparsed, Bool.false_eq_true, if_false,
                    List.append_nil, Option.elim]
                  rfl
              | some req =>
                  simp only [isLookup, hlookup, hrequest, hparsed, Bool.false_eq_true, if_false,
                    List.append_nil, Option.elim]
                  rfl

/-! ## What the three workers have done -/

section Spec

variable (psize fsize sessionId : Nat) (lookupReply : LookupReply) (input : List UInt8)

/-- The jobs were served one after the other, each after some number of packets. -/
def ServedAfter (n : Nat) (served : List RexmitRequest)
    (retransmitted : List (SockAddr × List UInt8)) : Prop :=
  ∃ taken : List (Nat × RexmitRequest), taken.map Prod.snd = served ∧
    (taken.map Prod.fst).Pairwise (· ≤ ·) ∧ (∀ t ∈ taken, t.1 ≤ n) ∧
    retransmitted = taken.flatMap fun t => answersAfter psize fsize sessionId input t.1 t.2

/-- The invariant of a run, with `n` packets sent. -/
structure Serving (n : Nat) (x : Transmitter) : Prop where
  broadcasting : Broadcasting psize fsize sessionId n input x.audioSender
  accounted : x.jobs.Accounted
  lookupReply_eq : x.lookupReply = lookupReply
  replies : x.replies = (x.received.filter isLookup).map fun d => (d.1, lookupReply.toStr)
  queued : x.jobs.queued = x.received.filterMap requestOf
  served : ServedAfter psize fsize sessionId input n x.jobs.served x.retransmitted

end Spec

section Run

variable {psize fsize sessionId n fuel : Nat} {lookupReply : LookupReply}
  {input : List UInt8} {chunk : List UInt8}

theorem Serving.exists_read (h : Serving psize fsize sessionId lookupReply input n x)
    (hfit : psize ≤ fsize) (hread : x.audioSender.ReadReturns chunk)
    (hword : (input ++ chunk).length < 2 ^ 64) :
    ∃ y n', x.step fuel (.read chunk) = .ok y ∧
      Serving psize fsize sessionId lookupReply (input ++ chunk) n' y := by
  obtain ⟨s', n', hs, hn, hbroadcasting⟩ := h.broadcasting.readChunk hfit hread hword
  refine ⟨{ x with audioSender := s' }, n', by rw [step, hs]; rfl, hbroadcasting, h.accounted,
    h.lookupReply_eq, h.replies, h.queued, ?_⟩
  obtain ⟨taken, hserved, horder, hle, hsent⟩ := h.served
  refine ⟨taken, hserved, horder, fun t ht => (hle t ht).trans hn, hsent.trans ?_⟩
  have hslots : 0 < fsize / psize :=
    Nat.div_pos hfit (Nat.zero_lt_of_lt h.broadcasting.sending.nread_lt)
  have hlen := h.broadcasting.sending.length_eq
  simp only [List.flatMap_def]
  congr 1
  apply List.map_congr_left
  intro t ht
  have hcount : t.1 * psize ≤ n * psize := Nat.mul_le_mul_right psize (hle t ht)
  exact (answersAfter_append (by omega) hslots chunk t.2).symm

theorem Serving.exists_receive (h : Serving psize fsize sessionId lookupReply input n x)
    (srcAddr : SockAddr) (hnonempty : trimmed (Controller.receivedString datagram) ≠ []) :
    ∃ y, x.receive srcAddr datagram = .ok y ∧
      Serving psize fsize sessionId lookupReply input n y := by
  rcases Transmitter.exists_receive x srcAddr hnonempty with hs | ⟨hidle, hs⟩
  · exact ⟨x, hs, h⟩
  · refine ⟨_, hs, h.broadcasting, ?_, h.lookupReply_eq, ?_, ?_, ?_⟩
    · cases requestOf (srcAddr, datagram) with
      | none => exact h.accounted
      | some req => exact RexmitJobs.accounted_pushJob h.accounted req
    · rw [h.replies, h.lookupReply_eq, List.filter_append, List.map_append]
      cases hlookup : isLookup (srcAddr, datagram) with
      | true => simp [hlookup]
      | false => simp [hlookup]
    · rw [List.filterMap_append, ← h.queued]
      cases hrequest : requestOf (srcAddr, datagram) with
      | none => simp [hrequest]
      | some req => simp [hrequest, RexmitJobs.pushJob, hidle]
    · have hserved := h.served
      cases requestOf (srcAddr, datagram) with
      | none => exact hserved
      | some req => simpa [RexmitJobs.pushJob, hidle] using hserved

theorem ServedAfter.append {served : List RexmitRequest}
    {retransmitted : List (SockAddr × List UInt8)}
    (h : ServedAfter psize fsize sessionId input n served retransmitted) (req : RexmitRequest) :
    ServedAfter psize fsize sessionId input n (served ++ [req])
      (retransmitted ++ answersAfter psize fsize sessionId input n req) := by
  obtain ⟨taken, hserved, horder, hle, hsent⟩ := h
  refine ⟨taken ++ [(n, req)], ?_, ?_, ?_, ?_⟩
  · rw [List.map_append, hserved]
    rfl
  · rw [List.map_append, List.pairwise_append]
    refine ⟨horder, List.pairwise_singleton _ _, fun i hi k hk => ?_⟩
    obtain ⟨t, ht, rfl⟩ := List.mem_map.mp hi
    rw [List.mem_singleton.mp hk]
    exact hle t ht
  · intro t ht
    rcases List.mem_append.mp ht with ht | ht
    · exact hle t ht
    · rw [List.mem_singleton.mp ht]
  · rw [List.flatMap_append, hsent]
    simp

theorem Serving.exists_retransmit (h : Serving psize fsize sessionId lookupReply input n x)
    (hfit : psize ≤ fsize) (hword : input.length < 2 ^ 63) (hfuel : fsize < fuel) :
    ∃ y, x.retransmit fuel = .ok y ∧ Serving psize fsize sessionId lookupReply input n y := by
  obtain ⟨jobs, hjobs, haccounted⟩ := RexmitJobs.exists_advance h.accounted
  obtain ⟨hlog, hqueued⟩ := RexmitJobs.logs_advance hjobs
  have hserved := h.served
  cases hover : x.jobs.handedOver with
  | none =>
      refine ⟨{ x with jobs }, ?_, h.broadcasting, haccounted, h.lookupReply_eq, h.replies,
        hqueued.trans h.queued, ?_⟩
      · simp only [retransmit, hjobs, hover]
        rfl
      · rw [hover, Option.toList_none, List.append_nil] at hlog
        exact hlog ▸ hserved
  | some req =>
      have hanswers := h.broadcasting.answers hfit hword hfuel req
      refine ⟨{ x with
        jobs
        retransmitted := x.retransmitted ++ answersAfter psize fsize sessionId input n req },
        ?_, h.broadcasting, haccounted, h.lookupReply_eq, h.replies, hqueued.trans h.queued, ?_⟩
      · simp only [retransmit, hjobs, hover, hanswers]
        rfl
      · rw [hover, Option.toList_some] at hlog
        exact hlog ▸ hserved.append req

/-- Every step that the workers can take keeps the invariant. -/
theorem Serving.exists_step (h : Serving psize fsize sessionId lookupReply input n x)
    (hfit : psize ≤ fsize) (hfuel : fsize < fuel) {action : Action} (htakes : x.Takes action)
    (hword : (input ++ inputOf [action]).length < 2 ^ 63) :
    ∃ y n', x.step fuel action = .ok y ∧
      Serving psize fsize sessionId lookupReply (input ++ inputOf [action]) n' y := by
  have hsame (hnone : inputOf [action] = []) : input ++ inputOf [action] = input := by
    rw [hnone, List.append_nil]
  cases action with
  | read chunk =>
      have hchunk : inputOf [.read chunk] = chunk := List.append_nil chunk
      rw [hchunk] at hword ⊢
      exact h.exists_read hfit htakes (hword.trans (by decide))
  | receive srcAddr datagram =>
      rw [hsame rfl]
      obtain ⟨y, hs, h'⟩ := h.exists_receive srcAddr htakes
      exact ⟨y, n, hs, h'⟩
  | pushEvent =>
      rw [hsame rfl]
      have hlogs : x.jobs.pushEvent.queued = x.jobs.queued ∧
          x.jobs.pushEvent.served = x.jobs.served := by
        unfold RexmitJobs.pushEvent
        split <;> exact ⟨rfl, rfl⟩
      exact ⟨_, n, rfl, h.broadcasting, RexmitJobs.accounted_pushEvent h.accounted,
        h.lookupReply_eq, h.replies, hlogs.1.trans h.queued, hlogs.2.symm ▸ h.served⟩
  | terminate =>
      rw [hsame rfl]
      exact ⟨_, n, rfl, h.broadcasting, RexmitJobs.accounted_terminate h.accounted,
        h.lookupReply_eq, h.replies, h.queued, h.served⟩
  | retransmit =>
      rw [hsame rfl] at hword ⊢
      obtain ⟨y, hs, h'⟩ := h.exists_retransmit hfit hword hfuel
      exact ⟨y, n, hs, h'⟩

theorem Serving.exists_run (h : Serving psize fsize sessionId lookupReply input n x)
    (hfit : psize ≤ fsize) (hfuel : fsize < fuel) {actions : List Action}
    (htakes : Guarded (step fuel) Takes x actions)
    (hword : (input ++ inputOf actions).length < 2 ^ 63) :
    ∃ y n', x.run fuel actions = .ok y ∧
      Serving psize fsize sessionId lookupReply (input ++ inputOf actions) n' y := by
  induction actions generalizing n input x with
  | nil => exact ⟨x, n, rfl, by simpa [inputOf] using h⟩
  | cons action actions ih =>
      obtain ⟨hfirst, hrest⟩ := htakes
      have hinput : input ++ inputOf (action :: actions) =
          (input ++ inputOf [action]) ++ inputOf actions := by
        simp [inputOf]
      rw [hinput] at hword ⊢
      have hless : (input ++ inputOf [action]).length < 2 ^ 63 :=
        (List.length_append ▸ Nat.le_add_right _ _).trans_lt hword
      obtain ⟨y, n₁, hs, h₁⟩ := h.exists_step hfit hfuel hfirst hless
      obtain ⟨z, n₂, hrun, h₂⟩ := ih h₁ (hrest y hs) hword
      refine ⟨z, n₂, ?_, h₂⟩
      rw [run, List.foldlM_cons, hs]
      exact hrun

end Run

end Transmitter

end SikRadio.Sender
