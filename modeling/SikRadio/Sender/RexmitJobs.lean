import SikRadio.Sender.Controller

/-!
# The queue of retransmission jobs

The controller pushes a job and then an event while it holds the lock of the job
queue. The retransmitter pops an event, takes the length of the job queue under
the lock, sleeps and serves that many jobs without the lock. Every operation on
one of the two queues is a step, and a list of actions is an interleaving.

## Implementation notes

A worker that waits for an event or for the lock stays where it is. `queued` and
`served` record the jobs in the order of the steps that push them and that hand
them to `handle_retransmission`. The event that ends the retransmitter comes from
outside at any time; that its loop also ends when it finds `running` cleared is
left out, since nothing is served then either.
-/

namespace SikRadio.Sender

open SikRadio.Common Foundations.CheckedRuns

/-- Where the retransmitter is in its loop. -/
inductive RetransmitterAt where
  | waiting
  | popped
  | sleeping (newJobs : Nat)
  | serving (newJobs : Nat)
  | handling (newJobs : Nat)
  | returned
  deriving DecidableEq

structure RexmitJobs where
  jobQueue : List RexmitRequest
  myEvent : List EventType
  /-- The controller holds the lock, between its two pushes. -/
  pushing : Bool
  retransmitter : RetransmitterAt
  queued : List RexmitRequest
  served : List RexmitRequest

namespace RexmitJobs

def initial : RexmitJobs :=
  { jobQueue := [], myEvent := [], pushing := false, retransmitter := .waiting,
    queued := [], served := [] }

/-- The first half of `handle_rexmit_request`. -/
def pushJob (s : RexmitJobs) (req : RexmitRequest) : RexmitJobs :=
  if s.pushing then s
  else { s with jobQueue := s.jobQueue ++ [req], pushing := true, queued := s.queued ++ [req] }

/-- The second half of `handle_rexmit_request`; both locks are released behind it. -/
def pushEvent (s : RexmitJobs) : RexmitJobs :=
  if s.pushing then { s with myEvent := s.myEvent ++ [.newJobs], pushing := false } else s

/-- The next queue operation of the retransmitter's `run`. -/
def advance (s : RexmitJobs) : Except Fault RexmitJobs :=
  match s.retransmitter with
  | .waiting =>
      match s.myEvent with
      | [] => .ok s
      | .terminate :: rest => .ok { s with myEvent := rest, retransmitter := .returned }
      | .newJobs :: rest => .ok { s with myEvent := rest, retransmitter := .popped }
      | _ :: rest => .ok { s with myEvent := rest }
  | .popped =>
      -- the size is read under the lock
      if s.pushing then .ok s
      else .ok { s with retransmitter := .sleeping s.jobQueue.length }
  | .sleeping newJobs => .ok { s with retransmitter := .serving newJobs }
  | .serving 0 => .ok { s with retransmitter := .waiting }
  | .serving (newJobs + 1) =>
      match s.jobQueue with
      | [] => .error .outOfBounds
      | job :: _ =>
          .ok { s with served := s.served ++ [job], retransmitter := .handling newJobs }
  | .handling newJobs =>
      match s.jobQueue with
      | [] => .error .outOfBounds
      | _ :: rest => .ok { s with jobQueue := rest, retransmitter := .serving newJobs }
  | .returned => .ok s

inductive Action where
  | pushJob (req : RexmitRequest)
  | pushEvent
  | terminate
  | advance

def step (s : RexmitJobs) : Action → Except Fault RexmitJobs
  | .pushJob req => .ok (s.pushJob req)
  | .pushEvent => .ok s.pushEvent
  | .terminate => .ok { s with myEvent := s.myEvent ++ [.terminate] }
  | .advance => s.advance

/-- The two pushes with nothing between them are `handle_rexmit_request`. -/
theorem pushEvent_pushJob (s : RexmitJobs) (c : Controller) (req : RexmitRequest)
    (hidle : s.pushing = false) (hjobs : c.rexmitJobQueue = s.jobQueue)
    (hevents : c.retransmitterEvent = s.myEvent) :
    (s.pushJob req).pushEvent.jobQueue = (c.handleRexmitRequest req).rexmitJobQueue ∧
      (s.pushJob req).pushEvent.myEvent = (c.handleRexmitRequest req).retransmitterEvent := by
  simp [pushJob, pushEvent, Controller.handleRexmitRequest, hidle, hjobs, hevents]

/-! ## Accounting -/

/-- The `NEW_JOBS` events that are pending. -/
def pendingEvents (s : RexmitJobs) : Nat := s.myEvent.count .newJobs

/-- The jobs of the current batch that are still in the queue. -/
def batchLeft : RetransmitterAt → Nat
  | .sleeping newJobs => newJobs
  | .serving newJobs => newJobs
  | .handling newJobs => newJobs + 1
  | _ => 0

/-- The jobs in the queue that have not been handed over yet. -/
def untaken : RetransmitterAt → List RexmitRequest → List RexmitRequest
  | .handling _, jobs => jobs.tail
  | _, jobs => jobs

/-- The event that the controller is about to push. -/
def owedEvents (s : RexmitJobs) : Nat := if s.pushing then 1 else 0

/-- Every job behind the current batch has an event of its own, and the jobs are served from the
front of what was queued. -/
structure Accounted (s : RexmitJobs) : Prop where
  batch_le : batchLeft s.retransmitter ≤ s.jobQueue.length
  covered : s.retransmitter = .popped ∨
    s.jobQueue.length ≤ batchLeft s.retransmitter + s.pendingEvents + s.owedEvents
  in_order : s.queued = s.served ++ untaken s.retransmitter s.jobQueue

theorem accounted_initial : Accounted initial := ⟨by decide, .inr (by decide), rfl⟩

variable {s s' : RexmitJobs}

/-- A job that is pushed stands behind the others. -/
theorem untaken_append {at' : RetransmitterAt} {jobs : List RexmitRequest}
    (hbatch : batchLeft at' ≤ jobs.length) (req : RexmitRequest) :
    untaken at' (jobs ++ [req]) = untaken at' jobs ++ [req] := by
  cases at' with
  | handling newJobs =>
      have hne : jobs ≠ [] := List.ne_nil_of_length_pos ((Nat.succ_pos newJobs).trans_le hbatch)
      exact List.tail_append_of_ne_nil hne
  | waiting => rfl
  | popped => rfl
  | sleeping newJobs => rfl
  | serving newJobs => rfl
  | returned => rfl

theorem accounted_pushJob (h : Accounted s) (req : RexmitRequest) : Accounted (s.pushJob req) := by
  unfold pushJob
  split
  case isTrue => exact h
  case isFalse hidle =>
    refine ⟨?_, ?_, ?_⟩
    · apply h.batch_le.trans
      simp
    · apply h.covered.imp_right
      intro hcovered
      simp only [owedEvents, hidle, pendingEvents, List.length_append, List.length_singleton,
        if_true, Bool.false_eq_true, if_false] at hcovered ⊢
      omega
    · change s.queued ++ [req] = s.served ++ untaken s.retransmitter (s.jobQueue ++ [req])
      rw [untaken_append h.batch_le, h.in_order, List.append_assoc]

theorem accounted_pushEvent (h : Accounted s) : Accounted s.pushEvent := by
  unfold pushEvent
  split
  case isTrue hpushing =>
    refine ⟨h.batch_le, ?_, h.in_order⟩
    apply h.covered.imp_right
    intro hcovered
    simp only [owedEvents, hpushing, pendingEvents, List.count_append, List.count_singleton_self,
      if_true, Bool.false_eq_true, if_false] at hcovered ⊢
    omega
  case isFalse => exact h

theorem accounted_terminate (h : Accounted s) :
    Accounted { s with myEvent := s.myEvent ++ [.terminate] } := by
  refine ⟨h.batch_le, ?_, h.in_order⟩
  apply h.covered.imp_right
  intro hcovered
  simpa [pendingEvents, List.count_append, owedEvents] using hcovered

/-- The retransmitter finds a job whenever it asks for one, and its next operation keeps the
accounts. -/
theorem exists_advance (h : Accounted s) : ∃ s', s.advance = .ok s' ∧ Accounted s' := by
  obtain ⟨hbatch, hcovered, horder⟩ := h
  unfold advance
  cases hat : s.retransmitter with
  | waiting =>
      rw [hat] at hbatch hcovered horder
      replace hcovered := hcovered.resolve_left (by simp)
      cases hevent : s.myEvent with
      | nil => exact ⟨s, rfl, by rwa [hat], .inr (by rwa [hat]), by rwa [hat]⟩
      | cons event rest =>
          -- an event of another kind does not count
          have hother : event ≠ .newJobs →
              s.jobQueue.length ≤ 0 + rest.count .newJobs + s.owedEvents := by
            intro hne
            rwa [pendingEvents, hevent, List.count_cons_of_ne hne] at hcovered
          cases event with
          | newJobs => exact ⟨_, rfl, hbatch, .inl rfl, horder⟩
          | _ => exact ⟨_, rfl, hbatch, .inr (hother (by decide)), horder⟩
  | popped =>
      dsimp only
      split
      case isTrue => exact ⟨s, rfl, hbatch, hcovered, horder⟩
      case isFalse =>
        rw [hat] at horder
        exact ⟨_, rfl, le_refl _, .inr (by simp only [batchLeft]; omega), horder⟩
  | sleeping newJobs =>
      rw [hat] at hbatch hcovered horder
      exact ⟨_, rfl, hbatch, .inr (hcovered.resolve_left (by simp)), horder⟩
  | serving newJobs =>
      rw [hat] at hbatch hcovered horder
      replace hcovered := hcovered.resolve_left (by simp)
      cases newJobs with
      | zero => exact ⟨_, rfl, hbatch, .inr hcovered, horder⟩
      | succ newJobs =>
          cases hjobs : s.jobQueue with
          | nil =>
              rw [hjobs] at hbatch
              exact absurd hbatch (Nat.not_succ_le_zero _)
          | cons job rest =>
              rw [hjobs] at hbatch hcovered horder
              refine ⟨_, rfl, hbatch, .inr hcovered, ?_⟩
              simpa [untaken] using horder
  | handling newJobs =>
      rw [hat] at hbatch hcovered horder
      replace hcovered := hcovered.resolve_left (by simp)
      cases hjobs : s.jobQueue with
      | nil =>
          rw [hjobs] at hbatch
          exact absurd hbatch (Nat.not_succ_le_zero _)
      | cons job rest =>
          rw [hjobs] at horder hbatch hcovered
          refine ⟨_, rfl, Nat.le_of_succ_le_succ hbatch, .inr ?_, horder⟩
          simp only [batchLeft, List.length_cons, pendingEvents, owedEvents] at hcovered ⊢
          omega
  | returned => exact ⟨s, rfl, hbatch, hcovered, horder⟩

/-! ## Runs -/

theorem exists_step (h : Accounted s) (action : Action) :
    ∃ s', s.step action = .ok s' ∧ Accounted s' := by
  cases action with
  | pushJob req => exact ⟨_, rfl, accounted_pushJob h req⟩
  | pushEvent => exact ⟨_, rfl, accounted_pushEvent h⟩
  | terminate => exact ⟨_, rfl, accounted_terminate h⟩
  | advance => exact exists_advance h

/-- No interleaving stops, and each reaches a state with its accounts in order. -/
theorem exists_run (actions : List Action) :
    ∃ s, actions.foldlM step initial = .ok s ∧ Accounted s := by
  apply ok_of_guarded (G := fun _ _ => True) _ accounted_initial
  · exact guarded_true initial actions
  · intro s action h _
    exact exists_step h action

/-- While the retransmitter waits and the controller is not between its pushes, every job in the
queue has an event. -/
theorem Accounted.length_le (h : Accounted s) (hwaiting : s.retransmitter = .waiting)
    (hidle : s.pushing = false) : s.jobQueue.length ≤ s.pendingEvents := by
  have hcovered := h.covered
  rw [hwaiting] at hcovered
  simpa [batchLeft, owedEvents, hidle] using hcovered

/-- When no event is pending either, everything has been served. -/
theorem Accounted.served_eq (h : Accounted s) (hwaiting : s.retransmitter = .waiting)
    (hidle : s.pushing = false) (hnone : s.pendingEvents = 0) : s.served = s.queued := by
  have hempty : s.jobQueue = [] := by
    apply List.eq_nil_of_length_eq_zero
    exact Nat.le_zero.mp (hnone ▸ h.length_le hwaiting hidle)
  calc s.served = s.served ++ untaken s.retransmitter s.jobQueue := by
        simp [hempty, hwaiting, untaken]
    _ = s.queued := h.in_order.symm

/-- In every interleaving the job queue is never asked for a job that it does not have, the jobs
are handed over once each in the order they were queued, and while the retransmitter waits and
the controller is not between its pushes, every job in the queue has an event; when no event is
pending then, every job has been handed over. -/
theorem jobs_served_once_in_order (actions : List Action) :
    ∃ s, actions.foldlM step initial = .ok s ∧
      s.queued = s.served ++ untaken s.retransmitter s.jobQueue ∧
      (s.retransmitter = .waiting → s.pushing = false →
        s.jobQueue.length ≤ s.pendingEvents) ∧
      (s.retransmitter = .waiting → s.pushing = false → s.pendingEvents = 0 →
        s.served = s.queued) := by
  obtain ⟨s, hrun, h⟩ := exists_run actions
  exact ⟨s, hrun, h.in_order, h.length_le, h.served_eq⟩

end RexmitJobs

end SikRadio.Sender
