import SikRadio.Foundations.LockJams

/-!
# The signal handler

The handler of the sender and of the receiver tells the workers one by one to
terminate. It runs on a thread that may be in the middle of anything, so a lock
that it takes may be one that this thread already has.

## Implementation notes

A worker's flag is read when the handler gets to the worker. The flag that ends
the loops is set behind the last of them and is not part of this.
-/

namespace SikRadio.Common

open Foundations.LockOrder

variable {T L W : Type} [DecidableEq L]

/-- `terminate_worker`. The lock is given back before the event is pushed, since nothing holds on
to it. -/
def terminateWorker (event : W → L) (signalled : Bool) (w : W) : List (Instr L W) :=
  if signalled then [] else locked (event w) [] ++ [.push w]

/-- `signal_handler`, for the workers in the order of its loop. -/
def signalHandler (event : W → L) (workers : List W) (signalled : W → Bool) : List (Instr L W) :=
  workers.flatMap fun w => terminateWorker event (signalled w) w

/-- The workers that the loop gets to after one of them. -/
def later [DecidableEq W] (workers : List W) (w : W) : List W :=
  (workers.dropWhile (· ≠ w)).tail

variable {event : W → L} {workers : List W} {rank : L → Nat} {held : Finset L}

/-- The handler stays in order on top of code that holds only locks below those of the queues. -/
theorem balanced_signalHandler (h : ∀ m ∈ held, ∀ w, rank m < rank (event w))
    (signalled : W → Bool) : Balanced rank held (signalHandler event workers signalled) := by
  refine .flatMap fun w _ => ?_
  unfold terminateWorker
  split
  · exact balanced_nil _
  · exact .append (.locked (fun m hm => h m hm w) (balanced_nil _)) ((balanced_nil _).push _)

/-- Whatever lock the handler releases, it took it before. -/
theorem acquiresFirst_signalHandler (event : W → L) (workers : List W) (signalled : W → Bool)
    (l : L) : AcquiresFirst l (signalHandler event workers signalled) := by
  have hbalanced : Balanced (fun _ => 0) ∅ (signalHandler event workers signalled) :=
    balanced_signalHandler (by simp) signalled
  exact acquiresFirst_of_follow (by rw [hbalanced]; rfl) (Finset.notMem_empty l)

omit [DecidableEq L] in
/-- The handler releases locks of queues only. -/
theorem release_notMem_signalHandler {l : L} (h : ∀ w, event w ≠ l) (signalled : W → Bool) :
    .release l ∉ signalHandler event workers signalled := by
  intro hmem
  obtain ⟨w, -, hw⟩ := List.mem_flatMap.mp hmem
  unfold terminateWorker at hw
  split at hw
  · cases hw
  · simp [locked, Ne.symm (h w)] at hw

variable [DecidableEq T] [DecidableEq W] {s : Threads T L W} {t : T} {w : W}

theorem eq_append_later (h : w ∈ workers) :
    workers = workers.takeWhile (· ≠ w) ++ w :: later workers w := by
  induction workers with
  | nil => cases h
  | cons v vs ih =>
      by_cases hv : v = w
      · simp [later, hv]
      · have hw : w ∈ vs := (List.mem_cons.mp h).resolve_left (Ne.symm hv)
        simpa [later, List.takeWhile_cons, List.dropWhile_cons, hv] using ih hw

/-- On a thread that holds the lock of the queue of a worker that is not signalled yet. -/
theorem takesOwn_of_signal (capacity : Nat) (hown : s.owner (event w) = some t)
    (hw : w ∈ workers) {signalled : W → Bool} (hsignalled : signalled w = false) :
    (s.step capacity (.interrupt t (signalHandler event workers signalled))).TakesOwn t (event w)
      (.release (event w) :: .push w ::
        (signalHandler event (later workers w) signalled ++ s.code t)) := by
  refine ⟨hown, signalHandler event (workers.takeWhile (· ≠ w)) signalled, ?_,
    acquiresFirst_signalHandler event _ signalled _⟩
  rw [Threads.step, Threads.code_setCode_self]
  conv_lhs => rw [signalHandler, eq_append_later hw, List.flatMap_append, List.flatMap_cons]
  simp [signalHandler, terminateWorker, hsignalled, locked]

end SikRadio.Common
