import SikRadio.Foundations.CheckedRuns

/-!
# Faults and events

`Fault` lists what ends a worker's code other than a return: a division by
zero, a failed `assert` (the Makefile does not define `NDEBUG`), an access
outside an array, the use of an iterator that designates no element, a call of
`fatal`, which ends the program, and `SIGPIPE`, which the program neither handles
nor ignores. The event types are those of `EventQueue`; a queue is the list of
events in the pipe.

## Implementation notes

`outOfFuel` belongs to the model: a loop that need not end is run for a given
number of rounds.
-/

namespace SikRadio.Common

inductive Fault where
  | divByZero
  | assertFailed
  | outOfBounds
  | badIterator
  | fatal
  | sigpipe
  | outOfFuel
  deriving DecidableEq, Repr

/-- `EventQueue::EventType`. -/
inductive EventType where
  | currentStationChanged
  | stationAdded
  | stationRemoved
  | clientAdded
  | newJobs
  | terminate
  deriving DecidableEq, Repr

end SikRadio.Common
