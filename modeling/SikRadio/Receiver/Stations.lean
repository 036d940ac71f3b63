import SikRadio.Common.RadioStation

/-!
# The station list and the workers that share it

The LookupReceiver adds stations, the StationRemover takes inactive ones away,
the UiMenu moves the current station, and the AudioReceiver looks it up when it
changes the station. Every section under the locks of the station set and the
current station is one step. The AudioReceiver pops its event in one step and
changes the station in a later one; a step that it cannot take leaves the state
unchanged, so that every list of actions is an interleaving.

## Implementation notes

What `change_station` does to the data socket is left to the module on it. The
menu that a move sends to the clients does not change this state, and nothing
here pushes `TERMINATE`.
-/

namespace SikRadio.Receiver

open SikRadio.Common Foundations.CheckedRuns Foundations.OrderedNodes

structure Stations where
  stations : StationSet
  currentStation : Option Nat
  audioReceiverEvent : List EventType
  uiMenuEvent : List EventType
  changing : Bool

namespace Stations

/-- What the workers can do next. The clock is read when a station is made and when one is
refreshed, and once for every station that a sweep examines. -/
inductive Action where
  | handleLookupReply (reply : LookupReply) (srcAddr : SockAddr) (made refreshed : Int)
  | removeInactive (now : Nat → Int)
  | cmdMoveUp
  | cmdMoveDown
  | popEvent
  | changeStation

/-- No station has been heard of. -/
def init : Stations where
  stations := .empty
  currentStation := none
  audioReceiverEvent := []
  uiMenuEvent := []
  changing := false

/-- Every change of the current station is followed by an event for the AudioReceiver. -/
def setCurrentStation (s : Stations) (it : Option Nat) : Stations :=
  { s with
    currentStation := it
    audioReceiverEvent := s.audioReceiverEvent ++ [.currentStationChanged] }

/-- The part of `handle_lookup_reply` that handles a station not yet in the set. -/
def addStation (prioStationName : Option (List Char)) (s : Stations) (station : RadioStation) :
    Stations :=
  let inserted : Stations := { s with stations := s.stations.insert station }
  let chosen :=
    if inserted.stations.nodes.length = 1 ∨ prioStationName = some station.name then
      inserted.setCurrentStation (some s.stations.nextId)
    else inserted
  { chosen with uiMenuEvent := chosen.uiMenuEvent ++ [.stationAdded] }

/-- `handle_lookup_reply`; `run` logs what the constructor throws. -/
def handleLookupReply (getaddrinfo : List Char → Option Nat)
    (prioStationName : Option (List Char)) (s : Stations) (reply : LookupReply)
    (srcAddr : SockAddr) (made refreshed : Int) : Except Fault Stations := do
  match ← RadioStation.ofReply getaddrinfo srcAddr reply made with
  | none => return s
  | some station =>
      match s.stations.find? station with
      | some it =>
          return { s with
            stations := s.stations.update it (RadioStation.updateLastReply refreshed)
              (RadioStation.key_updateLastReply refreshed) }
      | none => return s.addStation prioStationName station

/-- `REMOVAL_THRESHOLD` in nanoseconds. -/
def removalThreshold : Int := 20 * 10 ^ 9

def resetCurrentStation (prioStationName : Option (List Char)) (s : Stations) : Stations :=
  let prioStation :=
    prioStationName.bind fun name =>
      (s.stations.nodes.find? fun n => n.value.name = name).map Node.id
  s.setCurrentStation (if prioStation ≠ none then prioStation else s.stations.begin)

def isActive (now : Nat → Int) (i : Nat) (station : RadioStation) : Bool :=
  decide (now i - station.lastReply < removalThreshold)

def removeInactive (prioStationName : Option (List Char)) (s : Stations) (now : Nat → Int) :
    Stations :=
  let removed := s.stations.erased (isActive now)
  let remaining : Stations := { s with stations := s.stations.eraseUnless (isActive now) }
  if removed = [] then remaining
  else
    let announced := { remaining with uiMenuEvent := s.uiMenuEvent ++ [.stationRemoved] }
    -- an id of an erased node is compared here and nothing else
    if removed.any fun n => s.currentStation = some n.id then
      announced.resetCurrentStation prioStationName
    else announced

/-- The result of moving an iterator, when it may be moved. -/
def moved (it : Option (Option Nat)) : Except Fault (Option Nat) :=
  match it with
  | some it => .ok it
  | none => .error .badIterator

def cmdMoveUp (s : Stations) : Except Fault Stations :=
  if s.stations.nodes ≠ [] ∧ s.currentStation ≠ s.stations.begin then do
    let it ← moved (s.stations.prev s.currentStation)
    return s.setCurrentStation it
  else return s

def cmdMoveDown (s : Stations) : Except Fault Stations :=
  if s.stations.nodes ≠ [] ∧ s.currentStation ≠ s.stations.last then do
    let it ← moved (s.stations.next s.currentStation)
    return s.setCurrentStation it
  else return s

/-- `AudioReceiverWorker::run` reads one event. -/
def popEvent (s : Stations) : Stations :=
  match s.audioReceiverEvent with
  | [] => s
  | event :: rest =>
      { s with audioReceiverEvent := rest, changing := event = .currentStationChanged }

/-- Dereference the current station. -/
def current (s : Stations) : Except Fault RadioStation :=
  match s.stations.deref s.currentStation with
  | some station => .ok station
  | none => .error .badIterator

/-- What `change_station` does under the locks: it dereferences the current station, if there is
one. -/
def changeStation (s : Stations) : Except Fault Stations :=
  let handled : Stations := { s with changing := false }
  if s.stations.nodes = [] then return handled
  else do
    let _ ← s.current
    return handled

/-! ## The menu -/

/-- The character before every escape sequence of the terminal. -/
def esc : Char := Char.ofNat 27

def newline : List Char := ['\r', '\n']

/-- The macro `BLINK`. -/
def blink (msg : List Char) : List Char :=
  [esc, '[', '5', 'm'] ++ msg ++ [esc, '[', '2', '5', 'm']

/-- The macro `GREEN`. -/
def green (msg : List Char) : List Char :=
  [esc, '[', '1', ';', '9', '2', 'm'] ++ msg ++ [esc, '[', '0', 'm']

/-- The macro `BOLD`. -/
def bold (msg : List Char) : List Char :=
  [esc, '[', '1', 'm'] ++ msg ++ [esc, '[', '2', '2', 'm']

def horizontalBar : List Char := List.replicate 72 '-'

def programName : List Char := ['S', 'I', 'K', ' ', 'R', 'a', 'd', 'i', 'o']

def chosenStationPrefix : List Char := [' ', '>', ' ']

/-- What stands before the name of the current station. -/
def chosenMark : List Char := blink (green chosenStationPrefix)

def menuLine (currentStation : Option Nat) (n : Node RadioStation) : List Char :=
  (if some n.id = currentStation then chosenMark ++ bold n.value.name else n.value.name) ++
    newline

def menuToStr (s : Stations) : List Char :=
  horizontalBar ++ newline ++ programName ++ newline ++ horizontalBar ++ newline ++
    s.stations.nodes.flatMap (menuLine s.currentStation) ++ horizontalBar

/-! ## Runs -/

def step (getaddrinfo : List Char → Option Nat) (prioStationName : Option (List Char))
    (s : Stations) : Action → Except Fault Stations
  | .handleLookupReply reply srcAddr made refreshed =>
      s.handleLookupReply getaddrinfo prioStationName reply srcAddr made refreshed
  | .removeInactive now => .ok (s.removeInactive prioStationName now)
  | .cmdMoveUp => s.cmdMoveUp
  | .cmdMoveDown => s.cmdMoveDown
  | .popEvent => if s.changing then .ok s else .ok s.popEvent
  | .changeStation => if s.changing then s.changeStation else .ok s

/-- Run a list of actions. -/
def run (getaddrinfo : List Char → Option Nat) (prioStationName : Option (List Char))
    (s : Stations) (actions : List Action) : Except Fault Stations :=
  actions.foldlM (step getaddrinfo prioStationName) s

end Stations

end SikRadio.Receiver
