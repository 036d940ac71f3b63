import SikRadio.Common.SignalHandler
import SikRadio.Receiver.Playback
import SikRadio.Receiver.RexmitSender

/-!
# The locks of the receiver

The workers share the station set, the current station, the buffer and the event
queues, each behind a lock of its own. Here a function is what it does to locks
and queues, on the branch that the state of its worker chooses. A signal handler
can run on any thread, in the middle of what the thread is doing.

## Implementation notes

A write to a queue waits while the pipe is full, and a read takes one event.
What a fault ends is left out, as is the waiting of `poll` and of the sockets. A
worker may take any number of turns, also after it was told to terminate.

What a thread does between two operations on locks and queues is left out too, and
taken to come to an end. Under locks this is the scan of `order_retransmission`,
which ends when the buffer has room for two packets and need not in a ring of one
slot; the menu that `cmd_move_up` and `cmd_move_down` write to every client, which
waits for a client that does not read; and what `handle_print` writes to stdout.
-/

namespace SikRadio.Receiver.Locking

open SikRadio.Common Foundations.LockOrder Foundations.CheckedRuns

/-- The workers, in the order of their ids. -/
inductive Worker where
  | rexmitSender
  | audioPrinter
  | audioReceiver
  | lookupReceiver
  | lookupSender
  | stationRemover
  | uiMenu
  deriving DecidableEq

/-- The threads of the workers and the one of `main`. -/
inductive Thread where
  | worker (w : Worker)
  | main
  deriving DecidableEq

inductive Lock where
  | stations
  | currentStation
  | buffer
  | event (w : Worker)
  deriving DecidableEq

/-- The ids from the greatest one down. -/
def workers : List Worker :=
  [.uiMenu, .stationRemover, .lookupSender, .lookupReceiver, .audioReceiver, .audioPrinter,
    .rexmitSender]

instance : Fintype Worker := ⟨workers.toFinset, fun w => by cases w <;> simp [workers]⟩

instance : Fintype Thread :=
  ⟨insert .main (Finset.univ.image .worker), fun t => by cases t <;> simp⟩

instance : Fintype Lock :=
  ⟨{.stations, .currentStation, .buffer} ∪ Finset.univ.image .event, fun l => by cases l <;> simp⟩

/-! ## What the functions do under locks -/

/-- An event for a worker, under the lock of its queue. -/
def notify (w : Worker) : List (Instr Lock Worker) := locked (.event w) [.push w]

def handleLookupReply (known chosen : Bool) : List (Instr Lock Worker) :=
  locked .stations <|
    if known then []
    else
      (if chosen then locked .currentStation (notify .audioReceiver) else []) ++ notify .uiMenu

/-- `remove_inactive`; the lock on the queue of the UiMenu is held while the current station is
reset. -/
def removeInactive (removedAny removedCurrent : Bool) : List (Instr Lock Worker) :=
  locked .stations <| locked .currentStation <|
    if removedAny then
      locked (.event .uiMenu)
        (.push .uiMenu :: if removedCurrent then notify .audioReceiver else [])
    else []

/-- `cmd_move_up` and `cmd_move_down`. -/
def cmdMove (moves : Bool) : List (Instr Lock Worker) :=
  locked .stations <| locked .currentStation <| if moves then notify .audioReceiver else []

def changeStation : List (Instr Lock Worker) := locked .stations <| locked .currentStation []

/-- The first section of `handle_audio_packet`, which only a new session enters. -/
def openSession (isNew : Bool) : List (Instr Lock Worker) := if isNew then locked .buffer [] else []

/-- The second section of `handle_audio_packet`. The lock on the queue is given back before the
event is pushed, since nothing holds on to it. -/
def putPacket (prints : Bool) : List (Instr Lock Worker) :=
  locked .buffer <|
    if prints then locked (.event .audioPrinter) [] ++ [.push .audioPrinter] else []

def handlePrint : List (Instr Lock Worker) := locked .buffer []

def orderRetransmission (connected : Bool) : List (Instr Lock Worker) :=
  locked .stations <| locked .currentStation <| if connected then locked .buffer [] else []

/-- `signal_handler`, which finds the given workers signalled when it gets to them. -/
def signalHandler (signalled : Worker → Bool) : List (Instr Lock Worker) :=
  Common.signalHandler .event workers signalled

/-! ## The branches are those of the workers -/

/-- What an action of the workers that share the stations does to locks and queues. -/
def ofStations (getaddrinfo : List Char → Option Nat) (prioStationName : Option (List Char))
    (s : Stations) : Stations.Action → List (Instr Lock Worker)
  | .handleLookupReply reply srcAddr made _ =>
      match RadioStation.ofReply getaddrinfo srcAddr reply made with
      | .ok (some station) =>
          handleLookupReply (s.stations.find? station).isSome
            (decide ((s.stations.insert station).nodes.length = 1 ∨
              prioStationName = some station.name))
      | _ => []
  | .removeInactive now =>
      let removed := s.stations.erased (Stations.isActive now)
      removeInactive (decide (removed ≠ [])) (removed.any fun n => s.currentStation = some n.id)
  | .cmdMoveUp => cmdMove (decide (s.stations.nodes ≠ [] ∧ s.currentStation ≠ s.stations.begin))
  | .cmdMoveDown => cmdMove (decide (s.stations.nodes ≠ [] ∧ s.currentStation ≠ s.stations.last))
  | .popEvent => []
  | .changeStation => changeStation

/-- What an action of the AudioReceiver and the AudioPrinter does to locks and queues. -/
def ofPlayback (s : Playback UInt8) : Action UInt8 → List (Instr Lock Worker)
  | .receive packet =>
      openSession (decide (s.inHand = none ∧ ¬packet.sessionId < s.curSession ∧
        ¬s.buffer.capacity < s.buffer.psize ∧ s.curSession < packet.sessionId))
  | .put =>
      match s.inHand with
      | some packet =>
          match s.buffer.tryPut packet with
          | .ok buffer => putPacket (decide ((s.stored packet buffer).Prints packet))
          | .error _ => putPacket false
      | none => []
  | .changeStation => []
  | .popEvent => []
  | .print => if s.printing then handlePrint else []

section Branches
variable {getaddrinfo : List Char → Option Nat} {prioStationName : Option (List Char)}

@[simp] theorem count_notify (v w : Worker) :
    (notify v).count (.push w) = if w = v then 1 else 0 := by
  by_cases hw : w = v
  · simp [notify, hw]
  · simp [notify, hw, Ne.symm hw]

theorem count_cmdMove (moves : Bool) (w : Worker) :
    (cmdMove moves).count (.push w) = if moves ∧ w = .audioReceiver then 1 else 0 := by
  cases moves with
  | false => simp [cmdMove]
  | true => simp [cmdMove]

/-- The move of an iterator and the event that follows it. -/
theorem events_of_moved {s s' : Stations} {it : Except Fault (Option Nat)}
    (h : (do let i ← it; return s.setCurrentStation i) = Except.ok s') :
    s'.audioReceiverEvent.length = s.audioReceiverEvent.length + 1 ∧
      s'.uiMenuEvent.length = s.uiMenuEvent.length := by
  obtain ⟨i, -, hs'⟩ := bind_eq_ok_iff.mp h
  obtain rfl := Except.ok.inj hs'
  simp [Stations.setCurrentStation]

/-- The events that an action of the workers queues are those that its code pushes. -/
theorem events_of_stations_step {s s' : Stations} {a : Stations.Action} (ha : a ≠ .popEvent)
    (h : s.step getaddrinfo prioStationName a = .ok s') :
    s'.audioReceiverEvent.length = s.audioReceiverEvent.length +
        (ofStations getaddrinfo prioStationName s a).count (.push .audioReceiver) ∧
      s'.uiMenuEvent.length = s.uiMenuEvent.length +
        (ofStations getaddrinfo prioStationName s a).count (.push .uiMenu) := by
  cases a with
  | handleLookupReply reply srcAddr made refreshed =>
      obtain ⟨parsed, hparsed, hs'⟩ := bind_eq_ok_iff.mp h
      simp only [ofStations, hparsed]
      cases parsed with
      | none =>
          obtain rfl := Except.ok.inj hs'
          exact ⟨rfl, rfl⟩
      | some station =>
          dsimp only at hs' ⊢
          cases hfind : s.stations.find? station with
          | some it =>
              rw [hfind] at hs'
              obtain rfl := Except.ok.inj hs'
              simp [handleLookupReply]
          | none =>
              rw [hfind] at hs'
              obtain rfl := Except.ok.inj hs'
              by_cases hchosen : (s.stations.insert station).nodes.length = 1 ∨
                  prioStationName = some station.name
              · simp [Stations.addStation, hchosen, handleLookupReply, Stations.setCurrentStation]
              · simp [Stations.addStation, hchosen, handleLookupReply]
  | removeInactive now =>
      obtain rfl := Except.ok.inj h
      simp only [ofStations, Stations.removeInactive]
      by_cases hremoved : s.stations.erased (Stations.isActive now) = []
      · simp [hremoved, removeInactive]
      · by_cases hcurrent : ((s.stations.erased (Stations.isActive now)).any fun n =>
            s.currentStation = some n.id) = true
        · simp [hremoved, hcurrent, removeInactive, Stations.resetCurrentStation,
            Stations.setCurrentStation]
        · simp [hremoved, hcurrent, removeInactive]
  | cmdMoveUp =>
      simp only [ofStations, count_cmdMove]
      by_cases hmoves : s.stations.nodes ≠ [] ∧ s.currentStation ≠ s.stations.begin
      · simp only [Stations.step, Stations.cmdMoveUp, if_pos hmoves] at h
        simpa [hmoves] using events_of_moved h
      · simp only [Stations.step, Stations.cmdMoveUp, if_neg hmoves] at h
        obtain rfl := Except.ok.inj h
        simp [hmoves]
  | cmdMoveDown =>
      simp only [ofStations, count_cmdMove]
      by_cases hmoves : s.stations.nodes ≠ [] ∧ s.currentStation ≠ s.stations.last
      · simp only [Stations.step, Stations.cmdMoveDown, if_pos hmoves] at h
        simpa [hmoves] using events_of_moved h
      · simp only [Stations.step, Stations.cmdMoveDown, if_neg hmoves] at h
        obtain rfl := Except.ok.inj h
        simp [hmoves]
  | popEvent => exact absurd rfl ha
  | changeStation =>
      have hcount (w : Worker) : changeStation.count (.push w) = 0 := by simp [changeStation]
      simp only [ofStations, hcount]
      have hevents : s'.audioReceiverEvent = s.audioReceiverEvent ∧
          s'.uiMenuEvent = s.uiMenuEvent := by
        simp only [Stations.step, Stations.changeStation] at h
        split at h
        · split at h
          · obtain rfl := Except.ok.inj h
            exact ⟨rfl, rfl⟩
          · obtain ⟨station, -, hs'⟩ := bind_eq_ok_iff.mp h
            obtain rfl := Except.ok.inj hs'
            exact ⟨rfl, rfl⟩
        · obtain rfl := Except.ok.inj h
          exact ⟨rfl, rfl⟩
      rw [hevents.1, hevents.2]
      exact ⟨rfl, rfl⟩

theorem events_of_playback_step {s s' : Playback UInt8} {a : Action UInt8} (ha : a ≠ .popEvent)
    (h : s.step a = .ok s') :
    s'.printerQueue.length = s.printerQueue.length +
      (ofPlayback s a).count (.push .audioPrinter) := by
  cases a with
  | receive packet =>
      have hcount (isNew : Bool) : (openSession isNew).count (.push .audioPrinter) = 0 := by
        cases isNew with
        | false => rfl
        | true => simp [openSession]
      have hsame : s'.printerQueue = s.printerQueue := by
        simp only [Playback.step] at h
        split at h
        · obtain rfl := Except.ok.inj h
          rfl
        · obtain rfl := Except.ok.inj h
          unfold Playback.openSession
          grind
      simp only [ofPlayback, hcount, hsame]
      rfl
  | put =>
      simp only [Playback.step] at h
      cases hhand : s.inHand with
      | none =>
          rw [hhand] at h
          obtain rfl := Except.ok.inj h
          simp [ofPlayback, hhand]
      | some packet =>
          rw [hhand] at h
          obtain ⟨buffer, hput, hs'⟩ := bind_eq_ok_iff.mp h
          obtain rfl := Except.ok.inj hs'
          have hqueue : (s.stored packet buffer).printerQueue = s.printerQueue := rfl
          simp only [ofPlayback, hhand, hput, Playback.afterPut]
          by_cases hprints : (s.stored packet buffer).Prints packet
          · simp [hprints, putPacket, hqueue]
          · simp [hprints, putPacket, hqueue]
  | changeStation =>
      simp only [Playback.step] at h
      split at h
      · obtain rfl := Except.ok.inj h
        rfl
      · obtain rfl := Except.ok.inj h
        rfl
  | popEvent => exact absurd rfl ha
  | print =>
      simp only [Playback.step] at h
      split at h
      case isTrue hprinting =>
        have hsame : s'.printerQueue = s.printerQueue := by
          obtain ⟨-, -, h⟩ := bind_eq_ok_iff.mp h
          obtain ⟨⟨buffer, chunk⟩, -, hs'⟩ := bind_eq_ok_iff.mp h
          obtain rfl := Except.ok.inj hs'
          rfl
        simp [ofPlayback, hprinting, handlePrint, hsame]
      case isFalse hidle =>
        obtain rfl := Except.ok.inj h
        simp [ofPlayback, hidle]

end Branches

/-! ## The order of the locks -/

def rank : Lock → Nat
  | .stations => 0
  | .currentStation => 1
  | .buffer => 2
  | .event .uiMenu => 3
  | .event _ => 4

theorem two_lt_rank_event (w : Worker) : 2 < rank (.event w) := by
  cases w <;> decide

section Order
variable {held : Finset Lock}

theorem balanced_notify {w : Worker} (h : ∀ m ∈ held, rank m < rank (.event w)) :
    Balanced rank held (notify w) := .locked h ((balanced_nil _).push _)

theorem balanced_handleLookupReply (known chosen : Bool) :
    Balanced rank ∅ (handleLookupReply known chosen) := by
  refine .locked (by simp) ?_
  cases known with
  | true => exact balanced_nil _
  | false =>
      refine .append ?_ (balanced_notify (by decide))
      cases chosen with
      | true => exact .locked (by decide) (balanced_notify (by decide))
      | false => exact balanced_nil _

theorem balanced_removeInactive (removedAny removedCurrent : Bool) :
    Balanced rank ∅ (removeInactive removedAny removedCurrent) := by
  refine .locked (by simp) (.locked (by decide) ?_)
  cases removedAny with
  | false => exact balanced_nil _
  | true =>
      refine .locked (by decide) (.push _ ?_)
      cases removedCurrent with
      | true => exact balanced_notify (by decide)
      | false => exact balanced_nil _

theorem balanced_cmdMove (moves : Bool) : Balanced rank ∅ (cmdMove moves) := by
  refine .locked (by simp) (.locked (by decide) ?_)
  cases moves with
  | true => exact balanced_notify (by decide)
  | false => exact balanced_nil _

theorem balanced_changeStation : Balanced rank ∅ changeStation :=
  .locked (by simp) (.locked (by decide) (balanced_nil _))

theorem balanced_openSession (isNew : Bool) : Balanced rank ∅ (openSession isNew) := by
  cases isNew with
  | true => exact .locked (by simp) (balanced_nil _)
  | false => exact balanced_nil _

theorem balanced_putPacket (prints : Bool) : Balanced rank ∅ (putPacket prints) := by
  refine .locked (by simp) ?_
  cases prints with
  | true => exact .append (.locked (by decide) (balanced_nil _)) ((balanced_nil _).push _)
  | false => exact balanced_nil _

theorem balanced_handlePrint : Balanced rank ∅ handlePrint :=
  .locked (by simp) (balanced_nil _)

theorem balanced_orderRetransmission (connected : Bool) :
    Balanced rank ∅ (orderRetransmission connected) := by
  refine .locked (by simp) (.locked (by decide) ?_)
  cases connected with
  | true => exact .locked (by decide) (balanced_nil _)
  | false => exact balanced_nil _

variable (getaddrinfo : List Char → Option Nat) (prioStationName : Option (List Char))

theorem balanced_ofStations (s : Stations) (a : Stations.Action) :
    Balanced rank ∅ (ofStations getaddrinfo prioStationName s a) := by
  cases a with
  | handleLookupReply reply srcAddr made refreshed =>
      simp only [ofStations]
      split
      · exact balanced_handleLookupReply _ _
      · exact balanced_nil _
  | removeInactive now => exact balanced_removeInactive _ _
  | cmdMoveUp => exact balanced_cmdMove _
  | cmdMoveDown => exact balanced_cmdMove _
  | popEvent => exact balanced_nil _
  | changeStation => exact balanced_changeStation

theorem balanced_ofPlayback (s : Playback UInt8) (a : Action UInt8) :
    Balanced rank ∅ (ofPlayback s a) := by
  cases a with
  | receive packet => exact balanced_openSession _
  | put =>
      simp only [ofPlayback]
      split
      · split
        · exact balanced_putPacket _
        · exact balanced_putPacket _
      · exact balanced_nil _
  | changeStation => exact balanced_nil _
  | popEvent => exact balanced_nil _
  | print =>
      simp only [ofPlayback]
      split
      · exact balanced_handlePrint
      · exact balanced_nil _

/-! ## The turns of the threads -/

/-- What a thread runs in one turn of its loop, in some state of its worker, and the queue from
which it takes an event before. -/
inductive Turn : Thread → Option Worker → List (Instr Lock Worker) → Prop
  /-- An event to which a worker with a queue does nothing, `TERMINATE` among them. -/
  | event (w : Worker) (hw : w ≠ .rexmitSender ∧ w ≠ .stationRemover) : Turn (.worker w) w []
  | lookupReply (s : Stations) (reply : LookupReply) (srcAddr : SockAddr) (made refreshed : Int) :
      Turn (.worker .lookupReceiver) none
        (ofStations getaddrinfo prioStationName s
          (.handleLookupReply reply srcAddr made refreshed))
  | sweep (s : Stations) (now : Nat → Int) :
      Turn (.worker .stationRemover) none
        (ofStations getaddrinfo prioStationName s (.removeInactive now))
  | moveUp (s : Stations) :
      Turn (.worker .uiMenu) none (ofStations getaddrinfo prioStationName s .cmdMoveUp)
  | moveDown (s : Stations) :
      Turn (.worker .uiMenu) none (ofStations getaddrinfo prioStationName s .cmdMoveDown)
  | changeStation (s : Stations) :
      Turn (.worker .audioReceiver) (some .audioReceiver)
        (ofStations getaddrinfo prioStationName s .changeStation)
  | receive (s : Playback UInt8) (packet : AudioPacket UInt8) :
      Turn (.worker .audioReceiver) none (ofPlayback s (.receive packet))
  | put (s : Playback UInt8) : Turn (.worker .audioReceiver) none (ofPlayback s .put)
  | print (s : Playback UInt8) :
      Turn (.worker .audioPrinter) (some .audioPrinter) (ofPlayback s .print)
  | request (s : Stations) :
      Turn (.worker .rexmitSender) none (orderRetransmission (decide (s.currentStation ≠ none)))

/-- What the threads and the signals do. -/
def Allowed : Foundations.LockOrder.Action Thread Lock Worker → Prop
  | .start t event code => Turn getaddrinfo prioStationName t event code
  | .interrupt _ code => ∃ signalled, code = signalHandler signalled
  | .advance _ => True

/-- No signal is handled on a thread that holds the lock of a queue. -/
def Harmless (s : Threads Thread Lock Worker) :
    Foundations.LockOrder.Action Thread Lock Worker → Prop
  | .interrupt t _ => ∀ w, s.owner (.event w) ≠ some t
  | _ => True

variable {getaddrinfo prioStationName}

theorem Turn.balanced {t : Thread} {event : Option Worker} {code : List (Instr Lock Worker)}
    (h : Turn getaddrinfo prioStationName t event code) : Balanced rank ∅ code := by
  cases h with
  | event => exact balanced_nil _
  | lookupReply => exact balanced_ofStations _ _ _ _
  | sweep => exact balanced_ofStations _ _ _ _
  | moveUp => exact balanced_ofStations _ _ _ _
  | moveDown => exact balanced_ofStations _ _ _ _
  | changeStation => exact balanced_ofStations _ _ _ _
  | receive => exact balanced_ofPlayback _ _
  | put => exact balanced_ofPlayback _ _
  | print => exact balanced_ofPlayback _ _
  | request => exact balanced_orderRetransmission _

theorem disciplined_of_allowed {s : Threads Thread Lock Worker}
    {a : Foundations.LockOrder.Action Thread Lock Worker}
    (ha : Allowed getaddrinfo prioStationName a) (hs : Harmless s a) :
    Threads.Disciplined rank s a := by
  cases a with
  | start t event code => exact Turn.balanced ha
  | interrupt t code =>
      obtain ⟨signalled, rfl⟩ := ha
      refine balanced_signalHandler (fun m hm w => ?_) signalled
      have hm' : rank m ≤ 2 := by
        cases m with
        | event v => exact absurd (Threads.mem_heldBy.mp hm) (hs v)
        | stations => decide
        | currentStation => decide
        | buffer => decide
      exact hm'.trans_lt (two_lt_rank_event w)
  | advance t => trivial

/-! ## Who waits for whom -/

/-- As long as no signal is handled under the lock of a queue, every thread that waits does so,
through others, for one that waits for no lock or that writes to a full queue; with room for their
events the threads can run to the end of what they are doing, if what they do between the operations
comes to an end. -/
theorem every_wait_ends {capacity : Nat} {s : Threads Thread Lock Worker}
    (hreach : Threads.Reaches capacity
      (fun s a => Allowed getaddrinfo prioStationName a ∧ Harmless s a) Threads.idle s) :
    (∀ t, s.code t ≠ [] → ∃ u, Relation.ReflTransGen s.Waits t u ∧
      (s.CanAdvance capacity u ∨ s.LacksRoom capacity u)) ∧
    ((∀ w, s.toWrite w ≤ capacity) →
      ∃ ts : List Thread, ∀ t, (ts.foldl (fun s t => s.advance capacity t) s).code t = []) := by
  have horderly : Threads.Orderly rank s :=
    Threads.Orderly.reaches (fun _ _ ha => disciplined_of_allowed ha.1 ha.2)
      Threads.orderly_idle hreach
  exact ⟨fun t ht => horderly.exists_chain ht, fun hroom => horderly.exists_drain hroom⟩

/-- The UiMenu waits for the StationRemover, which has taken the lock of the stations. -/
def contended : Threads Thread Lock Worker :=
  ((Threads.idle.step 1 (.start (.worker .stationRemover) none
      (ofStations (fun _ => none) none .init (.removeInactive fun _ => 0)))).step 1
    (.advance (.worker .stationRemover))).step 1
      (.start (.worker .uiMenu) none (ofStations (fun _ => none) none .init .cmdMoveUp))

theorem every_wait_ends_contended :
    contended.Waits (.worker .uiMenu) (.worker .stationRemover) ∧
      ∃ u, Relation.ReflTransGen contended.Waits (.worker .uiMenu) u ∧
        (contended.CanAdvance 1 u ∨ contended.LacksRoom 1 u) := by
  have hsweep : Allowed (fun _ => none) none (.start (.worker .stationRemover) none
      (ofStations (fun _ => none) none .init (.removeInactive fun _ => 0))) := Turn.sweep ..
  have hmove : Allowed (fun _ => none) none (.start (.worker .uiMenu) none
      (ofStations (fun _ => none) none .init .cmdMoveUp)) := Turn.moveUp _
  have hreach : Threads.Reaches 1
      (fun s a => Allowed (fun _ => none) none a ∧ Harmless s a) Threads.idle contended :=
    .tail (.tail (.single ⟨_, ⟨hsweep, trivial⟩, rfl⟩)
      ⟨.advance (.worker .stationRemover), ⟨trivial, trivial⟩, rfl⟩) ⟨_, ⟨hmove, trivial⟩, rfl⟩
  refine ⟨⟨.stations, _, rfl, rfl⟩, (every_wait_ends hreach).1 _ ?_⟩
  exact List.cons_ne_nil _ _

/-- A handler that runs on a thread that holds the lock of a queue, and finds the worker of the
queue not yet signalled, never gets past that lock: neither this worker nor one with a smaller id
hears of the signal from it, and what it interrupted is never taken up again. -/
theorem handler_stops_its_thread {capacity : Nat} {s s' : Threads Thread Lock Worker} {t : Thread}
    {w : Worker} {signalled : Worker → Bool} (hown : s.owner (.event w) = some t)
    (hsignalled : signalled w = false)
    (hreach : Threads.Reaches capacity (fun _ a => Allowed getaddrinfo prioStationName a)
      (s.step capacity (.interrupt t (signalHandler signalled))) s') :
    s'.owner (.event w) = some t ∧
      ∃ pre, s'.code t = pre ++ .acquire (.event w) :: .release (.event w) :: .push w ::
        (Common.signalHandler .event (later workers w) signalled ++ s.code t) := by
  have hw : w ∈ workers := by cases w <;> simp [workers]
  have hstuck := (takesOwn_of_signal capacity hown hw hsignalled).reaches
    (fun _ code hcode => by
      obtain ⟨signalled', rfl⟩ := hcode
      exact acquiresFirst_signalHandler Lock.event workers signalled' _) hreach
  obtain ⟨pre, hpre, -⟩ := hstuck.acquires
  exact ⟨hstuck.owner, pre, hpre⟩

/-- A handler on the thread of `main` has taken the lock on the queue of the UiMenu. -/
def handling : Threads Thread Lock Worker :=
  (Threads.idle.step 1 (.interrupt .main (signalHandler fun _ => false))).step 1 (.advance .main)

theorem handler_stops_its_thread_handling :
    ∃ pre, (handling.step 1 (.interrupt .main (signalHandler fun _ => false))).code .main =
      pre ++ .acquire (.event .uiMenu) :: .release (.event .uiMenu) :: .push .uiMenu ::
        (Common.signalHandler .event (later workers .uiMenu) (fun _ => false) ++
          handling.code .main) := by
  have hreach : Threads.Reaches 1 (fun _ a => Allowed (fun _ => none) none a)
      (handling.step 1 (.interrupt .main (signalHandler fun _ => false)))
      (handling.step 1 (.interrupt .main (signalHandler fun _ => false))) := .refl
  have hown : handling.owner (.event .uiMenu) = some .main := rfl
  have hsignalled : (fun _ : Worker => false) .uiMenu = false := rfl
  exact (handler_stops_its_thread hown hsignalled hreach).2

end Order

end SikRadio.Receiver.Locking
