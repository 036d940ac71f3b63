import Mathlib.Logic.Function.Basic
import SikRadio.Receiver.Stations

/-!
# The menu and its telnet clients

The UiMenu polls its event queue, its server socket and one socket for each
client. A client's slot is kept twice: its descriptor in `_poll_fds`, for
`poll`, and an entry in the map `_clients`, which owns the socket and the bytes
of a command read so far. Every event that the worker handles is one step.

## Implementation notes

What the system calls return is part of the actions: each of them carries the
outcome of every write it makes, so that any write may fail. A write that raises
`SIGPIPE` ends the receiver and has no outcome. A read or a write on descriptor -1
fails. `Stations` is the state that the other workers share. The requested events
of a descriptor never change and are left out. `written` and `applied` record what
was written to which descriptor and which commands were applied for which client.
`poll` itself does not fail, since the program ends otherwise, and it reports the
event queue exactly when an event is queued.
-/

namespace SikRadio.Receiver

open SikRadio.Common Foundations.CheckedRuns

/-- `client_id_t`: an index into `_poll_fds`. -/
abbrev ClientId : Type := Nat

/-- The bits of `revents`. -/
structure Revents where
  pollin : Bool
  pollout : Bool
  pollerr : Bool

def Revents.none : Revents := ⟨false, false, false⟩

/-- `pollfd`; -1 stands for no descriptor. -/
structure PollFd where
  fd : Int
  revents : Revents

/-- `TcpClient`, with the descriptor of its socket. -/
structure TcpClient where
  socket : Int
  nread : Nat
  cmdBuf : List Char

/-- The constructor of a client with the descriptor of its socket; nothing has been read. -/
def TcpClient.ofSocket (fd : Int) : TcpClient where
  socket := fd
  nread := 0
  cmdBuf := List.replicate 4 (Char.ofNat 0)

/-- A byte is stored in the buffer and counted. -/
def TcpClient.push (client : TcpClient) (c : Char) : TcpClient :=
  { client with nread := client.nread + 1, cmdBuf := client.cmdBuf.set client.nread c }

/-- `reset_client_input`. -/
def TcpClient.reset (client : TcpClient) : TcpClient :=
  { client with nread := 0, cmdBuf := List.replicate 4 (Char.ofNat 0) }

/-- The two commands of the command map. -/
inductive Command where
  | up
  | down
  deriving DecidableEq

structure UiMenu where
  pollFds : ClientId → PollFd
  clients : ClientId → Option TcpClient
  stations : Stations
  returned : Bool
  written : List (Int × List Char)
  applied : List (ClientId × Command)

namespace UiMenu

/-- `MY_EVENT`. -/
def myEvent : ClientId := 0

/-- `SERVER`. -/
def server : ClientId := 1

/-- `MIN_CLIENT_ID`. -/
def minClientId : ClientId := 2

/-- `MAX_CLIENTS`. -/
def maxClients : Nat := 42

/-- `TOTAL_POLLFDS`. -/
def totalPollfds : Nat := 2 + maxClients

/-- The constructor of the worker: no client is connected. -/
def init (eventFd serverFd : Int) : UiMenu where
  pollFds := fun i =>
    ⟨if i = myEvent then eventFd else if i = server then serverFd else -1, .none⟩
  clients := fun _ => none
  stations := .init
  returned := false
  written := []
  applied := []

/-! ## Slots -/

section Slots

variable (s : UiMenu) (id : ClientId)

def setPollFd (pollFd : PollFd) : UiMenu :=
  { s with pollFds := Function.update s.pollFds id pollFd }

def setClient (client : TcpClient) : UiMenu :=
  { s with clients := Function.update s.clients id (some client) }

/-- What `_clients[id]` refers to: a new entry has no socket. -/
def client : TcpClient := (s.clients id).getD (.ofSocket (-1))

/-- `_clients[id]` adds an entry when there is none. -/
def access : UiMenu := s.setClient id (s.client id)

/-- `_clients.emplace` keeps an entry that exists. -/
def emplace (client : TcpClient) : UiMenu :=
  match s.clients id with
  | none => s.setClient id client
  | some _ => s

/-- `disconnect_client`. -/
def disconnectClient : UiMenu :=
  { s with
    clients := Function.update s.clients id none
    pollFds := Function.update s.pollFds id ⟨-1, .none⟩ }

def resetClientInput : UiMenu := s.setClient id (s.client id).reset

end Slots

/-! ## Messages -/

/-- `ui::display::CLEAR`. -/
def clear : List Char := [Stations.esc, '[', '2', 'J', Stations.esc, '[', 'H']

/-- What `config_client` writes: IAC WILL ECHO, IAC DO ECHO, IAC DO LINEMODE. -/
def config : List Char := [255, 251, 1, 255, 253, 1, 255, 253, 34].map Char.ofNat

section Messages

variable (s : UiMenu) (id : ClientId)

/-- Whether a write to a client succeeds. -/
def writes (accepted : Bool) : Bool := decide ((s.client id).socket ≠ -1) && accepted

/-- A write to a client that succeeds. -/
def wrote (msg : List Char) : UiMenu :=
  { s.access id with written := s.written ++ [((s.client id).socket, msg)] }

/-- `send_msg` disconnects the client when the write throws. -/
def sendMsg (msg : List Char) (accepted : Bool) : UiMenu :=
  if s.writes id accepted then s.wrote id (clear ++ msg)
  else (s.access id).disconnectClient id

/-- One round of the loop of `send_to_all`. -/
def sendTo (msg : List Char) (accepted : ClientId → Bool) : UiMenu :=
  if (s.pollFds id).fd ≠ -1 then s.sendMsg id msg (accepted id) else s

/-- `send_to_all`. -/
@[irreducible] def sendToAll (msg : List Char) (accepted : ClientId → Bool) : UiMenu :=
  (List.range' minClientId (maxClients - minClientId)).foldl
    (fun s id => s.sendTo id msg accepted) s

def menuToStr : List Char := s.stations.menuToStr

end Messages

/-! ## Connections -/

/-- `register_client`. -/
def registerClient (s : UiMenu) (clientFd : Int) : Option (UiMenu × ClientId) :=
  match (List.range' minClientId (totalPollfds - minClientId)).find? fun i =>
      (s.pollFds i).fd = -1 with
  | some i => some ((s.setPollFd i ⟨clientFd, .none⟩).emplace i (.ofSocket clientFd), i)
  | none => none

/-- `accept_new_client`, when `accept` returned `clientFd`. -/
def acceptNewClient (s : UiMenu) (clientFd : Int) (configured greeted : Bool) : UiMenu :=
  if clientFd = -1 then s
  else
    match s.registerClient clientFd with
    | none => s
    | some (registered, id) =>
        if registered.writes id configured then
          (registered.wrote id config).sendMsg id registered.menuToStr greeted
        else (registered.access id).disconnectClient id

/-! ## Commands -/

/-- `_command_map`. -/
def commandMap (key : List Char) : Option Command :=
  if key = [Stations.esc, '[', 'A'] then some .up
  else if key = [Stations.esc, '[', 'B'] then some .down
  else none

/-- `cmd_move_up` and `cmd_move_down`, with the menu they send. -/
def cmdMove (s : UiMenu) (command : Command) (accepted : ClientId → Bool) :
    Except Fault UiMenu := do
  let stations ← match command with
    | .up => s.stations.cmdMoveUp
    | .down => s.stations.cmdMoveDown
  let changed : UiMenu := { s with stations }
  return changed.sendToAll changed.menuToStr accepted

def logged (s : UiMenu) (id : ClientId) (command : Command) : UiMenu :=
  { s with applied := s.applied ++ [(id, command)] }

/-- The command in the buffer is read up to its null character. -/
def applyCmd (s : UiMenu) (id : ClientId) (accepted : ClientId → Bool) : Except Fault UiMenu := do
  check (Char.ofNat 0 ∈ (s.client id).cmdBuf) .outOfBounds
  match commandMap ((s.client id).cmdBuf.takeWhile fun c => c ≠ Char.ofNat 0) with
  | none => .error .assertFailed
  | some command =>
      let moved ← (s.logged id command).cmdMove command accepted
      return moved.resetClientInput id

/-- What a read of one byte yields. -/
inductive Input where
  | failed
  | eof
  | byte (c : Char)

/-- Whether the byte continues a command of which `nread` bytes are read, itself included. -/
def continues (c : Char) (nread : Nat) : Bool :=
  if c = Stations.esc then nread == 1
  else if c = '[' then nread == 2
  else if c = 'A' ∨ c = 'B' then nread == 3
  else false

/-- Whether the byte completes the command. -/
def completes (c : Char) (nread : Nat) : Bool := (c == 'A' || c == 'B') && nread == 3

/-- The part of `handle_client_input` that handles the byte `c`, once it is in the buffer. -/
def handleByte (s : UiMenu) (id : ClientId) (c : Char) (accepted : ClientId → Bool) :
    Except Fault UiMenu :=
  if continues c (s.client id).nread = false then return s.resetClientInput id
  else if completes c (s.client id).nread then s.applyCmd id accepted
  else return s

def handleClientInput (s : UiMenu) (id : ClientId) (input : Input) (accepted : ClientId → Bool) :
    Except Fault UiMenu :=
  let client := s.client id
  if client.socket = -1 then return (s.access id).disconnectClient id
  else
    match input with
    | .failed => return (s.access id).disconnectClient id
    | .eof => return (s.access id).disconnectClient id
    | .byte c => do
        check (client.nread < client.cmdBuf.length) .outOfBounds
        ((s.access id).setClient id (client.push c)).handleByte id c accepted

/-! ## The loop -/

/-- `poll` ignores a negative descriptor. -/
def poll (s : UiMenu) (ready : ClientId → Revents) : UiMenu :=
  { s with
    pollFds := fun i =>
      let fd := (s.pollFds i).fd
      if fd < 0 then ⟨fd, .none⟩
      else if i = myEvent then ⟨fd, { ready i with pollin := !s.stations.uiMenuEvent.isEmpty }⟩
      else ⟨fd, ready i⟩ }

def clearRevents (s : UiMenu) (id : ClientId) : UiMenu :=
  s.setPollFd id ⟨(s.pollFds id).fd, .none⟩

/-- The part of `run` that handles an event. -/
def handleEvent (s : UiMenu) (accepted : ClientId → Bool) : UiMenu :=
  if (s.pollFds myEvent).revents.pollin then
    let cleared := s.clearRevents myEvent
    match s.stations.uiMenuEvent with
    | [] => cleared
    | event :: rest =>
        let popped : UiMenu := { cleared with stations := { s.stations with uiMenuEvent := rest } }
        match event with
        | .terminate => { popped with returned := true }
        | .stationAdded => popped.sendToAll popped.menuToStr accepted
        | .stationRemoved => popped.sendToAll popped.menuToStr accepted
        | .currentStationChanged => popped.sendToAll popped.menuToStr accepted
        | _ => popped
  else s

/-- The part of `run` that accepts a connection. -/
def handleServer (s : UiMenu) (clientFd : Int) (configured greeted : Bool) : UiMenu :=
  if (s.pollFds server).revents.pollin then
    (s.clearRevents server).acceptNewClient clientFd configured greeted
  else s

/-- The part of `run` that handles one client. -/
def handleClient (s : UiMenu) (id : ClientId) (input : Input) (accepted : ClientId → Bool)
    (sent : Bool) : Except Fault UiMenu :=
  if (s.pollFds id).fd = -1 then return s
  else if (s.pollFds id).revents.pollerr then return s.disconnectClient id
  else do
    let read ←
      if (s.pollFds id).revents.pollin then s.handleClientInput id input accepted else .ok s
    let shown := if (read.pollFds id).revents.pollout then read.sendMsg id read.menuToStr sent
      else read
    return shown.clearRevents id

/-- What the UiMenu handles, with what its reads and writes yield: `accepted id` says whether
the menu sent to all can be written to client `id`, `sent` the same of the menu that the client
is sent alone. -/
inductive UiEvent where
  | poll (ready : ClientId → Revents)
  | event (accepted : ClientId → Bool)
  | server (clientFd : Int) (configured greeted : Bool)
  | client (id : ClientId) (input : Input) (accepted : ClientId → Bool) (sent : Bool)

def handle (s : UiMenu) : UiEvent → Except Fault UiMenu
  | .poll ready => .ok (s.poll ready)
  | .event accepted => .ok (s.handleEvent accepted)
  | .server clientFd configured greeted => .ok (s.handleServer clientFd configured greeted)
  | .client id input accepted sent =>
      if minClientId ≤ id ∧ id < totalPollfds then s.handleClient id input accepted sent
      else .ok s

/-- The steps of the UiMenu and of the workers that share the stations with it. -/
inductive Action where
  | handle (event : UiEvent)
  | other (action : Stations.Action)

section Runs

variable (getaddrinfo : List Char → Option Nat) (prioStationName : Option (List Char))

/-- The UiMenu takes no step after it has returned. The moves of the current station are its
own and no step of another worker. -/
def step (s : UiMenu) : Action → Except Fault UiMenu
  | .handle event => if s.returned then .ok s else s.handle event
  | .other .cmdMoveUp => .ok s
  | .other .cmdMoveDown => .ok s
  | .other action => do
      let stations ← s.stations.step getaddrinfo prioStationName action
      return { s with stations }

/-- Run a list of actions. -/
def run (s : UiMenu) (actions : List Action) : Except Fault UiMenu :=
  actions.foldlM (step getaddrinfo prioStationName) s

end Runs

/-- One round of the loop of `UiMenuWorker::run`. The steps of the other workers come in between. -/
def loopRound (ready : ClientId → Revents) (eventAccepted : ClientId → Bool) (clientFd : Int)
    (configured greeted : Bool) (input : ClientId → Input)
    (accepted : ClientId → ClientId → Bool) (sent : ClientId → Bool) : List Action :=
  [.handle (.poll ready), .handle (.event eventAccepted),
    .handle (.server clientFd configured greeted)] ++
    (List.range' minClientId (totalPollfds - minClientId)).map fun id =>
      .handle (.client id (input id) (accepted id) (sent id))

end UiMenu

end SikRadio.Receiver
