import SikRadio.Receiver.StationSteps
import SikRadio.Receiver.UiMenu

/-!
# The bytes of a command

Between two bytes of a client its buffer holds the start of a command and zeros,
so the buffer never overflows and every complete command is in the command map.
The UiMenu therefore handles every event; the program can only end in a step of
another worker.
-/

namespace SikRadio.Receiver

open SikRadio.Common Foundations.CheckedRuns

/-- How both commands start. -/
def commandStart : List Char := [Stations.esc, '[']

/-- At most two bytes are read: the start of a command, before zeros. -/
structure TcpClient.Ready (client : TcpClient) : Prop where
  nread_le : client.nread ≤ 2
  cmdBuf_eq : client.cmdBuf =
    commandStart.take client.nread ++ List.replicate (4 - client.nread) (Char.ofNat 0)

theorem TcpClient.ready_reset (client : TcpClient) : client.reset.Ready :=
  ⟨Nat.zero_le 2, rfl⟩

theorem TcpClient.ready_ofSocket (fd : Int) : (TcpClient.ofSocket fd).Ready :=
  ⟨Nat.zero_le 2, rfl⟩

/-- The states of a buffer, one for each number of bytes read. -/
theorem TcpClient.Ready.cases {client : TcpClient} (h : client.Ready) :
    (client.nread = 0 ∧ client.cmdBuf = List.replicate 4 (Char.ofNat 0)) ∨
      (client.nread = 1 ∧ client.cmdBuf = Stations.esc :: List.replicate 3 (Char.ofNat 0)) ∨
      (client.nread = 2 ∧
        client.cmdBuf = Stations.esc :: '[' :: List.replicate 2 (Char.ofNat 0)) := by
  have hle := h.nread_le
  have hbuf := h.cmdBuf_eq
  interval_cases hnread : client.nread
  · exact .inl ⟨rfl, hbuf⟩
  · exact .inr (.inl ⟨rfl, hbuf⟩)
  · exact .inr (.inr ⟨rfl, hbuf⟩)

/-- There is room for the next byte. -/
theorem TcpClient.Ready.room {client : TcpClient} (h : client.Ready) :
    client.nread < client.cmdBuf.length := by
  rcases h.cases with ⟨hnread, hbuf⟩ | ⟨hnread, hbuf⟩ | ⟨hnread, hbuf⟩
  all_goals simp [hnread, hbuf]

/-- What a byte does to a buffer: it is no continuation, or the buffer stays the start of a
command, or it completes the command. -/
theorem TcpClient.Ready.next {client : TcpClient} (h : client.Ready) (c : Char) :
    UiMenu.continues c (client.nread + 1) = false ∨
      (UiMenu.continues c (client.nread + 1) = true ∧
        UiMenu.completes c (client.nread + 1) = false ∧
        (client.push c).Ready) ∨
      (UiMenu.continues c (client.nread + 1) = true ∧
        UiMenu.completes c (client.nread + 1) = true ∧ client.nread = 2 ∧ (c = 'A' ∨ c = 'B') ∧
        (client.push c).cmdBuf = [Stations.esc, '[', c, Char.ofNat 0]) := by
  rcases h.cases with ⟨hnread, hbuf⟩ | ⟨hnread, hbuf⟩ | ⟨hnread, hbuf⟩
  · by_cases hc : c = Stations.esc
    · subst hc
      exact .inr (.inl ⟨by simp [UiMenu.continues, hnread], by simp [UiMenu.completes, hnread],
        ⟨by simp [push, hnread], by simp [push, hnread, hbuf, commandStart]⟩⟩)
    · left
      simp [UiMenu.continues, hnread, hc]
  · by_cases hc : c = '['
    · subst hc
      exact .inr (.inl ⟨by rw [hnread]; decide, by simp [UiMenu.completes],
        ⟨by simp [push, hnread], by simp [push, hnread, hbuf, commandStart]⟩⟩)
    · left
      simp [UiMenu.continues, hnread, hc]
  · by_cases hc : c = 'A' ∨ c = 'B'
    · refine .inr (.inr ⟨?_, ?_, hnread, hc, by simp [push, hnread, hbuf]⟩)
      · rcases hc with rfl | rfl <;> rw [hnread] <;> decide
      · rcases hc with rfl | rfl <;> rw [hnread] <;> decide
    · left
      rw [not_or] at hc
      simp [UiMenu.continues, hnread, hc]

namespace UiMenu

/-- What no event destroys: the buffers hold the start of a command and the current station is
valid. -/
structure Sound (s : UiMenu) : Prop where
  ready : ∀ id client, s.clients id = some client → client.Ready
  valid : s.stations.CurrentValid

variable {s : UiMenu}

/-- Entries may go and others stay. -/
theorem Sound.of_kept (h : Sound s) {s' : UiMenu}
    (hclients : ∀ j, s'.clients j = s.clients j ∨ s'.clients j = none)
    (hstations : s'.stations.CurrentValid) : Sound s' := by
  refine ⟨fun j client hclient => ?_, hstations⟩
  rcases hclients j with hkept | hgone
  · exact h.ready j client (hkept ▸ hclient)
  · rw [hgone] at hclient
    cases hclient

theorem Sound.congr (h : Sound s) {s' : UiMenu} (hclients : s'.clients = s.clients)
    (hstations : s'.stations = s.stations) : Sound s' :=
  h.of_kept (fun j => .inl (congrFun hclients j)) (hstations ▸ h.valid)

/-! ## Messages -/

/-- A client that can be written to has an entry. -/
theorem access_of_writes {id : ClientId} {accepted : Bool} (h : s.writes id accepted = true) :
    s.access id = s := by
  unfold writes client at h
  unfold access setClient client
  cases hentry : s.clients id with
  | none => simp [hentry, TcpClient.ofSocket] at h
  | some client =>
      rw [Option.getD_some, ← hentry, Function.update_eq_self]

theorem sendMsg_clients (s : UiMenu) (id : ClientId) (msg : List Char) (accepted : Bool)
    (j : ClientId) :
    (s.sendMsg id msg accepted).clients j = s.clients j ∨
      (s.sendMsg id msg accepted).clients j = none := by
  unfold sendMsg
  split
  case isTrue hwrites =>
    left
    simp only [wrote, access_of_writes hwrites]
  case isFalse =>
    by_cases hj : j = id
    · exact .inr (by simp [disconnectClient, hj])
    · exact .inl (by simp [disconnectClient, access, setClient, hj])

theorem stations_sendMsg (s : UiMenu) (id : ClientId) (msg : List Char) (accepted : Bool) :
    (s.sendMsg id msg accepted).stations = s.stations := by
  unfold sendMsg
  split <;> rfl

theorem sendToAll_clients (s : UiMenu) (msg : List Char) (accepted : ClientId → Bool)
    (j : ClientId) :
    (s.sendToAll msg accepted).clients j = s.clients j ∨
      (s.sendToAll msg accepted).clients j = none := by
  unfold sendToAll
  generalize List.range' minClientId (maxClients - minClientId) = ids
  induction ids generalizing s with
  | nil => exact .inl rfl
  | cons id ids ih =>
      have hsent : (s.sendTo id msg accepted).clients j = s.clients j ∨
          (s.sendTo id msg accepted).clients j = none := by
        unfold sendTo
        split
        · exact sendMsg_clients s id msg (accepted id) j
        · exact .inl rfl
      rw [List.foldl_cons]
      rcases ih (s.sendTo id msg accepted) with hkept | hgone
      · rw [hkept]
        exact hsent
      · exact .inr hgone

theorem stations_sendToAll (s : UiMenu) (msg : List Char) (accepted : ClientId → Bool) :
    (s.sendToAll msg accepted).stations = s.stations := by
  unfold sendToAll
  generalize List.range' minClientId (maxClients - minClientId) = ids
  induction ids generalizing s with
  | nil => rfl
  | cons id ids ih =>
      rw [List.foldl_cons, ih]
      unfold sendTo
      split
      · exact stations_sendMsg s id msg (accepted id)
      · rfl

/-! ## Slots -/

section Slots

variable (h : Sound s) (id : ClientId)
include h

theorem Sound.ready_client : (s.client id).Ready := by
  unfold client
  cases hentry : s.clients id with
  | none => exact TcpClient.ready_ofSocket (-1)
  | some client => exact h.ready id client hentry

theorem Sound.setClient {client : TcpClient} (hready : client.Ready) :
    Sound (s.setClient id client) := by
  refine ⟨fun j c hc => ?_, h.valid⟩
  simp only [UiMenu.setClient, Function.update_apply] at hc
  split at hc
  · obtain rfl := Option.some.inj hc
    exact hready
  · exact h.ready j c hc

theorem Sound.access : Sound (s.access id) :=
  h.setClient id (h.ready_client id)

theorem Sound.emplace (fd : Int) : Sound (s.emplace id (.ofSocket fd)) := by
  unfold UiMenu.emplace
  split
  · exact h.setClient id (TcpClient.ready_ofSocket fd)
  · exact h

theorem Sound.disconnectClient : Sound (s.disconnectClient id) := by
  refine h.of_kept (fun j => ?_) h.valid
  by_cases hj : j = id
  · exact .inr (by simp [UiMenu.disconnectClient, hj])
  · exact .inl (by simp [UiMenu.disconnectClient, hj])

theorem Sound.wrote (msg : List Char) : Sound (s.wrote id msg) :=
  (h.access id).congr rfl rfl

theorem Sound.sendMsg (msg : List Char) (accepted : Bool) : Sound (s.sendMsg id msg accepted) := by
  apply h.of_kept (sendMsg_clients s id msg accepted)
  rw [stations_sendMsg]
  exact h.valid

omit id in
theorem Sound.sendToAll (msg : List Char) (accepted : ClientId → Bool) :
    Sound (s.sendToAll msg accepted) := by
  apply h.of_kept (sendToAll_clients s msg accepted)
  rw [stations_sendToAll]
  exact h.valid

/-! ## Connections -/

theorem Sound.registerClient {clientFd : Int} {s' : UiMenu}
    (hs : s.registerClient clientFd = some (s', id)) : Sound s' := by
  unfold UiMenu.registerClient at hs
  split at hs
  case h_1 i hfree =>
    obtain ⟨rfl, -⟩ := Prod.mk.inj (Option.some.inj hs)
    have hset : Sound (s.setPollFd i ⟨clientFd, .none⟩) := h.congr rfl rfl
    exact hset.emplace i clientFd
  case h_2 => cases hs

omit id in
theorem Sound.acceptNewClient (clientFd : Int) (configured greeted : Bool) :
    Sound (s.acceptNewClient clientFd configured greeted) := by
  unfold UiMenu.acceptNewClient
  split
  · exact h
  · split
    · exact h
    · next registered id hregister =>
      have hregistered := h.registerClient id hregister
      split
      · exact (hregistered.wrote id config).sendMsg id _ greeted
      · exact (hregistered.access id).disconnectClient id

end Slots

/-! ## Inputs -/

@[simp] theorem setClient_setClient (id : ClientId) (client client' : TcpClient) :
    (s.setClient id client).setClient id client' = s.setClient id client' := by
  simp [setClient]

@[simp] theorem disconnectClient_setClient (id : ClientId) (client : TcpClient) :
    (s.setClient id client).disconnectClient id = s.disconnectClient id := by
  simp [setClient, disconnectClient]

@[simp] theorem client_setClient (id : ClientId) (client : TcpClient) :
    (s.setClient id client).client id = client := by
  simp [UiMenu.client, setClient]

/-- The complete commands are in the command map. -/
theorem exists_command {c : Char} (hc : c = 'A' ∨ c = 'B') :
    ∃ command, commandMap (commandStart ++ [c]) = some command ∧
      ([Stations.esc, '[', c, Char.ofNat 0].takeWhile fun c => c ≠ Char.ofNat 0) =
        commandStart ++ [c] := by
  rcases hc with rfl | rfl
  · exact ⟨.up, by decide, by decide⟩
  · exact ⟨.down, by decide, by decide⟩

/-- The command of a complete buffer is applied and the buffer is reset. -/
theorem exists_applyCmd_eq {id : ClientId} {c : Char} (hc : c = 'A' ∨ c = 'B')
    (hbuf : (s.client id).cmdBuf = [Stations.esc, '[', c, Char.ofNat 0])
    (accepted : ClientId → Bool) :
    ∃ command, commandMap (commandStart ++ [c]) = some command ∧
      s.applyCmd id accepted =
        (s.logged id command).cmdMove command accepted >>= fun moved =>
          .ok (moved.resetClientInput id) := by
  obtain ⟨command, hcommand, htake⟩ := exists_command hc
  have hnull : Char.ofNat 0 ∈ [Stations.esc, '[', c, Char.ofNat 0] := by simp
  refine ⟨command, hcommand, ?_⟩
  simp only [applyCmd, hbuf, check, if_pos hnull, htake, hcommand]
  rfl

/-- A move of the current station succeeds, and the menu is sent to all. -/
theorem exists_cmdMove (hv : s.stations.CurrentValid) (command : Command)
    (accepted : ClientId → Bool) :
    ∃ stations : Stations, stations.CurrentValid ∧
      s.cmdMove command accepted =
        .ok (UiMenu.sendToAll { s with stations } stations.menuToStr accepted) := by
  cases command with
  | up =>
      obtain ⟨stations, hmove, heffect⟩ := Stations.cmdMoveUp_effect hv
      exact ⟨stations, heffect.currentValid hv, by simp only [cmdMove, hmove]; rfl⟩
  | down =>
      obtain ⟨stations, hmove, heffect⟩ := Stations.cmdMoveDown_effect hv
      exact ⟨stations, heffect.currentValid hv, by simp only [cmdMove, hmove]; rfl⟩

/-- The input is the last byte of a command. -/
def CompletesCommand (s : UiMenu) (id : ClientId) : Input → Prop
  | .byte c => (c = 'A' ∨ c = 'B') ∧ (s.client id).nread = 2
  | _ => False

instance (s : UiMenu) (id : ClientId) (input : Input) : Decidable (s.CompletesCommand id input) :=
  match input with
  | .byte _ => inferInstanceAs (Decidable (_ ∧ _))
  | .failed => isFalse not_false
  | .eof => isFalse not_false

/-- What an input can do. -/
inductive InputEffect (s : UiMenu) (id : ClientId) (input : Input) (accepted : ClientId → Bool) :
    UiMenu → Prop
  | dropped : InputEffect s id input accepted (s.disconnectClient id)
  | kept (client : TcpClient) (socket : client.socket = (s.client id).socket)
      (ready : client.Ready) : InputEffect s id input accepted (s.setClient id client)
  | applied (client : TcpClient) (command : Command) (stations : Stations)
      (complete : s.CompletesCommand id input) (socket : client.socket = (s.client id).socket)
      (valid : stations.CurrentValid) :
      InputEffect s id input accepted
        ((UiMenu.sendToAll { (s.setClient id client).logged id command with stations }
          stations.menuToStr accepted).resetClientInput id)

/-- Every input is handled. -/
theorem exists_handleClientInput (h : Sound s) (id : ClientId) (input : Input)
    (accepted : ClientId → Bool) :
    ∃ s', s.handleClientInput id input accepted = .ok s' ∧
      InputEffect s id input accepted s' := by
  have hready : (s.client id).Ready := h.ready_client id
  unfold handleClientInput
  simp only [access, setClient_setClient, disconnectClient_setClient]
  by_cases hsocket : (s.client id).socket = -1
  · rw [if_pos hsocket]
    exact ⟨_, rfl, .dropped⟩
  · rw [if_neg hsocket]
    cases input with
    | failed => exact ⟨_, rfl, .dropped⟩
    | eof => exact ⟨_, rfl, .dropped⟩
    | byte c =>
        suffices hbyte : ∃ s', (s.setClient id ((s.client id).push c)).handleByte id c accepted =
            .ok s' ∧ InputEffect s id (.byte c) accepted s' by
          obtain ⟨s', hs', heffect⟩ := hbyte
          refine ⟨s', ?_, heffect⟩
          simp only [check, if_pos hready.room]
          exact hs'
        have hpush : ((s.client id).push c).nread = (s.client id).nread + 1 := rfl
        unfold handleByte
        rw [client_setClient, hpush]
        rcases hready.next c with hno | ⟨hyes, hpart, hnext⟩ | ⟨hyes, hdone, hnread, hc, hbuf⟩
        · rw [if_pos hno, resetClientInput, client_setClient, setClient_setClient]
          exact ⟨_, rfl, .kept _ rfl (TcpClient.ready_reset _)⟩
        · rw [hyes, hpart]
          exact ⟨_, rfl, .kept _ rfl hnext⟩
        · rw [hyes, hdone]
          have hbuf' : ((s.setClient id ((s.client id).push c)).client id).cmdBuf =
              [Stations.esc, '[', c, Char.ofNat 0] := by rw [client_setClient, hbuf]
          obtain ⟨command, -, happly⟩ := exists_applyCmd_eq hc hbuf' accepted
          have hvalid : ((s.setClient id ((s.client id).push c)).logged id
              command).stations.CurrentValid := h.valid
          obtain ⟨stations, hstations, hmove⟩ := exists_cmdMove hvalid command accepted
          refine ⟨_, ?_, .applied ((s.client id).push c) command stations ⟨hc, hnread⟩ rfl
            hstations⟩
          rw [hmove] at happly
          exact happly

theorem InputEffect.sound (h : Sound s) {id : ClientId} {input : Input}
    {accepted : ClientId → Bool} {s' : UiMenu} (he : InputEffect s id input accepted s') :
    Sound s' := by
  cases he with
  | dropped => exact h.disconnectClient id
  | kept client socket ready => exact h.setClient id ready
  | applied client command stations complete socket valid =>
      refine ⟨fun j c hc => ?_, ?_⟩
      · by_cases hj : j = id
        · subst hj
          simp only [resetClientInput, setClient, Function.update_self] at hc
          obtain rfl := Option.some.inj hc
          exact TcpClient.ready_reset _
        · simp only [resetClientInput, setClient, Function.update_of_ne hj] at hc
          rcases sendToAll_clients { (s.setClient id client).logged id command with stations }
            stations.menuToStr accepted j with hkept | hgone
          · have hold : s.clients j = some c := by
              rw [← hc]
              exact (hkept.trans (Function.update_of_ne hj ..)).symm
            exact h.ready j c hold
          · exact absurd (hgone.symm.trans hc) (by simp)
      · show (UiMenu.sendToAll _ _ _).stations.CurrentValid
        rw [stations_sendToAll]
        exact valid

/-! ## Events -/

/-- The rest of a turn of a client whose input has been handled. -/
def finished (s : UiMenu) (id : ClientId) (sent : Bool) : UiMenu :=
  (if (s.pollFds id).revents.pollout then s.sendMsg id s.menuToStr sent else s).clearRevents id

theorem Sound.finished (h : Sound s) (id : ClientId) (sent : Bool) :
    Sound (s.finished id sent) := by
  unfold UiMenu.finished
  split
  · exact (h.sendMsg id s.menuToStr sent).congr rfl rfl
  · exact h.congr rfl rfl

/-- What a turn of a client can do. -/
inductive TurnEffect (s : UiMenu) (id : ClientId) (input : Input) (accepted : ClientId → Bool)
    (sent : Bool) : UiMenu → Prop
  | free (hfree : (s.pollFds id).fd = -1) : TurnEffect s id input accepted sent s
  | error : TurnEffect s id input accepted sent (s.disconnectClient id)
  | silent (connected : (s.pollFds id).fd ≠ -1) :
      TurnEffect s id input accepted sent (s.finished id sent)
  | input (s' : UiMenu) (connected : (s.pollFds id).fd ≠ -1)
      (noError : (s.pollFds id).revents.pollerr = false)
      (readable : (s.pollFds id).revents.pollin = true)
      (effect : InputEffect s id input accepted s') :
      TurnEffect s id input accepted sent (s'.finished id sent)

theorem exists_handleClient (h : Sound s) (id : ClientId) (input : Input)
    (accepted : ClientId → Bool) (sent : Bool) :
    ∃ s', s.handleClient id input accepted sent = .ok s' ∧
      TurnEffect s id input accepted sent s' := by
  unfold handleClient
  by_cases hfree : (s.pollFds id).fd = -1
  · rw [if_pos hfree]
    exact ⟨s, rfl, .free hfree⟩
  · rw [if_neg hfree]
    cases herror : (s.pollFds id).revents.pollerr with
    | true => exact ⟨_, rfl, .error⟩
    | false =>
        cases hin : (s.pollFds id).revents.pollin with
        | false => exact ⟨_, rfl, .silent hfree⟩
        | true =>
            obtain ⟨s', hs', heffect⟩ := exists_handleClientInput h id input accepted
            refine ⟨s'.finished id sent, ?_, .input s' hfree herror hin heffect⟩
            simp only [hs', Bool.false_eq_true, if_false, if_true]
            rfl

theorem TurnEffect.sound (h : Sound s) {id : ClientId} {input : Input}
    {accepted : ClientId → Bool} {sent : Bool} {s' : UiMenu}
    (he : TurnEffect s id input accepted sent s') : Sound s' := by
  cases he with
  | free => exact h
  | error => exact h.disconnectClient id
  | silent => exact h.finished id sent
  | input read connected noError readable effect => exact (effect.sound h).finished id sent

theorem fd_clearRevents (s : UiMenu) (id j : ClientId) :
    ((s.clearRevents id).pollFds j).fd = (s.pollFds j).fd := by
  by_cases hj : j = id
  · simp [clearRevents, setPollFd, hj]
  · simp [clearRevents, setPollFd, hj]

/-- An event from the queue changes no entry, no descriptor and not the current station; then
the menu may be sent to all. -/
theorem exists_handleEvent_eq (s : UiMenu) (accepted : ClientId → Bool) :
    ∃ t : UiMenu, t.clients = s.clients ∧ (∀ j, (t.pollFds j).fd = (s.pollFds j).fd) ∧
      t.stations.stations = s.stations.stations ∧
      t.stations.currentStation = s.stations.currentStation ∧
      (s.handleEvent accepted = t ∨ s.handleEvent accepted = t.sendToAll t.menuToStr accepted) := by
  have hfd := fd_clearRevents s myEvent
  unfold handleEvent
  split
  case isTrue =>
    extract_lets cleared
    split
    case h_1 => exact ⟨cleared, rfl, hfd, rfl, rfl, .inl rfl⟩
    case h_2 =>
      extract_lets popped
      split
      case h_1 => exact ⟨{ popped with returned := true }, rfl, hfd, rfl, rfl, .inl rfl⟩
      case h_5 => exact ⟨popped, rfl, hfd, rfl, rfl, .inl rfl⟩
      all_goals exact ⟨popped, rfl, hfd, rfl, rfl, .inr rfl⟩
  case isFalse => exact ⟨s, rfl, fun _ => rfl, rfl, rfl, .inl rfl⟩

theorem Sound.handleEvent (h : Sound s) (accepted : ClientId → Bool) :
    Sound (s.handleEvent accepted) := by
  obtain ⟨t, hclients, -, hstations, hcurrent, heq⟩ := exists_handleEvent_eq s accepted
  have ht : Sound t :=
    h.of_kept (fun j => .inl (congrFun hclients j)) (h.valid.congr hstations hcurrent)
  rcases heq with heq | heq
  · rw [heq]
    exact ht
  · rw [heq]
    exact ht.sendToAll _ accepted

/-- The UiMenu handles every event. -/
theorem exists_handle (h : Sound s) (event : UiEvent) :
    ∃ s', s.handle event = .ok s' ∧ Sound s' := by
  cases event with
  | poll ready => exact ⟨_, rfl, h.congr rfl rfl⟩
  | event accepted => exact ⟨_, rfl, h.handleEvent accepted⟩
  | server clientFd configured greeted =>
      refine ⟨_, rfl, ?_⟩
      unfold handleServer
      split
      · have hcleared : Sound (s.clearRevents server) := h.congr rfl rfl
        exact hcleared.acceptNewClient clientFd configured greeted
      · exact h
  | client id input accepted sent =>
      simp only [handle]
      split
      · obtain ⟨s', hs', heffect⟩ := exists_handleClient h id input accepted sent
        exact ⟨s', hs', heffect.sound h⟩
      · exact ⟨s, rfl, h⟩

/-- The step of another worker can end the program. -/
def EndsProgram (getaddrinfo : List Char → Option Nat) : Action → Prop
  | .handle _ => False
  | .other action => Stations.Unresolved getaddrinfo action

theorem exists_otherStep (h : Sound s) (getaddrinfo : List Char → Option Nat)
    (prioStationName : Option (List Char)) (action : Stations.Action) :
    (∃ s', step getaddrinfo prioStationName s (.other action) = .ok s' ∧
        s'.clients = s.clients ∧ s'.pollFds = s.pollFds ∧ Sound s') ∨
      (step getaddrinfo prioStationName s (.other action) = .error .fatal ∧
        Stations.Unresolved getaddrinfo action) := by
  by_cases hmove : action = .cmdMoveUp ∨ action = .cmdMoveDown
  · left
    rcases hmove with rfl | rfl
    · exact ⟨s, rfl, rfl, rfl, h⟩
    · exact ⟨s, rfl, rfl, rfl, h⟩
  · have hstep : step getaddrinfo prioStationName s (.other action) = (do
        let stations ← s.stations.step getaddrinfo prioStationName action
        return { s with stations }) := by
      cases action with
      | cmdMoveUp => exact absurd (.inl rfl) hmove
      | cmdMoveDown => exact absurd (.inr rfl) hmove
      | _ => rfl
    rw [hstep]
    rcases Stations.exists_step h.valid getaddrinfo prioStationName action with
      ⟨stations, hs, hvalid⟩ | ⟨hs, hunresolved⟩
    · left
      refine ⟨{ s with stations }, ?_, rfl, rfl, h.ready, hvalid⟩
      rw [hs]
      rfl
    · right
      rw [hs]
      exact ⟨rfl, hunresolved⟩

/-- Every step keeps the state sound, unless another worker ends the program. -/
theorem exists_step (h : Sound s) (getaddrinfo : List Char → Option Nat)
    (prioStationName : Option (List Char)) (a : Action) :
    (∃ s', step getaddrinfo prioStationName s a = .ok s' ∧ Sound s') ∨
      (step getaddrinfo prioStationName s a = .error .fatal ∧ EndsProgram getaddrinfo a) := by
  cases a with
  | handle event =>
      left
      simp only [step]
      split
      · exact ⟨s, rfl, h⟩
      · exact exists_handle h event
  | other action =>
      apply (exists_otherStep h getaddrinfo prioStationName action).imp_left
      rintro ⟨s', hs, -, -, hsound⟩
      exact ⟨s', hs, hsound⟩

theorem sound_step (h : Sound s) {getaddrinfo : List Char → Option Nat}
    {prioStationName : Option (List Char)} {a : Action} {s' : UiMenu}
    (hs : step getaddrinfo prioStationName s a = .ok s') : Sound s' := by
  rcases exists_step h getaddrinfo prioStationName a with ⟨s'', hs'', hsound⟩ | ⟨hfatal, -⟩
  · obtain rfl := Except.ok.inj (hs.symm.trans hs'')
    exact hsound
  · rw [hs] at hfatal
    cases hfatal

end UiMenu

end SikRadio.Receiver
