import SikRadio.Receiver.CommandInput

/-!
# The two tables of clients

A slot is free in `_poll_fds` exactly when `_clients` has no entry for it, and
otherwise both hold the same descriptor. Every event keeps this, except for a
command whose menu cannot be written to the client that gave it: the write
disconnects the client, and `reset_client_input` then makes an entry without a
connection for the free slot.
-/

namespace SikRadio.Receiver.UiMenu

open SikRadio.Common Foundations.CheckedRuns

/-- The connection of a slot, by its descriptor. -/
def connection (fd : Int) : Option Int := if fd = -1 then none else some fd

/-- The entry of a slot has the slot's connection. -/
def SlotConsistent (s : UiMenu) (id : ClientId) : Prop :=
  (s.clients id).map TcpClient.socket = connection (s.pollFds id).fd

/-- The two tables agree, and a connection that gets a free slot is stored in both. -/
structure TableConsistent (s : UiMenu) : Prop where
  entry_iff : ∀ id, minClientId ≤ id → id < totalPollfds →
    (s.clients id ≠ none ↔ (s.pollFds id).fd ≠ -1)
  socket_eq : ∀ id client, minClientId ≤ id → id < totalPollfds → s.clients id = some client →
    client.socket = (s.pollFds id).fd
  takes : ∀ clientFd s' id, s.registerClient clientFd = some (s', id) →
    s'.clients id = some (.ofSocket clientFd) ∧ (s'.pollFds id).fd = clientFd

variable {s s' : UiMenu} {id : ClientId}

/-! ## Slots -/

theorem SlotConsistent.congr (h : SlotConsistent s id)
    (hsocket : (s'.clients id).map TcpClient.socket = (s.clients id).map TcpClient.socket)
    (hfd : (s'.pollFds id).fd = (s.pollFds id).fd) : SlotConsistent s' id := by
  unfold SlotConsistent
  rw [hsocket, hfd]
  exact h

/-- A slot that is free in both tables. -/
theorem SlotConsistent.of_free (hclient : s.clients id = none) (hfd : (s.pollFds id).fd = -1) :
    SlotConsistent s id := by
  simp [SlotConsistent, connection, hclient, hfd]

/-- A connected slot has an entry. -/
theorem SlotConsistent.exists_client (h : SlotConsistent s id) (hfd : (s.pollFds id).fd ≠ -1) :
    ∃ client, s.clients id = some client ∧ client.socket = (s.pollFds id).fd := by
  unfold SlotConsistent connection at h
  rw [if_neg hfd] at h
  exact Option.map_eq_some_iff.mp h

theorem SlotConsistent.socket_client (h : SlotConsistent s id) (hfd : (s.pollFds id).fd ≠ -1) :
    (s.client id).socket = (s.pollFds id).fd := by
  obtain ⟨client, hclient, hsocket⟩ := h.exists_client hfd
  simp [UiMenu.client, hclient, hsocket]

theorem SlotConsistent.clients_eq_none (h : SlotConsistent s id) (hfd : (s.pollFds id).fd = -1) :
    s.clients id = none := by
  unfold SlotConsistent connection at h
  rw [if_pos hfd] at h
  exact Option.map_eq_none_iff.mp h

/-- What a slot holds in the two tables. -/
def slot (s : UiMenu) (id : ClientId) : Option TcpClient × PollFd := (s.clients id, s.pollFds id)

/-- A slot without a client. -/
def freeSlot : Option TcpClient × PollFd := (none, ⟨-1, .none⟩)

theorem SlotConsistent.of_slot_eq (h : SlotConsistent s id) (hslot : s'.slot id = s.slot id) :
    SlotConsistent s' id := by
  obtain ⟨hclient, hfd⟩ := Prod.mk.inj hslot
  exact h.congr (congrArg _ hclient) (congrArg _ hfd)

theorem SlotConsistent.of_slot_eq_free (hslot : s'.slot id = freeSlot) : SlotConsistent s' id := by
  obtain ⟨hclient, hfd⟩ := Prod.mk.inj hslot
  exact .of_free hclient (congrArg _ hfd)

theorem slot_disconnectClient (s : UiMenu) (id j : ClientId) :
    (s.disconnectClient id).slot j = if j = id then freeSlot else s.slot j := by
  by_cases hj : j = id
  · simp [slot, disconnectClient, freeSlot, hj]
  · simp [slot, disconnectClient, hj]

theorem slot_setClient (s : UiMenu) (id : ClientId) (client : TcpClient) (j : ClientId) :
    (s.setClient id client).slot j =
      if j = id then (some client, s.pollFds id) else s.slot j := by
  by_cases hj : j = id
  · simp [slot, setClient, hj]
  · simp [slot, setClient, hj]

/-! ## Messages -/

/-- A message to a connected client leaves the tables alone, or frees its slot when it cannot
be written. -/
theorem slot_sendMsg (h : SlotConsistent s id) (hfd : (s.pollFds id).fd ≠ -1) (msg : List Char)
    (accepted : Bool) (j : ClientId) :
    (s.sendMsg id msg accepted).slot j =
      if j = id ∧ accepted = false then freeSlot else s.slot j := by
  have hsocket : (s.client id).socket ≠ -1 := h.socket_client hfd ▸ hfd
  cases accepted with
  | true =>
      have hwrites : s.writes id true = true := by simp [writes, hsocket]
      rw [if_neg (by simp), sendMsg, if_pos hwrites]
      simp only [slot, wrote, access_of_writes hwrites]
  | false =>
      have hwrites : ¬s.writes id false = true := by simp [writes]
      rw [sendMsg, if_neg hwrites, access, disconnectClient_setClient, slot_disconnectClient]
      simp

/-- The menu cannot be written to the connected client. -/
def Loses (s : UiMenu) (accepted : ClientId → Bool) (id : ClientId) : Prop :=
  (s.pollFds id).fd ≠ -1 ∧ accepted id = false

instance (s : UiMenu) (accepted : ClientId → Bool) (id : ClientId) :
    Decidable (s.Loses accepted id) :=
  inferInstanceAs (Decidable (_ ∧ _))

theorem slot_sendTo (h : SlotConsistent s id) (msg : List Char) (accepted : ClientId → Bool)
    (j : ClientId) :
    (s.sendTo id msg accepted).slot j =
      if j = id ∧ s.Loses accepted j then freeSlot else s.slot j := by
  unfold sendTo Loses
  split
  case isTrue hfd =>
    rw [slot_sendMsg h hfd]
    refine if_congr (and_congr_right ?_) rfl rfl
    rintro rfl
    simp [hfd]
  case isFalse hfd =>
    rw [if_neg]
    rintro ⟨rfl, hconnected, -⟩
    exact hfd hconnected

theorem loses_congr {j : ClientId} (hslot : s'.slot j = s.slot j) (accepted : ClientId → Bool) :
    s'.Loses accepted j ↔ s.Loses accepted j := by
  obtain ⟨-, hfd⟩ := Prod.mk.inj hslot
  rw [Loses, Loses, hfd]

theorem not_loses_of_free {j : ClientId} (hslot : s.slot j = freeSlot)
    (accepted : ClientId → Bool) : ¬s.Loses accepted j := by
  obtain ⟨-, hfd⟩ := Prod.mk.inj hslot
  rintro ⟨hconnected, -⟩
  exact hconnected (congrArg PollFd.fd hfd)

theorem SlotConsistent.sendTo (hid : SlotConsistent s id) {j : ClientId} (h : SlotConsistent s j)
    (msg : List Char) (accepted : ClientId → Bool) :
    SlotConsistent (s.sendTo id msg accepted) j := by
  have hslot := slot_sendTo hid msg accepted j
  split at hslot
  · exact .of_slot_eq_free hslot
  · exact h.of_slot_eq hslot

/-- The loop of `send_to_all` frees exactly the slots of the clients to which the menu cannot
be written. -/
theorem slot_foldl_sendTo (msg : List Char) (accepted : ClientId → Bool) (j : ClientId)
    (ids : List ClientId) (h : ∀ id ∈ ids, SlotConsistent s id) :
    (ids.foldl (fun s id => s.sendTo id msg accepted) s).slot j =
      if j ∈ ids ∧ s.Loses accepted j then freeSlot else s.slot j := by
  induction ids generalizing s with
  | nil => simp
  | cons id ids ih =>
      have hid := h id (List.mem_cons_self ..)
      have hrest (k : ClientId) (hk : k ∈ ids) : SlotConsistent (s.sendTo id msg accepted) k :=
        hid.sendTo (h k (List.mem_cons_of_mem id hk)) msg accepted
      have hfirst := slot_sendTo hid msg accepted j
      rw [List.foldl_cons, ih hrest]
      by_cases hlost : j = id ∧ s.Loses accepted j
      · rw [if_pos hlost] at hfirst
        rw [if_neg fun h => not_loses_of_free hfirst accepted h.2, hfirst,
          if_pos ⟨hlost.1 ▸ List.mem_cons_self .., hlost.2⟩]
      · rw [if_neg hlost] at hfirst
        rw [hfirst]
        refine if_congr ?_ rfl rfl
        rw [loses_congr hfirst, List.mem_cons]
        constructor
        · rintro ⟨hmem, hloses⟩
          exact ⟨.inr hmem, hloses⟩
        · rintro ⟨heq | hmem, hloses⟩
          · exact absurd ⟨heq, hloses⟩ hlost
          · exact ⟨hmem, hloses⟩

/-- All slots are consistent. -/
def Consistent (s : UiMenu) : Prop :=
  ∀ id, minClientId ≤ id → id < totalPollfds → SlotConsistent s id

theorem slot_sendToAll (h : Consistent s) (msg : List Char) (accepted : ClientId → Bool)
    (j : ClientId) :
    (s.sendToAll msg accepted).slot j =
      if (minClientId ≤ j ∧ j < maxClients) ∧ s.Loses accepted j then freeSlot else s.slot j := by
  have hmem (id : ClientId) : id ∈ List.range' minClientId (maxClients - minClientId) ↔
      minClientId ≤ id ∧ id < maxClients := by
    rw [List.mem_range'_1]
    rfl
  have hids (id : ClientId) (hid : id ∈ List.range' minClientId (maxClients - minClientId)) :
      SlotConsistent s id := by
    obtain ⟨hmin, hmax⟩ := (hmem id).mp hid
    exact h id hmin (hmax.trans (by decide))
  unfold sendToAll
  rw [slot_foldl_sendTo msg accepted j _ hids]
  exact if_congr (and_congr_left fun _ => hmem j) rfl rfl

/-! ## Events -/

/-- Slots that become free, while the others stay, keep the table consistent. -/
theorem Consistent.of_freed (h : Consistent s) {freed : ClientId → Prop} [DecidablePred freed]
    (hslots : ∀ j, s'.slot j = if freed j then freeSlot else s.slot j) : Consistent s' := by
  intro id hmin hmax
  have hslot := hslots id
  split at hslot
  · exact .of_slot_eq_free hslot
  · exact (h id hmin hmax).of_slot_eq hslot

/-- So do changes that no slot sees. -/
theorem Consistent.congr (h : Consistent s)
    (hsocket : ∀ j, (s'.clients j).map TcpClient.socket = (s.clients j).map TcpClient.socket)
    (hfd : ∀ j, (s'.pollFds j).fd = (s.pollFds j).fd) : Consistent s' :=
  fun id hmin hmax => (h id hmin hmax).congr (hsocket id) (hfd id)

theorem Consistent.disconnectClient (h : Consistent s) (id : ClientId) :
    Consistent (s.disconnectClient id) :=
  h.of_freed (slot_disconnectClient s id)

theorem Consistent.clearRevents (h : Consistent s) (id : ClientId) :
    Consistent (s.clearRevents id) :=
  h.congr (fun _ => rfl) (fd_clearRevents s id)

theorem Consistent.sendMsg (h : Consistent s) (hid : SlotConsistent s id)
    (hfd : (s.pollFds id).fd ≠ -1) (msg : List Char) (accepted : Bool) :
    Consistent (s.sendMsg id msg accepted) :=
  h.of_freed (slot_sendMsg hid hfd msg accepted)

theorem Consistent.sendToAll (h : Consistent s) (msg : List Char) (accepted : ClientId → Bool) :
    Consistent (s.sendToAll msg accepted) :=
  h.of_freed (slot_sendToAll h msg accepted)

/-! ## Connections -/

/-- A slot that `register_client` finds is free, and no other slot changes. -/
theorem exists_registerClient (h : Consistent s) {clientFd : Int}
    (hs : s.registerClient clientFd = some (s', id)) :
    minClientId ≤ id ∧ id < totalPollfds ∧
      s' = (s.setPollFd id ⟨clientFd, .none⟩).setClient id (.ofSocket clientFd) := by
  unfold registerClient at hs
  split at hs
  case h_1 i hfind =>
    obtain ⟨rfl, rfl⟩ := Prod.mk.inj (Option.some.inj hs)
    have hmem := List.mem_of_find?_eq_some hfind
    have hfree : (s.pollFds i).fd = -1 := by simpa using List.find?_some hfind
    rw [List.mem_range'_1] at hmem
    have hmax : i < totalPollfds := hmem.2
    have hnone : (s.setPollFd i ⟨clientFd, .none⟩).clients i = none :=
      (h i hmem.1 hmax).clients_eq_none hfree
    refine ⟨hmem.1, hmax, ?_⟩
    rw [emplace, hnone]
  case h_2 => cases hs

theorem slot_registered (s : UiMenu) (id : ClientId) (clientFd : Int) (j : ClientId) :
    ((s.setPollFd id ⟨clientFd, .none⟩).setClient id (.ofSocket clientFd)).slot j =
      if j = id then (some (.ofSocket clientFd), ⟨clientFd, .none⟩) else s.slot j := by
  rw [slot_setClient]
  by_cases hj : j = id
  · simp [setPollFd, hj]
  · simp [setPollFd, slot, hj]

theorem Consistent.registerClient (h : Consistent s) {clientFd : Int} (hfd : clientFd ≠ -1)
    (hs : s.registerClient clientFd = some (s', id)) :
    Consistent s' ∧ SlotConsistent s' id ∧ (s'.pollFds id).fd ≠ -1 := by
  obtain ⟨hmin, hmax, rfl⟩ := exists_registerClient h hs
  have hslot := slot_registered s id clientFd
  have hid : ((s.setPollFd id ⟨clientFd, .none⟩).setClient id (.ofSocket clientFd)).SlotConsistent
      id := by
    simp [SlotConsistent, setClient, setPollFd, TcpClient.ofSocket, connection, hfd]
  refine ⟨fun j hjmin hjmax => ?_, hid, ?_⟩
  · by_cases hj : j = id
    · exact hj ▸ hid
    · exact (h j hjmin hjmax).of_slot_eq ((hslot j).trans (if_neg hj))
  · simpa [setClient, setPollFd] using hfd

theorem Consistent.acceptNewClient (h : Consistent s) (clientFd : Int)
    (configured greeted : Bool) : Consistent (s.acceptNewClient clientFd configured greeted) := by
  unfold UiMenu.acceptNewClient
  split
  case isTrue => exact h
  case isFalse hfd =>
    split
    · exact h
    · next registered id hregister =>
      obtain ⟨hregistered, hid, hconnected⟩ := h.registerClient hfd hregister
      split
      case isTrue hwrites =>
        have hslot (j : ClientId) : (registered.wrote id config).slot j = registered.slot j := by
          simp only [slot, wrote, access_of_writes hwrites]
        have hwrote : Consistent (registered.wrote id config) :=
          fun j hmin hmax => (hregistered j hmin hmax).of_slot_eq (hslot j)
        apply hwrote.sendMsg (hid.of_slot_eq (hslot id))
        exact hconnected
      case isFalse =>
        rw [access, disconnectClient_setClient]
        exact hregistered.disconnectClient id

theorem Consistent.tableConsistent (h : Consistent s) : TableConsistent s where
  entry_iff := by
    intro id hmin hmax
    constructor
    · intro hclient hfd
      exact hclient ((h id hmin hmax).clients_eq_none hfd)
    · intro hfd
      obtain ⟨client, hclient, -⟩ := (h id hmin hmax).exists_client hfd
      simp [hclient]
  socket_eq := by
    intro id client hmin hmax hclient
    have hfd : (s.pollFds id).fd ≠ -1 := by
      intro hfd
      simp [(h id hmin hmax).clients_eq_none hfd] at hclient
    obtain ⟨client', hclient', hsocket⟩ := (h id hmin hmax).exists_client hfd
    obtain rfl : client = client' := Option.some.inj (hclient.symm.trans hclient')
    exact hsocket
  takes := by
    intro clientFd s' id hs
    obtain ⟨-, -, rfl⟩ := exists_registerClient h hs
    simp [setClient, setPollFd]

/-! ## Turns -/

/-- A change of a connected client that keeps its socket. -/
theorem Consistent.setClient (h : Consistent s) (hid : minClientId ≤ id ∧ id < totalPollfds)
    (hfd : (s.pollFds id).fd ≠ -1) {client : TcpClient}
    (hsocket : client.socket = (s.client id).socket) : Consistent (s.setClient id client) := by
  obtain ⟨old, hold, -⟩ := (h id hid.1 hid.2).exists_client hfd
  refine h.congr (fun j => ?_) fun j => rfl
  by_cases hj : j = id
  · subst hj
    simp [UiMenu.setClient, hsocket, UiMenu.client, hold]
  · simp [UiMenu.setClient, hj]

/-- An input keeps the table consistent when the client that completes a command can be
written to; a client that may be sent a menu afterwards is still connected. -/
theorem InputEffect.consistent (h : Consistent s) (hid : minClientId ≤ id ∧ id < totalPollfds)
    (hfd : (s.pollFds id).fd ≠ -1) {input : Input} {accepted : ClientId → Bool}
    (hanswered : s.CompletesCommand id input → id < maxClients → accepted id = true)
    (he : InputEffect s id input accepted s') :
    Consistent s' ∧ ((s'.pollFds id).revents.pollout = true → (s'.pollFds id).fd ≠ -1) := by
  cases he with
  | dropped =>
      refine ⟨h.disconnectClient id, fun hout => ?_⟩
      simp [UiMenu.disconnectClient, Revents.none] at hout
  | kept client socket ready => exact ⟨h.setClient hid hfd socket, fun _ => hfd⟩
  | applied client command stations complete socket valid =>
      have hset : Consistent { (s.setClient id client).logged id command with stations } :=
        (h.setClient hid hfd socket).congr (fun _ => rfl) fun j => rfl
      have hkept := slot_sendToAll hset stations.menuToStr accepted id
      rw [if_neg] at hkept
      · have hfd' : ((UiMenu.sendToAll { (s.setClient id client).logged id command with stations }
            stations.menuToStr accepted).pollFds id).fd ≠ -1 := by
          rw [(Prod.mk.inj hkept).2]
          exact hfd
        exact ⟨(hset.sendToAll _ accepted).setClient hid hfd' rfl, fun _ => hfd'⟩
      · rintro ⟨⟨-, hmax⟩, -, hrefused⟩
        rw [hanswered complete hmax] at hrefused
        cases hrefused

theorem Consistent.finished (h : Consistent s) (hid : minClientId ≤ id ∧ id < totalPollfds)
    (hconnected : (s.pollFds id).revents.pollout = true → (s.pollFds id).fd ≠ -1) (sent : Bool) :
    Consistent (s.finished id sent) := by
  unfold UiMenu.finished
  apply Consistent.clearRevents
  split
  case isTrue hout => exact h.sendMsg (h id hid.1 hid.2) (hconnected hout) _ sent
  case isFalse => exact h

/-- A command that a client completes is answered: the menu can be written to it. -/
def Answered (s : UiMenu) : Action → Prop
  | .handle (.client id input accepted _) =>
      (s.pollFds id).fd ≠ -1 → (s.pollFds id).revents.pollerr = false →
        (s.pollFds id).revents.pollin = true → s.CompletesCommand id input → id < maxClients →
          accepted id = true
  | _ => True

instance (s : UiMenu) (action : Action) : Decidable (s.Answered action) :=
  match action with
  | .handle (.client _ _ _ _) => inferInstanceAs (Decidable (_ → _))
  | .handle (.poll _) => isTrue trivial
  | .handle (.event _) => isTrue trivial
  | .handle (.server _ _ _) => isTrue trivial
  | .other _ => isTrue trivial

theorem TurnEffect.consistent (h : Consistent s) (hid : minClientId ≤ id ∧ id < totalPollfds)
    {input : Input} {accepted : ClientId → Bool} {sent : Bool}
    (hanswered : s.Answered (.handle (.client id input accepted sent)))
    (he : TurnEffect s id input accepted sent s') : Consistent s' := by
  cases he with
  | free => exact h
  | error => exact h.disconnectClient id
  | silent connected => exact h.finished hid (fun _ => connected) sent
  | input read connected noError readable effect =>
      obtain ⟨hread, hout⟩ :=
        effect.consistent h hid connected (hanswered connected noError readable)
      exact hread.finished hid hout sent

/-! ## Runs -/

theorem Consistent.poll (h : Consistent s) (ready : ClientId → Revents) :
    Consistent (s.poll ready) := by
  refine h.congr (fun _ => rfl) fun j => ?_
  simp only [UiMenu.poll]
  split
  · rfl
  · split <;> rfl

theorem Consistent.handleEvent (h : Consistent s) (accepted : ClientId → Bool) :
    Consistent (s.handleEvent accepted) := by
  obtain ⟨t, hclients, hfd, -, -, heq⟩ := exists_handleEvent_eq s accepted
  have ht : Consistent t := h.congr (fun j => by rw [hclients]) hfd
  rcases heq with heq | heq
  · rw [heq]
    exact ht
  · rw [heq]
    exact ht.sendToAll _ accepted

/-- Every event keeps the table consistent when the commands it completes are answered. -/
theorem consistent_handle (hsound : Sound s) (h : Consistent s) {event : UiEvent}
    (hanswered : s.Answered (.handle event)) (hs : s.handle event = .ok s') : Consistent s' := by
  cases event with
  | poll ready =>
      obtain rfl := Except.ok.inj hs
      exact h.poll ready
  | event accepted =>
      obtain rfl := Except.ok.inj hs
      exact h.handleEvent accepted
  | server clientFd configured greeted =>
      obtain rfl := Except.ok.inj hs
      unfold handleServer
      split
      · exact (h.clearRevents server).acceptNewClient clientFd configured greeted
      · exact h
  | client id input accepted sent =>
      simp only [handle] at hs
      split at hs
      case isTrue hid =>
        obtain ⟨s'', hs'', heffect⟩ := exists_handleClient hsound id input accepted sent
        obtain rfl := Except.ok.inj (hs.symm.trans hs'')
        exact heffect.consistent h hid hanswered
      case isFalse =>
        obtain rfl := Except.ok.inj hs
        exact h

theorem sound_init (eventFd serverFd : Int) : Sound (init eventFd serverFd) :=
  ⟨fun id client hclient => by simp [init] at hclient, Stations.currentValid_init⟩

theorem consistent_init (eventFd serverFd : Int) : Consistent (init eventFd serverFd) := by
  intro id hmin hmax
  apply SlotConsistent.of_free rfl
  have hevent : id ≠ myEvent := fun h => absurd (h ▸ hmin) (by decide)
  have hserver : id ≠ server := fun h => absurd (h ▸ hmin) (by decide)
  simp [init, hevent, hserver]

/-- In every run whose completed commands are answered the two tables agree after every event,
unless the program ends in a step of another worker. -/
theorem client_tables_agree (getaddrinfo : List Char → Option Nat)
    (prioStationName : Option (List Char)) (eventFd serverFd : Int) {actions : List Action}
    (hanswered : Guarded (step getaddrinfo prioStationName) Answered (init eventFd serverFd)
      actions) :
    (∃ s, run getaddrinfo prioStationName (init eventFd serverFd) actions = .ok s ∧
        TableConsistent s) ∨
      (run getaddrinfo prioStationName (init eventFd serverFd) actions = .error .fatal ∧
        ∃ a ∈ actions, EndsProgram getaddrinfo a) := by
  have hstep (s : UiMenu) (a : Action) (hs : Sound s ∧ Consistent s) (hanswered : s.Answered a) :
      (∃ s', step getaddrinfo prioStationName s a = .ok s' ∧ Sound s' ∧ Consistent s') ∨
        (step getaddrinfo prioStationName s a = .error .fatal ∧ EndsProgram getaddrinfo a) := by
    obtain ⟨hsound, hconsistent⟩ := hs
    cases a with
    | handle event =>
        left
        simp only [step]
        split
        · exact ⟨s, rfl, hsound, hconsistent⟩
        · obtain ⟨s', hs', hsound'⟩ := exists_handle hsound event
          exact ⟨s', hs', hsound', consistent_handle hsound hconsistent hanswered hs'⟩
    | other action =>
        apply (exists_otherStep hsound getaddrinfo prioStationName action).imp_left
        rintro ⟨s', hs', hclients, hpollFds, hsound'⟩
        refine ⟨s', hs', hsound', fun j hmin hmax => (hconsistent j hmin hmax).of_slot_eq ?_⟩
        rw [slot, slot, hclients, hpollFds]
  have hinit : Sound (init eventFd serverFd) ∧ Consistent (init eventFd serverFd) :=
    ⟨sound_init eventFd serverFd, consistent_init eventFd serverFd⟩
  apply (ok_or_of_guarded hstep hinit hanswered).imp_left
  rintro ⟨s, hrun, -, hconsistent⟩
  exact ⟨s, hrun, hconsistent.tableConsistent⟩

section Example

/-- A round in which client 2 sends a byte or, for slot 1, a client connects. -/
def telnetRound (readable : ClientId) (c : Char) (accepted : Bool) : List Action :=
  loopRound (fun i => ⟨i == readable, false, false⟩) (fun _ => true) 5 true true
    (fun _ => .byte c) (fun _ _ => accepted) fun _ => true

/-- A client connects and presses an arrow key. -/
def arrowUp (accepted : Bool) : List Action :=
  telnetRound server 'x' true ++ telnetRound 2 Stations.esc true ++ telnetRound 2 '[' true ++
    telnetRound 2 'A' accepted

/-- The client is still there to be shown the menu. -/
theorem client_tables_agree_arrowUp :
    ∃ s, run (fun _ => none) none (init 3 4) (arrowUp true) = .ok s ∧ TableConsistent s := by
  apply (client_tables_agree (fun _ => none) none 3 4 (by decide +kernel)).resolve_right
  rintro ⟨hrun, -⟩
  have hok : (run (fun _ => none) none (init 3 4) (arrowUp true)).isOk = true := by
    decide +kernel
  rw [hrun] at hok
  cases hok

/-- The menu cannot be written to the client, which leaves an entry in a free slot. -/
theorem entry_without_connection :
    ∃ s, run (fun _ => none) none (init 3 4) (arrowUp false) = .ok s ∧ ¬TableConsistent s := by
  refine exists_ok_and (by decide +kernel) fun s hrun => ?_
  have hslot : ((s.clients 2).isSome, (s.pollFds 2).fd) = (true, -1) :=
    eq_of_toOption_map (fun s => ((s.clients 2).isSome, (s.pollFds 2).fd)) (by decide +kernel) hrun
  obtain ⟨hentry, hfd⟩ := Prod.mk.inj hslot
  intro h
  exact (h.entry_iff 2 (by decide) (by decide)).mp (Option.isSome_iff_ne_none.mp hentry) hfd

end Example

end SikRadio.Receiver.UiMenu
