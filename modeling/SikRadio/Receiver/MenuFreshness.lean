import SikRadio.Receiver.Broadcast
import SikRadio.Receiver.MenuChanges

/-!
# The clients see the current menu

The menu is sent when it changes, and a client that a message does not reach is
disconnected. So unless an event waits for the UiMenu, what was written last to
a client is the menu as it is now, for the slots that `send_to_all` visits. Every
step of the UiMenu and every section of another worker keeps this.

## Implementation notes

`accept` returns a descriptor that no client has. `remove_inactive` is one step
here, as under its two locks.
-/

namespace SikRadio.Receiver

open SikRadio.Common Foundations.CheckedRuns

namespace UiMenu

/-! ## What a client sees -/

/-- What was written last to a descriptor. -/
def lastWritten (s : UiMenu) (fd : Int) : Option (List Char) :=
  (s.written.reverse.find? fun w => w.1 = fd).map Prod.snd

/-- A connected client sees the message. -/
def Shows (s : UiMenu) (msg : List Char) (id : ClientId) : Prop :=
  (s.pollFds id).fd ≠ -1 → s.lastWritten (s.pollFds id).fd = some (clear ++ msg)

/-- An event waits for the UiMenu, or every client sees the menu as it is. -/
def MenusCurrent (s : UiMenu) : Prop :=
  s.stations.uiMenuEvent ≠ [] ∨
    ∀ id, minClientId ≤ id → id < maxClients → s.Shows s.menuToStr id

/-- A connection that is accepted has a descriptor that no client has. -/
def FreshDescriptor (s : UiMenu) : Action → Prop
  | .handle (.server clientFd _ _) =>
      (s.pollFds server).revents.pollin = true → clientFd ≠ -1 →
        ∀ id ∈ clientSlots, (s.pollFds id).fd ≠ clientFd
  | _ => True

instance (s : UiMenu) (action : Action) : Decidable (s.FreshDescriptor action) :=
  match action with
  | .handle (.server _ _ _) => inferInstanceAs (Decidable (_ → _))
  | .handle (.poll _) => isTrue trivial
  | .handle (.event _) => isTrue trivial
  | .handle (.client _ _ _ _) => isTrue trivial
  | .other _ => isTrue trivial

/-- The entry of a slot has the slot's descriptor, or none when the slot is free. An entry
without a connection in a free slot is possible. -/
def Linked (s : UiMenu) : Prop :=
  ∀ id, minClientId ≤ id → (s.client id).socket = (s.pollFds id).fd

/-- The table stays linked, and who sees the message goes on seeing it. -/
structure Kept (msg : List Char) (s s' : UiMenu) : Prop where
  linked : s'.Linked
  shows : ∀ id, minClientId ≤ id → s.Shows msg id → s'.Shows msg id

variable {s s' : UiMenu} {id : ClientId} {msg : List Char}

theorem Kept.trans {s'' : UiMenu} (h : Kept msg s s') (h' : Kept msg s' s'') : Kept msg s s'' :=
  ⟨h'.linked, fun id hid hshows => h'.shows id hid (h.shows id hid hshows)⟩

theorem Shows.congr (h : s.Shows msg id) (hfd : (s'.pollFds id).fd = (s.pollFds id).fd)
    (hwritten : s'.written = s.written) : s'.Shows msg id := by
  unfold Shows lastWritten
  rw [hfd, hwritten]
  exact h

/-- Nobody sees anything at a free slot. -/
theorem Shows.of_free (hfree : (s.pollFds id).fd = -1) : s.Shows msg id :=
  fun hfd => absurd hfree hfd

theorem Linked.kept_of_eq (h : Linked s)
    (hsocket : ∀ j, (s'.client j).socket = (s.client j).socket)
    (hfd : ∀ j, (s'.pollFds j).fd = (s.pollFds j).fd) (hwritten : s'.written = s.written) :
    Kept msg s s' where
  linked := by
    intro j hj
    rw [hsocket, hfd]
    exact h j hj
  shows := fun j _ hshows => hshows.congr (hfd j) hwritten

theorem Linked.kept_setClient (h : Linked s) {client : TcpClient}
    (hsocket : client.socket = (s.client id).socket) : Kept msg s (s.setClient id client) := by
  refine h.kept_of_eq (fun j => ?_) (fun _ => rfl) rfl
  by_cases hj : j = id
  · rw [hj, client_setClient, hsocket]
  · simp [UiMenu.client, setClient, hj]

theorem Linked.kept_resetClientInput (h : Linked s) (msg : List Char) (id : ClientId) :
    Kept msg s (s.resetClientInput id) :=
  h.kept_setClient rfl

theorem Linked.kept_disconnectClient (h : Linked s) (id : ClientId) :
    Kept msg s (s.disconnectClient id) where
  linked := by
    intro j hj
    by_cases hid : j = id
    · simp [hid, UiMenu.client, disconnectClient, TcpClient.ofSocket]
    · simpa [hid, UiMenu.client, disconnectClient] using h j hj
  shows := by
    intro j hj hshows
    by_cases hid : j = id
    · exact .of_free (by simp [hid, disconnectClient])
    · exact hshows.congr (by simp [hid, disconnectClient]) rfl

/-! ## Messages -/

/-- A write is the last to its descriptor and to no other. -/
theorem lastWritten_wrote (s : UiMenu) (id : ClientId) (msg : List Char) (fd : Int) :
    (s.wrote id msg).lastWritten fd =
      if (s.client id).socket = fd then some msg else s.lastWritten fd := by
  unfold lastWritten wrote
  rw [List.reverse_append, List.reverse_singleton, List.singleton_append, List.find?_cons]
  split
  case h_1 hfd => rw [if_pos (of_decide_eq_true hfd), Option.map_some]
  case h_2 hfd => rw [if_neg (of_decide_eq_false hfd)]

theorem Linked.wrote (h : Linked s) (id : ClientId) (msg : List Char) :
    Linked (s.wrote id msg) := by
  have hkept : Kept msg s (s.access id) := h.kept_setClient rfl
  exact hkept.linked

theorem Linked.kept_wrote (h : Linked s) (id : ClientId) (msg : List Char) :
    Kept msg s (s.wrote id (clear ++ msg)) where
  linked := h.wrote id (clear ++ msg)
  shows := by
    intro j hj hshows hfd
    rw [lastWritten_wrote]
    split
    · rfl
    · exact hshows hfd

theorem Linked.kept_sendMsg (h : Linked s) (id : ClientId) (msg : List Char) (accepted : Bool) :
    Kept msg s (s.sendMsg id msg accepted) := by
  unfold sendMsg
  split
  · exact h.kept_wrote id msg
  · rw [access, disconnectClient_setClient]
    exact h.kept_disconnectClient id

/-- The client sees the message or is disconnected. -/
theorem Linked.shows_sendMsg (h : Linked s) (hid : minClientId ≤ id) (msg : List Char)
    (accepted : Bool) : (s.sendMsg id msg accepted).Shows msg id := by
  unfold sendMsg
  split
  · intro hfd
    rw [lastWritten_wrote, if_pos]
    exact h id hid
  · exact .of_free (by simp [disconnectClient])

theorem Linked.kept_sendTo (h : Linked s) (id : ClientId) (msg : List Char)
    (accepted : ClientId → Bool) : Kept msg s (s.sendTo id msg accepted) := by
  unfold sendTo
  split
  · exact h.kept_sendMsg id msg (accepted id)
  · exact ⟨h, fun j _ hshows => hshows⟩

theorem Linked.shows_sendTo (h : Linked s) (hid : minClientId ≤ id) (msg : List Char)
    (accepted : ClientId → Bool) : (s.sendTo id msg accepted).Shows msg id := by
  unfold sendTo
  split
  case isTrue => exact h.shows_sendMsg hid msg (accepted id)
  case isFalse hfd => exact .of_free (not_not.mp hfd)

/-- The loop of `send_to_all` keeps what it has reached. -/
theorem Linked.kept_foldl_sendTo (h : Linked s) (msg : List Char) (accepted : ClientId → Bool)
    {ids : List ClientId} (hids : ∀ id ∈ ids, minClientId ≤ id) :
    Kept msg s (ids.foldl (fun s id => s.sendTo id msg accepted) s) ∧
      ∀ id ∈ ids, (ids.foldl (fun s id => s.sendTo id msg accepted) s).Shows msg id := by
  induction ids generalizing s with
  | nil => exact ⟨⟨h, fun id _ hshows => hshows⟩, fun id hid => by cases hid⟩
  | cons id ids ih =>
      have hfirst := h.kept_sendTo id msg accepted
      have hid := hids id (List.mem_cons_self ..)
      obtain ⟨hrest, hreached⟩ :=
        ih hfirst.linked fun j hj => hids j (List.mem_cons_of_mem id hj)
      rw [List.foldl_cons]
      refine ⟨hfirst.trans hrest, fun j hj => ?_⟩
      rcases List.mem_cons.mp hj with rfl | hj
      · exact hrest.shows j hid (h.shows_sendTo hid msg accepted)
      · exact hreached j hj

theorem Linked.kept_sendToAll (h : Linked s) (msg : List Char) (accepted : ClientId → Bool) :
    Kept msg s (s.sendToAll msg accepted) ∧
      ∀ id, minClientId ≤ id → id < maxClients → (s.sendToAll msg accepted).Shows msg id := by
  have hvisited (id : ClientId) (hid : id ∈ visitedSlots) : minClientId ≤ id :=
    (List.mem_range'_1.mp hid).1
  obtain ⟨hkept, hreached⟩ := h.kept_foldl_sendTo msg accepted hvisited
  unfold sendToAll
  exact ⟨hkept, fun id hmin hmax => hreached id (List.mem_range'_1.mpr ⟨hmin, hmax⟩)⟩

/-! ## The invariant -/

/-- The invariant: the menus are current, every waiting event announces a change, and the tables
are linked. -/
structure UpToDate (s : UiMenu) : Prop where
  sound : Sound s
  linked : Linked s
  announces : ∀ event ∈ s.stations.uiMenuEvent, Stations.Announces event
  current : MenusCurrent s

/-- A step that changes neither the stations nor what a client sees. -/
theorem UpToDate.kept (h : UpToDate s) (hsound : Sound s') (hstations : s'.stations = s.stations)
    (hkept : Kept s.menuToStr s s') : UpToDate s' where
  sound := hsound
  linked := hkept.linked
  announces := by
    rw [hstations]
    exact h.announces
  current := by
    unfold MenusCurrent menuToStr
    rw [hstations]
    refine h.current.imp_right fun hshows id hmin hmax => ?_
    exact hkept.shows id hmin (hshows id hmin hmax)

theorem upToDate_init (eventFd serverFd : Int) : UpToDate (init eventFd serverFd) := by
  have hfree (id : ClientId) (hmin : minClientId ≤ id) :
      ((init eventFd serverFd).pollFds id).fd = -1 := by
    have hevent : id ≠ myEvent := fun h => absurd (h ▸ hmin) (by decide)
    have hserver : id ≠ server := fun h => absurd (h ▸ hmin) (by decide)
    simp [init, hevent, hserver]
  refine ⟨sound_init eventFd serverFd, fun id hmin => ?_, ?_, ?_⟩
  · rw [hfree id hmin]
    rfl
  · simp [init, Stations.init]
  · exact .inr fun id hmin _ => .of_free (hfree id hmin)

/-- A step of another worker announces what it changes. -/
theorem UpToDate.other (h : UpToDate s) {stations : Stations}
    (hannounced : Stations.Announced s.stations stations) (hvalid : stations.CurrentValid) :
    UpToDate { s with stations } := by
  refine ⟨⟨h.sound.ready, hvalid⟩, h.linked, ?_, ?_⟩
  · rcases hannounced with ⟨hqueue, -⟩ | ⟨event, hevent, hqueue⟩
    · simpa only [hqueue] using h.announces
    · intro event' hmem
      rw [hqueue] at hmem
      rcases List.mem_append.mp hmem with hmem | hmem
      · exact h.announces event' hmem
      · rw [List.mem_singleton.mp hmem]
        exact hevent
  · rcases hannounced with ⟨hqueue, hmenu⟩ | ⟨event, -, hqueue⟩
    · unfold MenusCurrent menuToStr
      rw [hqueue, hmenu]
      exact h.current
    · exact .inl (by simp [hqueue])

/-! ## The UiMenu -/

theorem UpToDate.poll (h : UpToDate s) (ready : ClientId → Revents) : UpToDate (s.poll ready) := by
  refine h.kept (h.sound.congr rfl rfl) rfl (h.linked.kept_of_eq (fun _ => rfl) (fun j => ?_) rfl)
  simp only [UiMenu.poll]
  split
  · rfl
  · split
    · rfl
    · rfl

theorem Linked.kept_clearRevents (h : Linked s) (id : ClientId) :
    Kept msg s (s.clearRevents id) :=
  h.kept_of_eq (fun _ => rfl) (fd_clearRevents s id) rfl

/-- The menu is sent to all as it is, and whatever it showed before, it is seen. -/
theorem MenusCurrent.of_sendToAll (h : Linked s) (accepted : ClientId → Bool) :
    MenusCurrent (s.sendToAll s.menuToStr accepted) := by
  right
  unfold menuToStr
  rw [stations_sendToAll]
  exact (h.kept_sendToAll _ accepted).2

/-- Every event that waits announces a change, so that taking it from the queue sends the menu. -/
theorem UpToDate.handleEvent (h : UpToDate s) (accepted : ClientId → Bool) :
    UpToDate (s.handleEvent accepted) := by
  have hsound := h.sound.handleEvent accepted
  revert hsound
  unfold UiMenu.handleEvent
  split
  case isFalse => exact fun _ => h
  case isTrue =>
    extract_lets cleared
    have hcleared : UpToDate cleared :=
      h.kept (h.sound.congr rfl rfl) rfl (h.linked.kept_clearRevents myEvent)
    split
    case h_1 => exact fun _ => hcleared
    case h_2 event rest hqueue =>
      extract_lets popped
      have hlinked : Linked popped := hcleared.linked
      have hsent (hsound : Sound (popped.sendToAll popped.menuToStr accepted)) :
          UpToDate (popped.sendToAll popped.menuToStr accepted) := by
        have hkept := (hlinked.kept_sendToAll popped.menuToStr accepted).1
        refine ⟨hsound, hkept.linked, ?_, .of_sendToAll hlinked accepted⟩
        rw [stations_sendToAll]
        intro event' hmem
        exact h.announces event' (hqueue ▸ List.mem_cons_of_mem event hmem)
      rcases h.announces event (hqueue ▸ List.mem_cons_self ..) with rfl | rfl
      · exact hsent
      · exact hsent

/-- The slot that a connection gets is free. An entry that is left there has no connection, and
`emplace` keeps it. -/
theorem Linked.exists_registered (h : Linked s) {clientFd : Int} {registered : UiMenu}
    (hs : s.registerClient clientFd = some (registered, id)) :
    id ∈ clientSlots ∧ registered.stations = s.stations ∧
      registered.disconnectClient id = s.disconnectClient id ∧
        ((registered.client id).socket = -1 ∨
          registered = (s.setPollFd id ⟨clientFd, .none⟩).setClient id (.ofSocket clientFd)) := by
  unfold registerClient at hs
  split at hs
  case h_2 => cases hs
  case h_1 i hfind =>
    obtain ⟨rfl, rfl⟩ := Prod.mk.inj (Option.some.inj hs)
    have hmem := List.mem_of_find?_eq_some hfind
    have hfree : (s.pollFds i).fd = -1 := by simpa using List.find?_some hfind
    have hsocket : (s.client i).socket = -1 := (h i (mem_clientSlots_iff.mp hmem).1).trans hfree
    refine ⟨hmem, ?_⟩
    unfold emplace
    split
    case h_1 =>
      refine ⟨rfl, ?_, .inr rfl⟩
      simp [disconnectClient, setPollFd, setClient]
    case h_2 =>
      refine ⟨rfl, ?_, .inl hsocket⟩
      simp [disconnectClient, setPollFd]

/-- A client that got a slot is configured and greeted. What is written to it is not written to
the others. -/
theorem UpToDate.greeted (h : UpToDate s) {clientFd : Int} (hmin : minClientId ≤ id)
    (hfresh : ∀ j ∈ clientSlots, (s.pollFds j).fd ≠ clientFd) (greeted : Bool)
    (hsound : Sound ((((s.setPollFd id ⟨clientFd, .none⟩).setClient id
      (.ofSocket clientFd)).wrote id config).sendMsg id s.menuToStr greeted)) :
    UpToDate ((((s.setPollFd id ⟨clientFd, .none⟩).setClient id
      (.ofSocket clientFd)).wrote id config).sendMsg id s.menuToStr greeted) := by
  have hregistered : Linked ((s.setPollFd id ⟨clientFd, .none⟩).setClient id
      (.ofSocket clientFd)) := by
    intro j hj
    by_cases hid : j = id
    · simp [hid, client, setClient, setPollFd, TcpClient.ofSocket]
    · simpa [hid, client, setClient, setPollFd] using h.linked j hj
  have hconfigured := hregistered.wrote id config
  have hsent := hconfigured.kept_sendMsg id s.menuToStr greeted
  refine ⟨hsound, hsent.linked, ?_, ?_⟩
  · rw [stations_sendMsg]
    exact h.announces
  · unfold MenusCurrent menuToStr at *
    rw [stations_sendMsg]
    refine h.current.imp_right fun hshows j hjmin hjmax => ?_
    by_cases hid : j = id
    · subst hid
      exact hconfigured.shows_sendMsg hmin _ greeted
    · have hother := hfresh j (mem_clientSlots_iff.mpr ⟨hjmin, hjmax.trans (by decide)⟩)
      refine hsent.shows j hjmin fun hconnected => ?_
      have hfd : (((((s.setPollFd id ⟨clientFd, .none⟩).setClient id
          (.ofSocket clientFd)).wrote id config)).pollFds j) = s.pollFds j := by
        simp [hid, wrote, access, setClient, setPollFd]
      have hsocket : (TcpClient.ofSocket clientFd).socket = clientFd := rfl
      rw [hfd] at hconnected ⊢
      rw [lastWritten_wrote, client_setClient, hsocket, if_neg (Ne.symm hother)]
      exact hshows j hjmin hjmax hconnected

/-- The new client is greeted with the menu, or disconnected; the others have other descriptors. -/
theorem UpToDate.acceptNewClient (h : UpToDate s) {clientFd : Int} (configured greeted : Bool)
    (hfresh : clientFd ≠ -1 → ∀ id ∈ clientSlots, (s.pollFds id).fd ≠ clientFd) :
    UpToDate (s.acceptNewClient clientFd configured greeted) := by
  have hsound := h.sound.acceptNewClient clientFd configured greeted
  revert hsound
  unfold UiMenu.acceptNewClient
  split
  case isTrue => exact fun _ => h
  case isFalse hfd =>
    split
    case h_1 => exact fun _ => h
    case h_2 registered id hregister =>
      obtain ⟨hslot, hstations, hdrop, hentry⟩ := h.linked.exists_registered hregister
      have hmin := (mem_clientSlots_iff.mp hslot).1
      split
      case isFalse =>
        rw [access, disconnectClient_setClient, hdrop]
        exact fun hsound => h.kept hsound rfl (h.linked.kept_disconnectClient id)
      case isTrue hwrites =>
        have hconnected : (registered.client id).socket ≠ -1 := by
          unfold writes at hwrites
          exact of_decide_eq_true (Bool.and_eq_true_iff.mp hwrites).1
        obtain rfl := hentry.resolve_left hconnected
        exact h.greeted hmin (hfresh hfd) greeted

/-! ## Turns of the clients -/

/-- What a client types announces nothing. -/
theorem uiMenuEvent_cmdMove {command : Command} {accepted : ClientId → Bool}
    (hs : s.cmdMove command accepted = .ok s') :
    s'.stations.uiMenuEvent = s.stations.uiMenuEvent := by
  cases command with
  | up =>
      obtain ⟨stations, hmove, hs⟩ := bind_eq_ok_iff.mp hs
      obtain rfl := Except.ok.inj hs
      rw [stations_sendToAll]
      exact Stations.uiMenuEvent_cmdMoveUp hmove
  | down =>
      obtain ⟨stations, hmove, hs⟩ := bind_eq_ok_iff.mp hs
      obtain rfl := Except.ok.inj hs
      rw [stations_sendToAll]
      exact Stations.uiMenuEvent_cmdMoveDown hmove

theorem uiMenuEvent_applyCmd {accepted : ClientId → Bool}
    (hs : s.applyCmd id accepted = .ok s') :
    s'.stations.uiMenuEvent = s.stations.uiMenuEvent := by
  obtain ⟨-, -, hs⟩ := bind_eq_ok_iff.mp hs
  split at hs
  case h_1 => cases hs
  case h_2 command _ =>
    obtain ⟨moved, hmove, hs⟩ := bind_eq_ok_iff.mp hs
    obtain rfl := Except.ok.inj hs
    have hqueue := uiMenuEvent_cmdMove hmove
    exact hqueue

theorem uiMenuEvent_handleClientInput {input : Input} {accepted : ClientId → Bool}
    (hs : s.handleClientInput id input accepted = .ok s') :
    s'.stations.uiMenuEvent = s.stations.uiMenuEvent := by
  unfold handleClientInput at hs
  extract_lets client at hs
  split at hs
  case isTrue =>
    obtain rfl := Except.ok.inj hs
    rfl
  case isFalse =>
    cases input with
    | failed =>
        obtain rfl := Except.ok.inj hs
        rfl
    | eof =>
        obtain rfl := Except.ok.inj hs
        rfl
    | byte c =>
        obtain ⟨-, -, hs⟩ := bind_eq_ok_iff.mp hs
        unfold handleByte at hs
        split at hs
        · obtain rfl := Except.ok.inj hs
          rfl
        · split at hs
          · have hqueue := uiMenuEvent_applyCmd hs
            exact hqueue
          · obtain rfl := Except.ok.inj hs
            rfl

/-- An input moves no menu out of date: a move is shown to all. -/
theorem InputEffect.upToDate (h : UpToDate s) {input : Input} {accepted : ClientId → Bool}
    (he : InputEffect s id input accepted s')
    (hqueue : s'.stations.uiMenuEvent = s.stations.uiMenuEvent) : UpToDate s' := by
  have hsound := he.sound h.sound
  cases he with
  | dropped => exact h.kept hsound rfl (h.linked.kept_disconnectClient id)
  | kept client socket ready => exact h.kept hsound rfl (h.linked.kept_setClient socket)
  | applied client command stations complete socket valid =>
      have hset : Kept s.menuToStr s (s.setClient id client) := h.linked.kept_setClient socket
      have hlinked : Linked { (s.setClient id client).logged id command with stations } :=
        hset.linked
      obtain ⟨hkept, hshows⟩ := hlinked.kept_sendToAll stations.menuToStr accepted
      have hreset := hkept.linked.kept_resetClientInput stations.menuToStr id
      refine ⟨hsound, hreset.linked, ?_, .inr fun j hmin hmax => ?_⟩
      · rw [hqueue]
        exact h.announces
      · have hmenu : (UiMenu.resetClientInput (UiMenu.sendToAll
            { (s.setClient id client).logged id command with stations } stations.menuToStr
            accepted) id).menuToStr = stations.menuToStr := by
          show (UiMenu.sendToAll _ _ _).stations.menuToStr = _
          rw [stations_sendToAll]
        rw [hmenu]
        exact hreset.shows j hmin (hshows j hmin hmax)

theorem UpToDate.finished (h : UpToDate s) (id : ClientId) (sent : Bool) :
    UpToDate (s.finished id sent) := by
  have hsound := h.sound.finished id sent
  revert hsound
  unfold UiMenu.finished
  split
  case isTrue =>
    intro hsound
    have hsent := h.linked.kept_sendMsg id s.menuToStr sent
    have hstations := stations_sendMsg s id s.menuToStr sent
    exact h.kept hsound hstations (hsent.trans (hsent.linked.kept_clearRevents id))
  case isFalse => exact fun hsound => h.kept hsound rfl (h.linked.kept_clearRevents id)

theorem UpToDate.handleClient (h : UpToDate s) {input : Input} {accepted : ClientId → Bool}
    {sent : Bool} (hs : s.handleClient id input accepted sent = .ok s') : UpToDate s' := by
  unfold UiMenu.handleClient at hs
  split at hs
  case isTrue =>
    obtain rfl := Except.ok.inj hs
    exact h
  case isFalse =>
    split at hs
    case isTrue =>
      obtain rfl := Except.ok.inj hs
      exact h.kept (h.sound.disconnectClient id) rfl (h.linked.kept_disconnectClient id)
    case isFalse =>
      extract_lets turn at hs
      split at hs
      case isTrue =>
        obtain ⟨read, hread, hs⟩ := bind_eq_ok_iff.mp hs
        obtain rfl := Except.ok.inj hs
        obtain ⟨read', hread', heffect⟩ := exists_handleClientInput h.sound id input accepted
        obtain rfl : read = read' := Except.ok.inj (hread.symm.trans hread')
        have hupToDate := heffect.upToDate h (uiMenuEvent_handleClientInput hread)
        exact hupToDate.finished id sent
      case isFalse =>
        obtain rfl := Except.ok.inj hs
        exact h.finished id sent

/-! ## Runs -/

theorem UpToDate.handle (h : UpToDate s) {event : UiEvent}
    (hfresh : s.FreshDescriptor (.handle event)) (hs : s.handle event = .ok s') :
    UpToDate s' := by
  cases event with
  | poll ready =>
      obtain rfl := Except.ok.inj hs
      exact h.poll ready
  | event accepted =>
      obtain rfl := Except.ok.inj hs
      exact h.handleEvent accepted
  | server clientFd configured greeted =>
      obtain rfl := Except.ok.inj hs
      unfold handleServer
      split
      case isTrue hreadable =>
        have hcleared : UpToDate (s.clearRevents server) :=
          h.kept (h.sound.congr rfl rfl) rfl (h.linked.kept_clearRevents server)
        refine hcleared.acceptNewClient configured greeted fun hfd id hid => ?_
        rw [fd_clearRevents]
        exact hfresh hreadable hfd id hid
      case isFalse => exact h
  | client id input accepted sent =>
      simp only [UiMenu.handle] at hs
      split at hs
      case isTrue => exact h.handleClient hs
      case isFalse =>
        obtain rfl := Except.ok.inj hs
        exact h

/-- Every step leaves the menus current, unless another worker ends the program. -/
theorem UpToDate.exists_step (h : UpToDate s) (getaddrinfo : List Char → Option Nat)
    (prioStationName : Option (List Char)) {action : Action}
    (hfresh : s.FreshDescriptor action) :
    (∃ s', step getaddrinfo prioStationName s action = .ok s' ∧ UpToDate s') ∨
      (step getaddrinfo prioStationName s action = .error .fatal ∧
        EndsProgram getaddrinfo action) := by
  cases action with
  | handle event =>
      left
      simp only [step]
      split
      · exact ⟨s, rfl, h⟩
      · obtain ⟨s', hs, -⟩ := exists_handle h.sound event
        exact ⟨s', hs, h.handle hfresh hs⟩
  | other action =>
      by_cases hmove : action = .cmdMoveUp ∨ action = .cmdMoveDown
      · left
        rcases hmove with rfl | rfl
        · exact ⟨s, rfl, h⟩
        · exact ⟨s, rfl, h⟩
      · obtain ⟨hup, hdown⟩ := not_or.mp hmove
        have hstep : step getaddrinfo prioStationName s (.other action) = (do
            let stations ← s.stations.step getaddrinfo prioStationName action
            return { s with stations }) := by
          cases action with
          | cmdMoveUp => exact absurd rfl hup
          | cmdMoveDown => exact absurd rfl hdown
          | _ => rfl
        rw [hstep]
        rcases Stations.exists_step h.sound.valid getaddrinfo prioStationName action with
          ⟨stations, hs, hvalid⟩ | ⟨hs, hunresolved⟩
        · left
          refine ⟨{ s with stations }, by rw [hs]; rfl, ?_⟩
          have hannounced := Stations.announced_step hup hdown hs
          exact h.other hannounced hvalid
        · right
          rw [hs]
          exact ⟨rfl, hunresolved⟩

end UiMenu

end SikRadio.Receiver
