import SikRadio.Receiver.ClientTable

/-!
# One message to all clients

`register_client` and the main loop use the slots below `TOTAL_POLLFDS`, which
counts the two slots that are no clients. `send_to_all` stops at `MAX_CLIENTS`,
so that the clients in the last two slots get no message and are not found to
be gone. A write to a connection that the client has closed does not fail in a
way that the worker can handle: it raises `SIGPIPE`, which ends the receiver.

## Implementation notes

The tables are those that connections and disconnections in any order lead to.
A message is written with the sequence that clears the screen before it.
-/

namespace SikRadio.Receiver.UiMenu

open SikRadio.Common Foundations.CheckedRuns

/-- What a write to a connection yields; the last is `SIGPIPE`. -/
inductive WriteResult where
  | written
  | failed
  | brokenPipe
  deriving DecidableEq

def WriteResult.isWritten : WriteResult → Bool
  | .written => true
  | _ => false

/-- `send_msg`, when the write may raise the signal; there is none on descriptor -1. -/
def sendMsgOrSignal (s : UiMenu) (id : ClientId) (msg : List Char) (result : WriteResult) :
    Except Fault UiMenu := do
  check (¬((s.client id).socket ≠ -1 ∧ result = .brokenPipe)) .sigpipe
  return s.sendMsg id msg result.isWritten

/-- One round of `send_to_all`, when the write may raise the signal. -/
def sendToOrSignal (s : UiMenu) (id : ClientId) (msg : List Char)
    (results : ClientId → WriteResult) : Except Fault UiMenu :=
  if (s.pollFds id).fd ≠ -1 then s.sendMsgOrSignal id msg (results id) else return s

/-- `send_to_all`, when any write may raise the signal. -/
def sendToAllOrSignal (s : UiMenu) (msg : List Char) (results : ClientId → WriteResult) :
    Except Fault UiMenu :=
  (List.range' minClientId (maxClients - minClientId)).foldlM
    (fun s id => s.sendToOrSignal id msg results) s

/-- What changes the table of clients between two messages. -/
inductive TableAction where
  | connect (clientFd : Int) (configured greeted : Bool)
  | disconnect (id : ClientId)

def tableStep (s : UiMenu) : TableAction → UiMenu
  | .connect clientFd configured greeted => s.acceptNewClient clientFd configured greeted
  | .disconnect id =>
      if minClientId ≤ id ∧ id < totalPollfds then s.disconnectClient id else s

/-- The state after connections and disconnections. -/
def afterConnections (eventFd serverFd : Int) (actions : List TableAction) : UiMenu :=
  actions.foldl tableStep (init eventFd serverFd)

/-- The slots of clients. -/
def clientSlots : List ClientId := List.range' minClientId (totalPollfds - minClientId)

/-- The message can be written to the connected client. -/
def gets (s : UiMenu) (accepted : ClientId → Bool) (id : ClientId) : Bool :=
  (s.pollFds id).fd ≠ -1 ∧ accepted id = true

/-- The message is written once to every client whose write does not fail, and to nothing else,
and exactly the clients whose write fails are disconnected. -/
structure ReachesAll (s : UiMenu) (msg : List Char) (accepted : ClientId → Bool) (s' : UiMenu) :
    Prop where
  written : ∃ sent, s'.written = s.written ++ sent ∧
    sent.Perm ((clientSlots.filter (s.gets accepted)).map fun id =>
      ((s.pollFds id).fd, clear ++ msg))
  disconnected : ∀ id ∈ clientSlots,
    s'.slot id = if s.Loses accepted id then freeSlot else s.slot id

variable {s : UiMenu} {id : ClientId}

/-! ## What is written -/

theorem written_sendTo (h : SlotConsistent s id) (msg : List Char) (accepted : ClientId → Bool) :
    (s.sendTo id msg accepted).written =
      s.written ++ if s.gets accepted id then [((s.pollFds id).fd, clear ++ msg)] else [] := by
  unfold sendTo
  split
  case isTrue hfd =>
    have hsocket := h.socket_client hfd
    cases haccepted : accepted id with
    | true =>
        have hwrites : s.writes id true = true := by simp [writes, hsocket, hfd]
        have hgets : s.gets accepted id = true := decide_eq_true ⟨hfd, haccepted⟩
        rw [sendMsg, if_pos hwrites, if_pos hgets, ← hsocket]
        rfl
    | false =>
        have hwrites : ¬s.writes id false = true := by simp [writes]
        have hgets : ¬s.gets accepted id = true := by simp [gets, haccepted]
        rw [sendMsg, if_neg hwrites, if_neg hgets, List.append_nil]
        rfl
  case isFalse hfd =>
    have hgets : ¬s.gets accepted id = true := by simp [gets, hfd]
    rw [if_neg hgets, List.append_nil]

/-- The loop of `send_to_all` writes to the clients of the slots it visits, in turn. -/
theorem written_foldl_sendTo (msg : List Char) (accepted : ClientId → Bool) {ids : List ClientId}
    (hnodup : ids.Nodup) (h : ∀ id ∈ ids, SlotConsistent s id) :
    (ids.foldl (fun s id => s.sendTo id msg accepted) s).written =
      s.written ++ (ids.filter (s.gets accepted)).map fun id =>
        ((s.pollFds id).fd, clear ++ msg) := by
  induction ids generalizing s with
  | nil => simp
  | cons id ids ih =>
      obtain ⟨hnotMem, hnodup'⟩ := List.nodup_cons.mp hnodup
      have hid := h id (List.mem_cons_self ..)
      have hrest (j : ClientId) (hj : j ∈ ids) : SlotConsistent (s.sendTo id msg accepted) j :=
        hid.sendTo (h j (List.mem_cons_of_mem id hj)) msg accepted
      have hkept (j : ClientId) (hj : j ∈ ids) :
          (s.sendTo id msg accepted).pollFds j = s.pollFds j := by
        have hne : j ≠ id := fun heq => hnotMem (heq ▸ hj)
        have hslot := slot_sendTo hid msg accepted j
        rw [if_neg (not_and_of_not_left _ hne)] at hslot
        exact (Prod.mk.inj hslot).2
      have hgets (j : ClientId) (hj : j ∈ ids) :
          (s.sendTo id msg accepted).gets accepted j = s.gets accepted j := by
        rw [gets, gets, hkept j hj]
      have hlater : ((ids.filter ((s.sendTo id msg accepted).gets accepted)).map fun j =>
          (((s.sendTo id msg accepted).pollFds j).fd, clear ++ msg)) =
            (ids.filter (s.gets accepted)).map fun j => ((s.pollFds j).fd, clear ++ msg) := by
        rw [List.filter_congr hgets]
        apply List.map_congr_left
        intro j hj
        rw [hkept j (List.mem_filter.mp hj).1]
      rw [List.foldl_cons, ih hnodup' hrest, hlater, written_sendTo hid, List.append_assoc]
      by_cases hgot : s.gets accepted id = true
      · rw [if_pos hgot, List.filter_cons_of_pos hgot, List.map_cons, List.singleton_append]
      · rw [if_neg hgot, List.filter_cons_of_neg hgot, List.nil_append]

/-- The slots that `send_to_all` visits. -/
def visitedSlots : List ClientId := List.range' minClientId (maxClients - minClientId)

/-- The last two slots of clients. -/
def lastSlots : List ClientId := List.range' maxClients (totalPollfds - maxClients)

theorem clientSlots_eq : clientSlots = visitedSlots ++ lastSlots := by
  decide

theorem written_sendToAll (h : Consistent s) (msg : List Char) (accepted : ClientId → Bool) :
    (s.sendToAll msg accepted).written =
      s.written ++ (visitedSlots.filter (s.gets accepted)).map fun id =>
        ((s.pollFds id).fd, clear ++ msg) := by
  unfold sendToAll
  apply written_foldl_sendTo msg accepted List.nodup_range'
  intro id hid
  rw [List.mem_range'_1] at hid
  exact h id hid.1 (hid.2.trans (by decide))

/-! ## The signal -/

/-- The write to the connected client raises the signal. -/
def Breaks (s : UiMenu) (results : ClientId → WriteResult) (id : ClientId) : Prop :=
  (s.pollFds id).fd ≠ -1 ∧ results id = .brokenPipe

instance (s : UiMenu) (results : ClientId → WriteResult) (id : ClientId) :
    Decidable (s.Breaks results id) :=
  inferInstanceAs (Decidable (_ ∧ _))

/-- One round of `send_to_all` ends the program or is what it is without the signal. -/
theorem sendToOrSignal_eq (h : SlotConsistent s id) (msg : List Char)
    (results : ClientId → WriteResult) :
    s.sendToOrSignal id msg results =
      if s.Breaks results id then .error .sigpipe
      else .ok (s.sendTo id msg fun id => (results id).isWritten) := by
  unfold sendToOrSignal sendTo
  by_cases hfd : (s.pollFds id).fd = -1
  · have hquiet : ¬s.Breaks results id := fun hbreaks => hbreaks.1 hfd
    rw [if_neg (not_not.mpr hfd), if_neg (not_not.mpr hfd), if_neg hquiet]
    rfl
  · have hsocket : (s.client id).socket ≠ -1 := h.socket_client hfd ▸ hfd
    rw [if_pos hfd, if_pos hfd, sendMsgOrSignal]
    by_cases hbroken : results id = .brokenPipe
    · have hbreaks : s.Breaks results id := ⟨hfd, hbroken⟩
      rw [if_pos hbreaks, check, if_neg (not_not.mpr ⟨hsocket, hbroken⟩)]
      rfl
    · have hquiet : ¬s.Breaks results id := fun hbreaks => hbroken hbreaks.2
      rw [if_neg hquiet, check, if_pos fun hboth => hbroken hboth.2]
      rfl

theorem foldlM_sendToOrSignal (msg : List Char) (results : ClientId → WriteResult)
    {ids : List ClientId} (hnodup : ids.Nodup) (h : ∀ id ∈ ids, SlotConsistent s id) :
    ids.foldlM (fun s id => s.sendToOrSignal id msg results) s =
      if ∃ id ∈ ids, s.Breaks results id then .error .sigpipe
      else .ok (ids.foldl (fun s id => s.sendTo id msg fun id => (results id).isWritten) s) := by
  induction ids generalizing s with
  | nil => rfl
  | cons id ids ih =>
      obtain ⟨hnotMem, hnodup'⟩ := List.nodup_cons.mp hnodup
      have hid := h id (List.mem_cons_self ..)
      rw [List.foldlM_cons, sendToOrSignal_eq hid]
      by_cases hbreaks : s.Breaks results id
      · rw [if_pos hbreaks, if_pos ⟨id, List.mem_cons_self .., hbreaks⟩]
        rfl
      · let sent := s.sendTo id msg fun id => (results id).isWritten
        have hrest (j : ClientId) (hj : j ∈ ids) : SlotConsistent sent j :=
          hid.sendTo (h j (List.mem_cons_of_mem id hj)) msg _
        have hkept (j : ClientId) (hj : j ∈ ids) : sent.pollFds j = s.pollFds j := by
          have hne : j ≠ id := fun heq => hnotMem (heq ▸ hj)
          have hslot := slot_sendTo hid msg (fun id => (results id).isWritten) j
          rw [if_neg (not_and_of_not_left _ hne)] at hslot
          exact (Prod.mk.inj hslot).2
        have hlater : (∃ j ∈ ids, sent.Breaks results j) ↔ ∃ j ∈ id :: ids, s.Breaks results j := by
          rw [List.exists_mem_cons_iff, or_iff_right hbreaks]
          refine exists_congr fun j => and_congr_right fun hj => ?_
          rw [Breaks, Breaks, hkept j hj]
        rw [if_neg hbreaks, List.foldl_cons, ← if_congr hlater rfl rfl]
        exact ih hnodup' hrest

/-- `send_to_all` ends the program exactly when one of the clients it visits is gone. -/
theorem sendToAllOrSignal_eq (h : Consistent s) (msg : List Char)
    (results : ClientId → WriteResult) :
    s.sendToAllOrSignal msg results =
      if ∃ id ∈ visitedSlots, s.Breaks results id then .error .sigpipe
      else .ok (s.sendToAll msg fun id => (results id).isWritten) := by
  unfold sendToAllOrSignal sendToAll
  apply foldlM_sendToOrSignal msg results List.nodup_range'
  intro id hid
  rw [List.mem_range'_1] at hid
  exact h id hid.1 (hid.2.trans (by decide))

/-! ## Whom a message reaches -/

theorem mem_clientSlots_iff : id ∈ clientSlots ↔ minClientId ≤ id ∧ id < totalPollfds :=
  List.mem_range'_1

theorem mem_lastSlots_iff : id ∈ lastSlots ↔ maxClients ≤ id ∧ id < totalPollfds :=
  List.mem_range'_1

/-- A message reaches all clients when the last two slots are free. -/
theorem reachesAll_iff (h : Consistent s) (msg : List Char) (accepted : ClientId → Bool) :
    ReachesAll s msg accepted (s.sendToAll msg accepted) ↔
      ∀ id ∈ lastSlots, (s.pollFds id).fd = -1 := by
  have hwritten := written_sendToAll h msg accepted
  have hslot := slot_sendToAll h msg accepted
  constructor
  · intro hreaches id hid
    by_contra hfd
    have hclient : id ∈ clientSlots := clientSlots_eq ▸ List.mem_append_right _ hid
    cases haccepted : accepted id with
    | true =>
        obtain ⟨sent, hsent, hperm⟩ := hreaches.written
        have hsent' := List.append_cancel_left (hwritten.symm.trans hsent)
        have hlength := hperm.length_eq
        rw [← hsent', clientSlots_eq, List.filter_append, List.map_append, List.length_append,
          List.length_map, List.length_map] at hlength
        have hgets : id ∈ lastSlots.filter (s.gets accepted) :=
          List.mem_filter.mpr ⟨hid, decide_eq_true ⟨hfd, haccepted⟩⟩
        have hpos := List.length_pos_of_mem hgets
        omega
    | false =>
        have hfreed := hreaches.disconnected id hclient
        have hbeyond : ¬id < maxClients := not_lt.mpr (mem_lastSlots_iff.mp hid).1
        rw [if_pos ⟨hfd, haccepted⟩, hslot, if_neg fun hboth => hbeyond hboth.1.2] at hfreed
        exact hfd (congrArg PollFd.fd (Prod.mk.inj hfreed).2)
  · intro hfree
    have hnone : lastSlots.filter (s.gets accepted) = [] := by
      apply List.filter_eq_nil_iff.mpr
      intro id hid hgets
      exact (of_decide_eq_true hgets).1 (hfree id hid)
    refine ⟨⟨_, hwritten, ?_⟩, fun id hid => ?_⟩
    · rw [clientSlots_eq, List.filter_append, hnone, List.append_nil]
    · rw [hslot]
      refine if_congr ⟨And.right, fun hloses => ⟨?_, hloses⟩⟩ rfl rfl
      obtain ⟨hmin, hmax⟩ := mem_clientSlots_iff.mp hid
      refine ⟨hmin, not_le.mp fun hlast => ?_⟩
      exact hloses.1 (hfree id (mem_lastSlots_iff.mpr ⟨hlast, hmax⟩))

theorem consistent_afterConnections (eventFd serverFd : Int) (actions : List TableAction) :
    Consistent (afterConnections eventFd serverFd actions) := by
  have hstep (s : UiMenu) (action : TableAction) (h : Consistent s) :
      Consistent (s.tableStep action) := by
    cases action with
    | connect clientFd configured greeted => exact h.acceptNewClient clientFd configured greeted
    | disconnect id =>
        simp only [tableStep]
        split
        · exact h.disconnectClient id
        · exact h
  exact List.foldlRecOn actions tableStep (consistent_init eventFd serverFd)
    fun s h action _ => hstep s action h

/-- Whatever clients came and went, a message reaches all clients exactly when no client is in
one of the last two slots and the write to none of the clients raises the signal. -/
theorem reaches_all_iff (eventFd serverFd : Int) (actions : List TableAction) (msg : List Char)
    (results : ClientId → WriteResult) :
    (∃ s', (afterConnections eventFd serverFd actions).sendToAllOrSignal msg results = .ok s' ∧
        ReachesAll (afterConnections eventFd serverFd actions) msg
          (fun id => (results id).isWritten) s') ↔
      (∀ id ∈ lastSlots, ((afterConnections eventFd serverFd actions).pollFds id).fd = -1) ∧
        ∀ id ∈ clientSlots, ¬(afterConnections eventFd serverFd actions).Breaks results id := by
  have hconsistent := consistent_afterConnections eventFd serverFd actions
  generalize afterConnections eventFd serverFd actions = s at hconsistent
  rw [sendToAllOrSignal_eq hconsistent]
  constructor
  · rintro ⟨s', hsent, hreaches⟩
    split at hsent
    case isTrue => cases hsent
    case isFalse hnone =>
      obtain rfl := Except.ok.inj hsent
      have hfree := (reachesAll_iff hconsistent msg _).mp hreaches
      refine ⟨hfree, fun id hid hbreaks => ?_⟩
      rw [clientSlots_eq, List.mem_append] at hid
      rcases hid with hvisited | hlast
      · exact hnone ⟨id, hvisited, hbreaks⟩
      · exact hbreaks.1 (hfree id hlast)
  · rintro ⟨hfree, hquiet⟩
    have hnone : ¬∃ id ∈ visitedSlots, s.Breaks results id := by
      rintro ⟨id, hid, hbreaks⟩
      exact hquiet id (clientSlots_eq ▸ List.mem_append_left _ hid) hbreaks
    exact ⟨_, if_neg hnone, (reachesAll_iff hconsistent msg _).mpr hfree⟩

section Example

/-- As many clients connect. -/
def crowd (n : Nat) : List TableAction :=
  (List.range n).map fun i => .connect (Int.ofNat (10 + i)) true true

/-- The last of 41 clients sees no change, and when the first of two is gone nobody sees one. -/
theorem change_unseen :
    (¬∃ s', (afterConnections 3 4 (crowd 41)).sendToAllOrSignal [] (fun _ => .written) = .ok s' ∧
        ReachesAll (afterConnections 3 4 (crowd 41)) [] (fun _ => true) s') ∧
      ∀ s', (afterConnections 3 4 (crowd 2)).sendToAllOrSignal []
        (fun id => if id = 2 then .brokenPipe else .written) ≠ .ok s' := by
  constructor
  · rintro ⟨s', hsent, hreaches⟩
    have hconsistent := consistent_afterConnections 3 4 (crowd 41)
    rw [sendToAllOrSignal_eq hconsistent] at hsent
    split at hsent
    case isTrue => cases hsent
    case isFalse =>
      obtain rfl := Except.ok.inj hsent
      have hfree := (reachesAll_iff hconsistent [] fun _ => true).mp hreaches 42 (by decide)
      exact absurd hfree (by decide +kernel)
  · intro s' hsent
    rw [sendToAllOrSignal_eq (consistent_afterConnections 3 4 (crowd 2)),
      if_pos ⟨2, by decide, by decide +kernel⟩] at hsent
    cases hsent

end Example

end SikRadio.Receiver.UiMenu
