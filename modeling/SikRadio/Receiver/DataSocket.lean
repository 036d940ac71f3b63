import SikRadio.Common.UdpSocket
import SikRadio.Receiver.StationSteps

/-!
# The data socket and the current station

The AudioReceiver reads the current station when it acts on an event and not when
the event is pushed, so one event is enough for any number of changes before it:
while the data socket is not joined to the current station, an event is queued, or
has been popped and not yet acted on.

`change_station` first runs the destructor of the data socket. When the list is
empty the socket is not made again, and the next `change_station` runs the
destructor once more. If the compiler left out the last store of the destructor,
this closes the old number: the program ends when nothing is open under it, and
another worker loses its descriptor when it has been given out again. The new data
socket then gets that number, and is closed when the other worker gives it back.

## Implementation notes

`lastStore` says whether the compiler kept the store; if it did, nothing goes wrong.
The AudioReceiver is made when some descriptors of the process are open already. What
the other workers open later (the UiMenu its clients, `getaddrinfo` its files) gets
the lowest number, and they close what they have; a failure of that is logged at most.
Which kind of descriptor theirs are makes no difference.
-/

namespace SikRadio.Receiver

open SikRadio.Common Foundations.CheckedRuns Foundations.DescriptorTable Foundations.OrderedNodes

/-! ## The queue of the AudioReceiver -/

namespace Stations

variable {s s' : Stations}

/-- A change of the current station is queued, or popped and not acted on. -/
def ChangePending (s : Stations) : Prop :=
  .currentStationChanged ∈ s.audioReceiverEvent ∨ s.changing = true

theorem currentMembership_congr (hstations : s'.stations = s.stations)
    (hcurrent : s'.currentStation = s.currentStation) :
    s'.currentMembership = s.currentMembership := by
  simp only [currentMembership, hstations, hcurrent]

/-- A pop takes the event from the queue into the hands of the worker. -/
theorem changePending_of_popped {event : EventType}
    (hqueue : s.audioReceiverEvent = event :: s'.audioReceiverEvent) (hidle : s.changing = false)
    (hchanging : s'.changing = decide (event = .currentStationChanged))
    (hpending : s.ChangePending) : s'.ChangePending := by
  rcases hpending with hqueued | hpopped
  · rcases List.mem_cons.mp (hqueue ▸ hqueued) with hhead | htail
    · exact .inr (by simp [hchanging, ← hhead])
    · exact .inl htail
  · simp [hidle] at hpopped

/-- No step but `change_station` loses a change. -/
theorem Effect.follows (he : Effect s s') {joined : Option Membership}
    (hf : joined = s.currentMembership ∨ s.ChangePending) :
    joined = s'.currentMembership ∨ s'.ChangePending := by
  cases he with
  | chosen valid queued changing =>
      exact .inr (.inl (by simp [queued]))
  | kept valid same queued changing =>
      apply hf.imp
      · intro hjoined
        exact hjoined.trans same.symm
      · intro hpending
        unfold ChangePending at hpending ⊢
        rwa [queued, changing]
  | popped event same current queued idle changing =>
      apply hf.imp
      · intro hjoined
        exact hjoined.trans (currentMembership_congr same current).symm
      · intro hpending
        exact changePending_of_popped queued idle changing hpending

end Stations

/-! ## The AudioReceiver and the descriptors -/

/-- The AudioReceiver's socket among the open descriptors. `others` are the numbers that the other
workers think they have open. -/
structure AudioReceiver where
  stations : Stations
  descriptors : Table Entry
  others : Finset Nat
  dataSocket : UdpSocket

namespace AudioReceiver

inductive Action where
  | stations (action : Stations.Action)
  | openOther
  | closeOther (fd : Nat)

/-- The AudioReceiver has made its data socket. -/
def init (others : Finset Nat) : AudioReceiver where
  stations := .init
  descriptors := (UdpSocket.create (.ofFinset others .other)).1
  others := others
  dataSocket := (UdpSocket.create (.ofFinset others .other)).2

/-- `change_station`. -/
def changeStation (lastStore : Bool) (s : AudioReceiver) : Except Fault AudioReceiver := do
  let (descriptors, destroyed) ← s.dataSocket.destroy lastStore s.descriptors
  let stations ← s.stations.changeStation
  if stations.stations.nodes = [] then
    return { s with stations, descriptors, dataSocket := destroyed }
  else
    let (descriptors, made) := UdpSocket.create descriptors
    let (dataSocket, rest) := UdpSocket.moveAssign made
    let (descriptors, _) ← rest.destroy lastStore descriptors
    let station ← stations.current
    let (descriptors, dataSocket) ← dataSocket.enableMcastRecv descriptors
      station.mcastAddr.sAddr station.dataAddr.sAddr
    let (descriptors, dataSocket) ← dataSocket.bind descriptors (ntohs station.dataAddr.sinPort)
    return { s with stations, descriptors, dataSocket }

def step (lastStore : Bool) (getaddrinfo : List Char → Option Nat)
    (prioStationName : Option (List Char)) (s : AudioReceiver) :
    Action → Except Fault AudioReceiver
  | .stations .changeStation =>
      if s.stations.changing then s.changeStation lastStore else .ok s
  | .stations action => do
      let stations ← s.stations.step getaddrinfo prioStationName action
      return { s with stations }
  | .openOther =>
      .ok { s with
        descriptors := s.descriptors.set s.descriptors.lowest (some .other)
        others := insert s.descriptors.lowest s.others }
  | .closeOther fd =>
      if fd ∈ s.others then
        .ok { s with descriptors := s.descriptors.set fd none, others := s.others.erase fd }
      else .ok s

def run (lastStore : Bool) (getaddrinfo : List Char → Option Nat)
    (prioStationName : Option (List Char)) (s : AudioReceiver) (actions : List Action) :
    Except Fault AudioReceiver :=
  actions.foldlM (step lastStore getaddrinfo prioStationName) s

/-- What an open descriptor is joined to. -/
def joinedTo : Option Entry → Option Membership
  | some (.udp ⟨[(multiaddr, sourceaddr)], some port⟩) => some ⟨multiaddr, sourceaddr, port⟩
  | _ => none

/-- What the kernel has joined the data socket to. -/
def joined (s : AudioReceiver) : Option Membership :=
  s.dataSocket.fd.bind fun fd => joinedTo (s.descriptors.entry fd)

/-- The data socket is joined to the addresses of the current station, or to none when no
station is known. -/
def JoinedToCurrent (s : AudioReceiver) : Prop :=
  if s.stations.stations.nodes = [] then s.joined = none
  else
    ∃ station, s.stations.stations.deref s.stations.currentStation = some station ∧
      s.joined = some (membership station)

def isUdp : Option Entry → Bool
  | some (.udp _) => true
  | _ => false

/-- When `change_station` runs, the data socket has no descriptor or one that is open and its
own. -/
def NotDestroyed (s : AudioReceiver) : Action → Prop
  | .stations .changeStation => s.stations.changing = true →
      s.dataSocket.fd.all (fun fd => isUdp (s.descriptors.entry fd)) = true
  | _ => True

instance (s : AudioReceiver) : (a : Action) → Decidable (s.NotDestroyed a)
  | .stations .changeStation => inferInstanceAs (Decidable (s.stations.changing = true →
      s.dataSocket.fd.all (fun fd => isUdp (s.descriptors.entry fd)) = true))
  | .stations (.handleLookupReply ..) | .stations (.removeInactive _) | .stations .cmdMoveUp
  | .stations .cmdMoveDown | .stations .popEvent | .openOther | .closeOther _ => isTrue trivial

/-! ## The data socket in guarded runs -/

variable {s s' : AudioReceiver}

/-- The data socket is open, the kernel keeps what the socket remembers, and no other worker has
its descriptor. -/
def Open (s : AudioReceiver) : Prop :=
  ∃ fd port, s.dataSocket.fd = some fd ∧ fd ∉ s.others ∧ s.descriptors.entry fd =
    some (.udp ⟨if s.dataSocket.mcastRecvEnabled then [s.dataSocket.ipmreq] else [], port⟩)

/-- The data socket has been destroyed and not made again. -/
def Gone (s : AudioReceiver) : Prop :=
  ∀ fd ∈ s.dataSocket.fd, isUdp (s.descriptors.entry fd) = false

/-- The invariant of guarded runs. -/
structure Tracks (s : AudioReceiver) : Prop where
  valid : s.stations.CurrentValid
  held : ∀ fd ∈ s.others, s.descriptors.entry fd ≠ none
  socket : s.Open ∨ s.Gone
  follows : s.joined = s.stations.currentMembership ∨ s.stations.ChangePending

theorem joinedTo_of_not_isUdp {e : Option Entry} (h : isUdp e = false) : joinedTo e = none := by
  cases e with
  | none => rfl
  | some e =>
      cases e with
      | udp => cases h
      | other => rfl

theorem Gone.joined_eq (h : s.Gone) : s.joined = none := by
  unfold joined
  cases hfd : s.dataSocket.fd with
  | none => rfl
  | some fd => exact joinedTo_of_not_isUdp (h fd hfd)

theorem Tracks.joinedToCurrent_iff (h : s.Tracks) :
    s.JoinedToCurrent ↔ s.joined = s.stations.currentMembership := by
  unfold JoinedToCurrent
  split
  case isTrue hnil => rw [Stations.currentMembership_of_nil h.valid hnil]
  case isFalse hne =>
    obtain ⟨i, station, -, -, -, hderef⟩ := h.valid.exists_deref hne
    simp [Stations.currentMembership, hderef]

theorem entry_init (others : Finset Nat) (fd : Nat) :
    (init others).descriptors.entry fd =
      if fd = (Table.ofFinset others Entry.other).lowest then some (.udp ⟨[], none⟩)
      else (Table.ofFinset others Entry.other).entry fd :=
  Table.entry_set ..

theorem open_init (others : Finset Nat) : (init others).Open := by
  refine ⟨_, none, rfl, fun hmem => ?_, ?_⟩
  · have hnone := (Table.ofFinset others Entry.other).entry_lowest
    rw [Table.entry_ofFinset, if_pos (show _ ∈ others from hmem)] at hnone
    cases hnone
  · rw [entry_init, if_pos rfl]
    rfl

theorem tracks_init (others : Finset Nat) : (init others).Tracks := by
  refine ⟨Stations.currentValid_init, fun fd hfd => ?_, .inl (open_init others), .inl ?_⟩
  · rw [entry_init, Table.entry_ofFinset]
    split
    · simp
    · rw [if_pos (show fd ∈ others from hfd)]
      simp
  · have hnone : (init others).joined = joinedTo ((init others).descriptors.entry
        (Table.ofFinset others Entry.other).lowest) := rfl
    rw [hnone, entry_init, if_pos rfl]
    rfl

/-! ## The other workers -/

theorem Tracks.other (h : s.Tracks) {stations : Stations}
    (he : s.stations.Effect stations) : Tracks { s with stations } :=
  ⟨he.currentValid h.valid, h.held, h.socket, he.follows h.follows⟩

theorem Open.touched (h : s.Open) {fd : Nat} (hfd : s.dataSocket.fd ≠ some fd)
    (e : Option Entry) {others : Finset Nat} (hothers : ∀ x ∈ others, x = fd ∨ x ∈ s.others) :
    Open { s with descriptors := s.descriptors.set fd e, others := others } := by
  obtain ⟨own, port, hown, hout, hentry⟩ := h
  have hne : own ≠ fd := fun heq => hfd (heq ▸ hown)
  refine ⟨own, port, hown, fun hmem => ?_, (s.descriptors.entry_set_of_ne hne e).trans hentry⟩
  rcases hothers own hmem with heq | hmem
  · exact hne heq
  · exact hout hmem

/-- What another worker does to a descriptor that is not that of the open data socket changes
nothing for the data socket. -/
theorem Tracks.touched (h : s.Tracks) {fd : Nat} {e : Option Entry} {others : Finset Nat}
    (he : isUdp e = false) (hfd : s.Open → s.dataSocket.fd ≠ some fd)
    (hheld : ∀ x ∈ others, (x = fd ∧ e ≠ none) ∨ (x ≠ fd ∧ x ∈ s.others)) :
    Tracks { s with descriptors := s.descriptors.set fd e, others := others } := by
  have hothers : ∀ x ∈ others, (s.descriptors.set fd e).entry x ≠ none := by
    intro x hx
    rw [Table.entry_set]
    rcases hheld x hx with ⟨rfl, hsome⟩ | ⟨hne, hmem⟩
    · rwa [if_pos rfl]
    · rw [if_neg hne]
      exact h.held x hmem
  rcases h.socket with hopen | hgone
  · have hopen' : Open { s with descriptors := s.descriptors.set fd e, others := others } :=
      hopen.touched (hfd hopen) e fun x hx => (hheld x hx).imp And.left And.right
    refine ⟨h.valid, hothers, .inl hopen', ?_⟩
    have hdistinct := hfd hopen
    obtain ⟨own, port, hown, -, -⟩ := hopen
    have hne : own ≠ fd := fun heq => hdistinct (heq ▸ hown)
    have hjoined : joined { s with descriptors := s.descriptors.set fd e, others := others } =
        s.joined := by
      simp only [joined, hown, Option.bind_some, s.descriptors.entry_set_of_ne hne e]
    rw [hjoined]
    exact h.follows
  · have hgone' : Gone { s with descriptors := s.descriptors.set fd e, others := others } := by
      intro x hx
      change isUdp ((s.descriptors.set fd e).entry x) = false
      rw [Table.entry_set]
      split
      · exact he
      · exact hgone x hx
    refine ⟨h.valid, hothers, .inr hgone', ?_⟩
    rw [hgone'.joined_eq, ← hgone.joined_eq]
    exact h.follows

theorem Open.ne_other (h : s.Open) {fd : Nat} (hfd : fd ∈ s.others) :
    s.dataSocket.fd ≠ some fd := by
  obtain ⟨own, port, hown, hout, -⟩ := h
  rw [hown]
  intro heq
  exact hout (Option.some.inj heq ▸ hfd)

theorem Open.ne_lowest (h : s.Open) : s.dataSocket.fd ≠ some s.descriptors.lowest := by
  obtain ⟨fd, port, hfd, -, hentry⟩ := h
  rw [hfd]
  intro heq
  exact Table.ne_lowest (by simp [hentry]) (Option.some.inj heq)

theorem Tracks.openOther (h : s.Tracks) :
    Tracks { s with
      descriptors := s.descriptors.set s.descriptors.lowest (some .other)
      others := insert s.descriptors.lowest s.others } := by
  refine h.touched rfl Open.ne_lowest fun x hx => ?_
  rcases Finset.mem_insert.mp hx with rfl | hmem
  · exact .inl ⟨rfl, by simp⟩
  · exact .inr ⟨Table.ne_lowest (h.held x hmem), hmem⟩

theorem Tracks.closeOther (h : s.Tracks) {fd : Nat} (hfd : fd ∈ s.others) :
    Tracks { s with
      descriptors := s.descriptors.set fd none
      others := s.others.erase fd } := by
  refine h.touched rfl (fun hopen => hopen.ne_other hfd) fun x hx => ?_
  exact .inr ⟨Finset.ne_of_mem_erase hx, Finset.mem_of_mem_erase hx⟩

/-! ## `change_station` -/

/-- The destructor of an open data socket, or of one that has no descriptor, leaves it closed and
touches nothing of the other workers. With the last store no descriptor is left in it. -/
theorem Tracks.exists_destroy (h : s.Tracks) (lastStore : Bool)
    (hguard : s.dataSocket.fd.all (fun fd => isUdp (s.descriptors.entry fd)) = true) :
    ∃ descriptors destroyed,
      s.dataSocket.destroy lastStore s.descriptors = .ok (descriptors, destroyed) ∧
        (∀ fd ∈ destroyed.fd, descriptors.entry fd = none) ∧
        (lastStore = true → destroyed.fd = none) ∧
        ∀ fd ∈ s.others, descriptors.entry fd ≠ none := by
  cases hfd : s.dataSocket.fd with
  | none =>
      exact ⟨s.descriptors, s.dataSocket, UdpSocket.destroy_of_fd_eq_none lastStore hfd,
        by simp [hfd], fun _ => hfd, h.held⟩
  | some fd =>
      rw [hfd, Option.all_some] at hguard
      have hopen : s.Open := by
        refine h.socket.resolve_right fun hgone => ?_
        rw [hgone fd hfd] at hguard
        cases hguard
      obtain ⟨own, port, hown, hout, hentry⟩ := hopen
      obtain ⟨d, destroyed, hdestroy, hrest, hd⟩ := UdpSocket.exists_destroy lastStore hown hentry
      refine ⟨d, destroyed, hdestroy, fun x hx => ?_, fun hkept => ?_, fun x hx => ?_⟩
      · have hx' : x = own := by
          rw [hrest] at hx
          split at hx
          · cases hx
          · exact (Option.some.inj hx).symm
        rw [hd, if_pos hx']
      · rw [hrest, if_pos hkept]
      · rw [hd, if_neg (ne_of_mem_of_not_mem hx hout)]
        exact h.held x hx

/-- The data socket is open or has no descriptor. -/
def Intact (s : AudioReceiver) : Prop := s.Open ∨ s.dataSocket.fd = none

/-- With an empty list the data socket stays destroyed. -/
theorem tracks_destroyed {stations : Stations} {d : Table Entry} {others : Finset Nat}
    {destroyed : UdpSocket} (hvalid : stations.CurrentValid) (hnil : stations.stations.nodes = [])
    (hclosed : ∀ fd ∈ destroyed.fd, d.entry fd = none) (hheld : ∀ fd ∈ others, d.entry fd ≠ none) :
    Tracks ⟨stations, d, others, destroyed⟩ := by
  have hgone : Gone ⟨stations, d, others, destroyed⟩ := by
    intro fd hfd
    change isUdp (d.entry fd) = false
    rw [hclosed fd hfd]
    rfl
  refine ⟨hvalid, hheld, .inr hgone, .inl ?_⟩
  rw [hgone.joined_eq]
  exact (Stations.currentMembership_of_nil hvalid hnil).symm

section Made

variable {stations : Stations} {d d' : Table Entry} {others : Finset Nat} {station : RadioStation}

/-- The socket that is made for a station. -/
def made (d : Table Entry) (station : RadioStation) : UdpSocket :=
  ⟨some d.lowest, true, (station.mcastAddr.sAddr, station.dataAddr.sAddr),
    ntohs station.dataAddr.sinPort⟩

theorem open_made (hheld : ∀ fd ∈ others, d.entry fd ≠ none)
    (hmade : d'.entry d.lowest = some (.udp ⟨[(made d station).ipmreq],
      some (made d station).localPort⟩)) : Open ⟨stations, d', others, made d station⟩ :=
  ⟨d.lowest, some (made d station).localPort, rfl,
    fun hmem => hheld d.lowest hmem d.entry_lowest, hmade⟩

/-- The new socket has a number that was free, and is joined to the current station. -/
theorem tracks_made (hvalid : stations.CurrentValid)
    (hderef : stations.stations.deref stations.currentStation = some station)
    (hheld : ∀ fd ∈ others, d.entry fd ≠ none)
    (hentry : ∀ x, d'.entry x = if x = d.lowest then some (.udp ⟨[(made d station).ipmreq],
      some (made d station).localPort⟩) else d.entry x) :
    Tracks ⟨stations, d', others, made d station⟩ := by
  have hmade := (hentry d.lowest).trans (if_pos rfl)
  have hjoined : joined ⟨stations, d', others, made d station⟩ = some (membership station) := by
    change joinedTo (d'.entry d.lowest) = some (membership station)
    rw [hmade]
    rfl
  refine ⟨hvalid, fun fd hfd => ?_, .inl (open_made hheld hmade), .inl ?_⟩
  · rw [hentry, if_neg (Table.ne_lowest (hheld fd hfd))]
    exact hheld fd hfd
  · rw [hjoined, Stations.currentMembership, hderef, Option.map_some]

end Made

/-- `change_station` ends with the data socket open, or destroyed when the list is empty. -/
theorem Tracks.exists_changeStation (h : s.Tracks) (lastStore : Bool)
    (hguard : s.dataSocket.fd.all (fun fd => isUdp (s.descriptors.entry fd)) = true) :
    ∃ s', s.changeStation lastStore = .ok s' ∧ s'.Tracks ∧ (lastStore = true → s'.Intact) := by
  obtain ⟨d, destroyed, hdestroy, hclosed, hstore, hheld⟩ := h.exists_destroy lastStore hguard
  let handled : Stations := { s.stations with changing := false }
  have hhandled : s.stations.changeStation = .ok handled := Stations.changeStation_eq h.valid
  have hvalid : handled.CurrentValid := h.valid.congr rfl rfl
  by_cases hnil : s.stations.stations.nodes = []
  · refine ⟨⟨handled, d, s.others, destroyed⟩, ?_, tracks_destroyed hvalid hnil hclosed hheld,
      fun hkept => .inr (hstore hkept)⟩
    simp only [changeStation, hdestroy, hhandled, Bind.bind, Except.bind]
    exact if_pos hnil
  · obtain ⟨i, station, -, -, -, hderef⟩ := hvalid.exists_deref hnil
    have hcurrent : handled.current = .ok station := by
      simp only [Stations.current, hderef]
    obtain ⟨d₁, d₂, hjoin, hbind, hentry⟩ := UdpSocket.exists_listen d
      station.mcastAddr.sAddr station.dataAddr.sAddr (ntohs station.dataAddr.sinPort)
    refine ⟨⟨handled, d₂, s.others, made d station⟩, ?_, tracks_made hvalid hderef hheld hentry,
      fun _ => .inl (open_made hheld ((hentry d.lowest).trans (if_pos rfl)))⟩
    have hrest : UdpSocket.destroy lastStore { (UdpSocket.create d).2 with fd := none }
        (UdpSocket.create d).1 = .ok ((UdpSocket.create d).1, _) :=
      UdpSocket.destroy_of_fd_eq_none lastStore rfl
    simp only [changeStation, hdestroy, hhandled, Bind.bind, Except.bind]
    rw [if_neg (show ¬handled.stations.nodes = [] from hnil)]
    simp only [UdpSocket.moveAssign, hrest, hcurrent, hjoin, hbind]
    rfl

/-! ## Runs -/

/-- What another worker cannot do: reply with a host that does not resolve. -/
def Unresolved (getaddrinfo : List Char → Option Nat) : Action → Prop
  | .stations action => Stations.Unresolved getaddrinfo action
  | _ => False

/-- The other steps on the stations leave the descriptors alone. -/
theorem step_stations {lastStore : Bool} {getaddrinfo : List Char → Option Nat}
    {prioStationName : Option (List Char)} {action : Stations.Action}
    (haction : action ≠ .changeStation) :
    step lastStore getaddrinfo prioStationName s (.stations action) = (do
      let stations ← s.stations.step getaddrinfo prioStationName action
      return { s with stations }) := by
  cases action with
  | changeStation => exact absurd rfl haction
  | _ => rfl

theorem Tracks.exists_step (h : s.Tracks) (lastStore : Bool)
    (getaddrinfo : List Char → Option Nat) (prioStationName : Option (List Char)) {a : Action}
    (hguard : s.NotDestroyed a) :
    (∃ s', step lastStore getaddrinfo prioStationName s a = .ok s' ∧ s'.Tracks) ∨
      (step lastStore getaddrinfo prioStationName s a = .error .fatal ∧
        Unresolved getaddrinfo a) := by
  cases a with
  | openOther => exact .inl ⟨_, rfl, h.openOther⟩
  | closeOther fd =>
      left
      by_cases hfd : fd ∈ s.others
      · exact ⟨_, if_pos hfd, h.closeOther hfd⟩
      · exact ⟨s, if_neg hfd, h⟩
  | stations action =>
      by_cases haction : action = .changeStation
      · subst haction
        left
        by_cases hchanging : s.stations.changing = true
        · obtain ⟨s', hs, h', -⟩ := h.exists_changeStation lastStore (hguard hchanging)
          exact ⟨s', by rw [step, if_pos hchanging, hs], h'⟩
        · exact ⟨s, if_neg hchanging, h⟩
      · rw [step_stations haction]
        rcases Stations.exists_effect h.valid getaddrinfo prioStationName haction with
          ⟨stations, hs, heffect⟩ | ⟨hs, hunresolved⟩
        · rw [hs]
          exact .inl ⟨_, rfl, h.other heffect⟩
        · rw [hs]
          exact .inr ⟨rfl, hunresolved⟩

/-- As long as `change_station` never finds a data socket that it destroyed before, every
interleaving reaches a state in which the data socket is joined to the current station or a change
is pending, unless the program ends at a reply whose host does not resolve. -/
theorem socket_follows_current (lastStore : Bool) (getaddrinfo : List Char → Option Nat)
    (prioStationName : Option (List Char)) (others : Finset Nat) (actions : List Action)
    (hguard : Guarded (step lastStore getaddrinfo prioStationName) NotDestroyed (init others)
      actions) :
    (∃ s, run lastStore getaddrinfo prioStationName (init others) actions = .ok s ∧
        (s.JoinedToCurrent ∨ s.stations.ChangePending)) ∨
      (run lastStore getaddrinfo prioStationName (init others) actions = .error .fatal ∧
        ∃ a ∈ actions, Unresolved getaddrinfo a) := by
  have hstep (s : AudioReceiver) (a : Action) (h : s.Tracks) (hguard : s.NotDestroyed a) :=
    h.exists_step lastStore getaddrinfo prioStationName hguard
  apply (ok_or_of_guarded hstep (tracks_init others) hguard).imp_left
  rintro ⟨s, hrun, h⟩
  exact ⟨s, hrun, h.follows.imp_left h.joinedToCurrent_iff.mpr⟩

/-! ## With the last store -/

theorem Intact.notDestroyed (h : s.Intact) (a : Action) : s.NotDestroyed a := by
  cases a with
  | stations action =>
      cases action with
      | changeStation =>
          intro hchanging
          rcases h with ⟨fd, port, hfd, -, hentry⟩ | hfd
          · rw [hfd, Option.all_some, hentry]
            rfl
          · rw [hfd]
            rfl
      | _ => trivial
  | openOther => trivial
  | closeOther fd => trivial

/-- If the compiler keeps the store, every step leaves the data socket open or without a
descriptor. -/
theorem Tracks.intact_step (h : s.Tracks) (hintact : s.Intact)
    {getaddrinfo : List Char → Option Nat} {prioStationName : Option (List Char)} {a : Action}
    (hs : step true getaddrinfo prioStationName s a = .ok s') : s'.Intact := by
  cases a with
  | openOther =>
      obtain rfl := Except.ok.inj hs
      refine hintact.imp_left fun hopen => hopen.touched hopen.ne_lowest _ fun x hx => ?_
      exact Finset.mem_insert.mp hx
  | closeOther fd =>
      rw [step] at hs
      split at hs
      case isTrue hfd =>
        obtain rfl := Except.ok.inj hs
        refine hintact.imp_left fun hopen => hopen.touched (hopen.ne_other hfd) _ fun x hx => ?_
        exact .inr (Finset.mem_of_mem_erase hx)
      case isFalse => exact Except.ok.inj hs ▸ hintact
  | stations action =>
      by_cases haction : action = .changeStation
      · subst haction
        rw [step] at hs
        split at hs
        case isTrue hchanging =>
          obtain ⟨s'', hs'', -, hintact'⟩ :=
            h.exists_changeStation true (hintact.notDestroyed (.stations .changeStation) hchanging)
          obtain rfl := Except.ok.inj (hs.symm.trans hs'')
          exact hintact' rfl
        case isFalse => exact Except.ok.inj hs ▸ hintact
      · rw [step_stations haction] at hs
        obtain ⟨stations, -, hs⟩ := bind_eq_ok_iff.mp hs
        obtain rfl := Except.ok.inj hs
        exact hintact

/-- If the compiler keeps the store, `change_station` never finds a data socket that it destroyed
before. -/
theorem guarded_of_lastStore (getaddrinfo : List Char → Option Nat)
    (prioStationName : Option (List Char)) (others : Finset Nat) (actions : List Action) :
    Guarded (step true getaddrinfo prioStationName) NotDestroyed (init others) actions := by
  apply guarded_of_inv (I := fun s => s.Tracks ∧ s.Intact)
  · rintro s a s' ⟨h, hintact⟩ hs
    refine ⟨?_, h.intact_step hintact hs⟩
    rcases h.exists_step true getaddrinfo prioStationName (hintact.notDestroyed a) with
      ⟨s'', hs'', h'⟩ | ⟨hs'', -⟩
    · exact Except.ok.inj (hs''.symm.trans hs) ▸ h'
    · cases hs''.symm.trans hs
  · rintro s a ⟨-, hintact⟩
    exact hintact.notDestroyed a
  · exact ⟨tracks_init others, .inl (open_init others)⟩

section Example

/-- A station is heard of, and the AudioReceiver changes to it. -/
def found (now : Int) : List Action :=
  [.stations (.handleLookupReply ⟨['h'], 5, ['R']⟩ ⟨1, 2⟩ now now), .stations .popEvent,
    .stations .changeStation]

/-- The station has been silent for twenty seconds. -/
def lost : List Action :=
  [.stations (.removeInactive fun _ => 20 * 10 ^ 9), .stations .popEvent, .stations .changeStation]

/-- The only station is lost while a client is connected. -/
theorem socket_follows_current_lost :
    ∃ s, run false (fun _ => some 7) none (init {0, 1, 2})
        (found 0 ++ [.openOther] ++ lost ++ [.closeOther 4]) = .ok s ∧
      (s.JoinedToCurrent ∨ s.stations.ChangePending) := by
  have hok : (run false (fun _ => some 7) none (init {0, 1, 2})
      (found 0 ++ [.openOther] ++ lost ++ [.closeOther 4])).isOk = true := by decide
  refine (socket_follows_current false (fun _ => some 7) none {0, 1, 2} _ (by decide)).resolve_right
    fun hended => ?_
  rw [hended.1] at hok
  cases hok

/-- A client gets the number of the destroyed data socket, the station is heard of again and takes
the number over, and the UiMenu closes the client. -/
def takenOver : List Action :=
  found 0 ++ lost ++ [.openOther] ++ found (30 * 10 ^ 9) ++ [.closeOther 3]

theorem station_unheard_takenOver :
    ∃ s, run false (fun _ => some 7) none (init {0, 1, 2}) takenOver = .ok s ∧
      ¬s.JoinedToCurrent ∧ ¬s.stations.ChangePending := by
  refine exists_ok_and (by decide) fun s hrun => ?_
  have hstate : (s.stations.stations.nodes.length, s.joined, s.stations.audioReceiverEvent,
      s.stations.changing) = (1, none, [], false) :=
    eq_of_toOption_map (fun s => (s.stations.stations.nodes.length, s.joined,
      s.stations.audioReceiverEvent, s.stations.changing)) (by decide) hrun
  simp only [Prod.mk.injEq] at hstate
  obtain ⟨hlength, hjoined, hqueue, hchanging⟩ := hstate
  constructor
  · unfold JoinedToCurrent
    rw [if_neg (by rintro hnil; simp [hnil] at hlength), hjoined]
    simp
  · simp [Stations.ChangePending, hqueue, hchanging]

-- without the client nothing is open under the number
example : run false (fun _ => some 7) none (init {0, 1, 2})
    (found 0 ++ lost ++ found (30 * 10 ^ 9)) = .error .fatal := by rfl

end Example

end AudioReceiver

end SikRadio.Receiver
