import SikRadio.Receiver.Stations

/-!
# What a step can do to the current station

Every step either points the current station to an element of the set and
queues an event, or leaves what the current station designates alone, or is one
of the two steps of the AudioReceiver. `Effect` says so once for all actions but
`change_station`; the invariants of the station list follow from it.
-/

namespace SikRadio.Receiver

open SikRadio.Common Foundations.CheckedRuns Foundations.OrderedNodes

/-- What `enable_mcast_recv` and `bind` set: group, source and port. -/
structure Membership where
  multiaddr : Nat
  sourceaddr : Nat
  port : Nat
  deriving DecidableEq

/-- The arguments with which `change_station` joins a station. -/
def membership (station : RadioStation) : Membership where
  multiaddr := station.mcastAddr.sAddr
  sourceaddr := station.dataAddr.sAddr
  port := ntohs station.dataAddr.sinPort

namespace Stations

/-- The current station is past the end exactly when the set is empty, and is in the set
otherwise. -/
structure CurrentValid (s : Stations) : Prop where
  end_iff : s.currentStation = none ↔ s.stations.nodes = []
  mem_ids : ∀ i, s.currentStation = some i → i ∈ s.stations.ids

/-- The addresses of what the current station designates. -/
def currentMembership (s : Stations) : Option Membership :=
  (s.stations.deref s.currentStation).map membership

/-- What a step other than `change_station` can do. -/
inductive Effect (s s' : Stations) : Prop
  | chosen (valid : s'.CurrentValid)
      (queued : s'.audioReceiverEvent = s.audioReceiverEvent ++ [.currentStationChanged])
      (changing : s'.changing = s.changing)
  | kept (valid : s'.CurrentValid) (same : s'.currentMembership = s.currentMembership)
      (queued : s'.audioReceiverEvent = s.audioReceiverEvent)
      (changing : s'.changing = s.changing)
  | popped (event : EventType) (same : s'.stations = s.stations)
      (current : s'.currentStation = s.currentStation)
      (queued : s.audioReceiverEvent = event :: s'.audioReceiverEvent)
      (idle : s.changing = false)
      (changing : s'.changing = decide (event = .currentStationChanged))

/-- The reply names a host that `getaddrinfo` does not resolve. -/
def Unresolved (getaddrinfo : List Char → Option Nat) : Action → Prop
  | .handleLookupReply reply _ _ _ => getaddrinfo reply.mcastAddr = none
  | _ => False

variable {s : Stations}

theorem CurrentValid.congr {s' : Stations} (hv : s.CurrentValid)
    (hstations : s'.stations = s.stations) (hcurrent : s'.currentStation = s.currentStation) :
    s'.CurrentValid := by
  refine ⟨?_, ?_⟩
  · rw [hstations, hcurrent]
    exact hv.end_iff
  · rw [hstations, hcurrent]
    exact hv.mem_ids

theorem CurrentValid.of_mem {i : Nat} (hcurrent : s.currentStation = some i)
    (hi : i ∈ s.stations.ids) : s.CurrentValid := by
  refine ⟨?_, fun j hj => ?_⟩
  · simp [hcurrent, s.stations.ids_ne_nil hi]
  · obtain rfl : i = j := Option.some.inj (hcurrent.symm.trans hj)
    exact hi

/-- The current station of a set that is not empty designates a station. -/
theorem CurrentValid.exists_deref (hv : s.CurrentValid) (hne : s.stations.nodes ≠ []) :
    ∃ i station, s.currentStation = some i ∧ i ∈ s.stations.ids ∧
      s.stations.value? i = some station ∧ s.stations.deref s.currentStation = some station := by
  obtain ⟨i, hi⟩ := Option.ne_none_iff_exists'.mp (mt hv.end_iff.mp hne)
  have hmem := hv.mem_ids i hi
  obtain ⟨station, hstation⟩ := (s.stations.exists_value?_iff).mpr hmem
  exact ⟨i, station, hi, hmem, hstation, by simp [NodeSet.deref, hi, hstation]⟩

theorem currentMembership_of_nil (hv : s.CurrentValid) (hnil : s.stations.nodes = []) :
    s.currentMembership = none := by
  simp [currentMembership, NodeSet.deref, hv.end_iff.mpr hnil]

theorem setCurrentStation_effect {it : Option Nat} {t : Stations}
    (hqueue : t.audioReceiverEvent = s.audioReceiverEvent) (hchanging : t.changing = s.changing)
    (hv : (t.setCurrentStation it).CurrentValid) :
    Effect s (t.setCurrentStation it) :=
  .chosen hv (by simp [setCurrentStation, hqueue]) hchanging

/-! ## Changes of the set -/

section Changes

variable (hv : s.CurrentValid)
include hv

theorem refresh_effect (it : Nat) (now : Int) :
    Effect s { s with
      stations := s.stations.update it (RadioStation.updateLastReply now)
        (RadioStation.key_updateLastReply now) } := by
  refine .kept ⟨?_, ?_⟩ ?_ rfl rfl
  · simpa using hv.end_iff
  · simpa using hv.mem_ids
  · by_cases hnil : s.stations.nodes = []
    · simp [currentMembership, NodeSet.deref, hv.end_iff.mpr hnil]
    · obtain ⟨i, station, hi, -, hvalue, hderef⟩ := hv.exists_deref hnil
      have hnew := s.stations.value?_update it (RadioStation.updateLastReply now)
        (RadioStation.key_updateLastReply now) hvalue
      simp only [currentMembership, hderef]
      simp only [hi, NodeSet.deref, Option.bind_some, hnew]
      split <;> rfl

theorem addStation_effect (prioStationName : Option (List Char)) {station : RadioStation}
    (hfind : s.stations.find? station = none) :
    Effect s (s.addStation prioStationName station) := by
  unfold addStation
  extract_lets inserted chosen
  by_cases hchosen : inserted.stations.nodes.length = 1 ∨ prioStationName = some station.name
  · have hdef : chosen = inserted.setCurrentStation (some s.stations.nextId) := if_pos hchosen
    refine .chosen (.of_mem (i := s.stations.nextId) ?_ ?_) ?_ ?_ <;> rw [hdef]
    all_goals first | rfl | exact NodeSet.nextId_mem_ids_insert hfind
  · have hdef : chosen = inserted := if_neg hchosen
    have hlength := NodeSet.length_insert hfind
    have hne : s.stations.nodes ≠ [] := by
      intro hnil
      exact hchosen (.inl (by rw [hlength, hnil]; rfl))
    obtain ⟨i, old, hi, hmem, hvalue, hderef⟩ := hv.exists_deref hne
    refine .kept (.of_mem (i := i) ?_ ?_) ?_ ?_ ?_ <;> rw [hdef]
    · exact hi
    · exact NodeSet.mem_ids_insert hfind hmem
    · simp only [currentMembership, hderef]
      simp only [inserted, hi, NodeSet.deref, Option.bind_some,
        NodeSet.value?_insert hfind hmem, hvalue]

end Changes

/-- The current station is reset to a station that is in the set, if there is one. -/
theorem resetCurrentStation_valid (prioStationName : Option (List Char)) (t : Stations) :
    (t.resetCurrentStation prioStationName).CurrentValid := by
  unfold resetCurrentStation
  extract_lets prioStation
  have hprio : ∀ i, prioStation = some i → i ∈ t.stations.ids := by
    intro i hi
    obtain ⟨name, -, hname⟩ := Option.bind_eq_some_iff.mp hi
    obtain ⟨n, hn, rfl⟩ := Option.map_eq_some_iff.mp hname
    exact List.mem_map_of_mem (List.mem_of_find?_eq_some hn)
  by_cases hnone : prioStation = none
  · rw [if_neg (by simp [hnone])]
    exact ⟨t.stations.begin_eq_none_iff, fun i hi => t.stations.begin_mem_ids hi⟩
  · rw [if_pos hnone]
    obtain ⟨i, hi⟩ := Option.ne_none_iff_exists'.mp hnone
    exact .of_mem (i := i) hi (hprio i hi)

/-- A sweep that does not erase the current station leaves it alone. -/
theorem eraseUnless_effect (hv : s.CurrentValid) {keep : Nat → RadioStation → Bool}
    (hcurrent : ∀ n ∈ s.stations.erased keep, s.currentStation ≠ some n.id)
    (events : List EventType) :
    Effect s { s with stations := s.stations.eraseUnless keep, uiMenuEvent := events } := by
  by_cases hnil : s.stations.nodes = []
  · have hnone := hv.end_iff.mpr hnil
    have hnil' := s.stations.eraseUnless_eq_nil keep hnil
    refine .kept ⟨by simp [hnone, hnil'], by simp [hnone]⟩ ?_ rfl rfl
    simp [currentMembership, NodeSet.deref, hnone]
  · obtain ⟨i, station, hi, -, hvalue, hderef⟩ := hv.exists_deref hnil
    have hstays : (s.stations.eraseUnless keep).value? i = some station := by
      refine s.stations.value?_eraseUnless keep hvalue fun n hn hid => ?_
      exact hcurrent n hn (hid ▸ hi)
    refine .kept (.of_mem (i := i) hi ?_) ?_ rfl rfl
    · exact (s.stations.eraseUnless keep).exists_value?_iff.mp ⟨station, hstays⟩
    · simp only [currentMembership, hderef]
      simp only [hi, NodeSet.deref, Option.bind_some, hstays]

theorem removeInactive_effect (hv : s.CurrentValid) (prioStationName : Option (List Char))
    (now : Nat → Int) : Effect s (s.removeInactive prioStationName now) := by
  unfold removeInactive
  extract_lets removed remaining announced
  split
  case isTrue hnone =>
    exact eraseUnless_effect hv (by simp [removed, hnone]) s.uiMenuEvent
  case isFalse =>
    split
    case isTrue =>
      exact .chosen (resetCurrentStation_valid _ _) rfl rfl
    case isFalse hcurrent =>
      refine eraseUnless_effect hv (fun n hn hid => hcurrent ?_) _
      exact List.any_eq_true.mpr ⟨n, hn, by simpa using hid⟩

/-! ## Moves -/

/-- A move to an element of the set. -/
theorem moved_effect {it : Option (Option Nat)} (h : ∃ j ∈ s.stations.ids, it = some (some j)) :
    ∃ s', (do let i ← moved it; return s.setCurrentStation i) = Except.ok s' ∧ Effect s s' := by
  obtain ⟨j, hj, rfl⟩ := h
  refine ⟨s.setCurrentStation (some j), rfl, ?_⟩
  exact setCurrentStation_effect rfl rfl (.of_mem rfl hj)

section Moves

variable (hv : s.CurrentValid)
include hv

/-- A station that is not the first has one before it, to which the current station moves. -/
theorem cmdMoveUp_effect : ∃ s', s.cmdMoveUp = .ok s' ∧ Effect s s' := by
  unfold cmdMoveUp
  split
  case isTrue h =>
    obtain ⟨i, -, hi, hmem, -, -⟩ := hv.exists_deref h.1
    apply moved_effect
    rw [hi]
    exact s.stations.exists_prev hmem (hi ▸ h.2.symm)
  case isFalse =>
    exact ⟨s, rfl, .kept hv rfl rfl rfl⟩

theorem cmdMoveDown_effect : ∃ s', s.cmdMoveDown = .ok s' ∧ Effect s s' := by
  unfold cmdMoveDown
  split
  case isTrue h =>
    obtain ⟨i, -, hi, hmem, -, -⟩ := hv.exists_deref h.1
    apply moved_effect
    rw [hi]
    exact s.stations.exists_next hmem (hi ▸ h.2.symm)
  case isFalse =>
    exact ⟨s, rfl, .kept hv rfl rfl rfl⟩

/-! ## The AudioReceiver -/

theorem popEvent_effect (hidle : s.changing = false) : Effect s s.popEvent := by
  unfold popEvent
  split
  case h_1 => exact .kept hv rfl rfl rfl
  case h_2 event rest hqueue => exact .popped event rfl rfl hqueue hidle rfl

theorem changeStation_eq : s.changeStation = .ok { s with changing := false } := by
  unfold changeStation
  extract_lets handled
  split
  case isTrue => rfl
  case isFalse hne =>
    obtain ⟨i, station, -, -, -, hderef⟩ := hv.exists_deref hne
    simp only [current, hderef]
    rfl

end Moves

/-! ## All steps -/

section Steps

variable (hv : s.CurrentValid) (getaddrinfo : List Char → Option Nat)
  (prioStationName : Option (List Char))
include hv

theorem handleLookupReply_effect (reply : LookupReply) (srcAddr : SockAddr)
    (made refreshed : Int) :
    (∃ s', s.handleLookupReply getaddrinfo prioStationName reply srcAddr made refreshed = .ok s' ∧
        Effect s s') ∨
      (s.handleLookupReply getaddrinfo prioStationName reply srcAddr made refreshed =
          .error .fatal ∧ getaddrinfo reply.mcastAddr = none) := by
  unfold handleLookupReply
  rcases RadioStation.ofReply_cases getaddrinfo srcAddr reply made with ⟨station?, h⟩ | ⟨h, hnone⟩
  · left
    rw [h]
    cases station? with
    | none => exact ⟨s, rfl, .kept hv rfl rfl rfl⟩
    | some station =>
        cases hfind : s.stations.find? station with
        | none => exact ⟨_, by simp only [bind, Except.bind, hfind]; rfl,
            addStation_effect hv prioStationName hfind⟩
        | some it => exact ⟨_, by simp only [bind, Except.bind, hfind]; rfl,
            refresh_effect hv it refreshed⟩
  · right
    exact ⟨by rw [h]; rfl, hnone⟩

/-- A step stops only when `getaddrinfo` does not resolve the host of a reply. -/
theorem exists_effect {a : Action} (ha : a ≠ .changeStation) :
    (∃ s', step getaddrinfo prioStationName s a = .ok s' ∧ Effect s s') ∨
      (step getaddrinfo prioStationName s a = .error .fatal ∧ Unresolved getaddrinfo a) := by
  cases a with
  | handleLookupReply reply srcAddr made refreshed =>
      exact handleLookupReply_effect hv getaddrinfo prioStationName reply srcAddr made refreshed
  | removeInactive now => exact .inl ⟨_, rfl, removeInactive_effect hv prioStationName now⟩
  | cmdMoveUp => exact .inl (cmdMoveUp_effect hv)
  | cmdMoveDown => exact .inl (cmdMoveDown_effect hv)
  | popEvent =>
      left
      by_cases hchanging : s.changing = true
      · exact ⟨s, by simp [step, hchanging], .kept hv rfl rfl rfl⟩
      · exact ⟨s.popEvent, by simp [step, hchanging], popEvent_effect hv (by simpa using hchanging)⟩
  | changeStation => exact absurd rfl ha

end Steps

theorem Effect.currentValid {s' : Stations} (he : Effect s s') (hv : s.CurrentValid) :
    s'.CurrentValid := by
  cases he with
  | chosen valid => exact valid
  | kept valid => exact valid
  | popped event same current => exact hv.congr same current

/-- The current station stays valid, unless the program ends. -/
theorem exists_step (hv : s.CurrentValid) (getaddrinfo : List Char → Option Nat)
    (prioStationName : Option (List Char)) (a : Action) :
    (∃ s', step getaddrinfo prioStationName s a = .ok s' ∧ s'.CurrentValid) ∨
      (step getaddrinfo prioStationName s a = .error .fatal ∧ Unresolved getaddrinfo a) := by
  by_cases ha : a = .changeStation
  · subst ha
    left
    by_cases hchanging : s.changing = true
    · exact ⟨{ s with changing := false }, by simp [step, hchanging, changeStation_eq hv],
        hv.congr rfl rfl⟩
    · exact ⟨s, by simp [step, hchanging], hv⟩
  · apply (exists_effect hv getaddrinfo prioStationName ha).imp_left
    rintro ⟨s', hs, heffect⟩
    exact ⟨s', hs, heffect.currentValid hv⟩

theorem currentValid_init : init.CurrentValid := by
  refine ⟨by simp [init, NodeSet.empty], ?_⟩
  simp [init]

end Stations

end SikRadio.Receiver
