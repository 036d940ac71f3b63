import SikRadio.Foundations.Cursors
import SikRadio.Receiver.LiveStations
import SikRadio.Receiver.MenuChanges

/-!
# The directory of stations

What the station list is for, without nodes, iterators and locks: a directory
knows which stations were heard of and when, and one of them is chosen. It only
sees what is announced, when the clock is read and which keys are pressed. The
workers refine it: after every run the list and the menu are the directory's.

## Implementation notes

The directory has no state of its own for the AudioReceiver, whose steps leave
the list alone.
-/

namespace SikRadio.Receiver

open SikRadio.Common Foundations.CheckedRuns Foundations.OrderedNodes Foundations.Cursors

/-- The stations heard of, one of them chosen, and when each was heard last. -/
structure Directory where
  cursor : Cursor Stations.Identity
  heard : Stations.Identity → Int

namespace Directory

/-- What a directory sees of the actions of the workers. -/
inductive Event where
  | announced (k : Stations.Identity) (made refreshed : Int)
  | swept (now : Nat → Int)
  | up
  | down
  | other

def empty : Directory where
  cursor := .empty
  heard := fun _ => 0

/-- The name of an identity. -/
def nameOf (k : Stations.Identity) : List Char := (ofLex k).1

section Steps
variable (prioStationName : Option (List Char)) (d : Directory)

/-- The station bears the name that the user prefers. -/
def Preferred (k : Stations.Identity) : Prop := prioStationName = some (nameOf k)

instance : DecidablePred (Preferred prioStationName) := fun k =>
  inferInstanceAs (Decidable (prioStationName = some (nameOf k)))

/-- A station that is known is heard of again, another one is added. -/
def announce (k : Stations.Identity) (made refreshed : Int) : Directory :=
  if k ∈ d.cursor.keys then { d with heard := Function.update d.heard k refreshed }
  else
    { cursor := d.cursor.add (Preferred prioStationName) k
      heard := Function.update d.heard k made }

/-- The station was heard of lately. The stations are examined in order. -/
def Fresh (now : Nat → Int) (k : Stations.Identity) : Prop :=
  now (rank d.cursor.keys k) - d.heard k < Stations.removalThreshold

instance (now : Nat → Int) : DecidablePred (d.Fresh now) := fun k =>
  inferInstanceAs (Decidable (_ - d.heard k < Stations.removalThreshold))

/-- Only the fresh stations stay. -/
def sweep (now : Nat → Int) : Directory :=
  { d with cursor := d.cursor.retain (d.Fresh now) (Preferred prioStationName) }

def step : Event → Directory
  | .announced k made refreshed => d.announce prioStationName k made refreshed
  | .swept now => d.sweep prioStationName now
  | .up => { d with cursor := d.cursor.up }
  | .down => { d with cursor := d.cursor.down }
  | .other => d

/-- The directory after a list of events. -/
def run (events : List Event) : Directory := events.foldl (step prioStationName) d

end Steps

/-- Without a command the choice changes only when a station comes or goes. -/
theorem chosen_step_of_keys {prioStationName : Option (List Char)} {d : Directory} {event : Event}
    (hup : event ≠ .up) (hdown : event ≠ .down)
    (h : (d.step prioStationName event).cursor.keys = d.cursor.keys) :
    (d.step prioStationName event).cursor.chosen = d.cursor.chosen := by
  cases event with
  | announced k made refreshed =>
      simp only [step, announce] at h ⊢
      split
      case isTrue => rfl
      case isFalse hnew =>
        rw [if_neg hnew] at h
        exact absurd (h ▸ Finset.mem_insert_self k d.cursor.keys) hnew
  | swept now => exact d.cursor.chosen_retain_of_keys h
  | up => exact absurd rfl hup
  | down => exact absurd rfl hdown
  | other => rfl

/-- The line of a station, marked when it is the chosen one. -/
def menuLine (chosen : Option Stations.Identity) (k : Stations.Identity) : List Char :=
  (if chosen = some k then Stations.chosenMark ++ Stations.bold (nameOf k) else nameOf k) ++
    Stations.newline

/-- The stations in order, with the chosen one marked. -/
def menu (d : Directory) : List Char :=
  Stations.horizontalBar ++ Stations.newline ++ Stations.programName ++ Stations.newline ++
    Stations.horizontalBar ++ Stations.newline ++
    d.cursor.keys.sort.flatMap (menuLine d.cursor.chosen) ++ Stations.horizontalBar

end Directory

namespace Stations

open Directory

/-- What the directory sees of an action. -/
def eventOf (getaddrinfo : List Char → Option Nat) : Action → Directory.Event
  | .handleLookupReply reply srcAddr made refreshed =>
      match RadioStation.ofReply getaddrinfo srcAddr reply made with
      | .ok (some station) => .announced station.key made refreshed
      | _ => .other
  | .removeInactive now => .swept now
  | .cmdMoveUp => .up
  | .cmdMoveDown => .down
  | .popEvent => .other
  | .changeStation => .other

/-- Only the commands of the user move the choice of the directory. -/
theorem eventOf_ne_move (getaddrinfo : List Char → Option Nat) {action : Action}
    (hup : action ≠ .cmdMoveUp) (hdown : action ≠ .cmdMoveDown) :
    eventOf getaddrinfo action ≠ .up ∧ eventOf getaddrinfo action ≠ .down := by
  cases action with
  | handleLookupReply reply srcAddr made refreshed =>
      simp only [eventOf]
      split
      · exact ⟨by simp, by simp⟩
      · exact ⟨by simp, by simp⟩
  | removeInactive now => exact ⟨by simp [eventOf], by simp [eventOf]⟩
  | cmdMoveUp => exact absurd rfl hup
  | cmdMoveDown => exact absurd rfl hdown
  | popEvent => exact ⟨by simp [eventOf], by simp [eventOf]⟩
  | changeStation => exact ⟨by simp [eventOf], by simp [eventOf]⟩

/-- The list of the stations shows the directory. -/
structure Shows (s : Stations) (d : Directory) : Prop where
  valid : s.CurrentValid
  keys : keysOf s.stations = d.cursor.keys
  chosen : keyAt s.stations s.currentStation = d.cursor.chosen
  heard : ∀ n ∈ s.stations.nodes, n.value.lastReply = d.heard n.value.key

variable {s s' : Stations} {d : Directory}

theorem shows_init : init.Shows .empty where
  valid := currentValid_init
  keys := rfl
  chosen := rfl
  heard := by simp [init, NodeSet.empty]

/-- The state of the AudioReceiver and the queues are not shown. -/
theorem Shows.congr (h : s.Shows d) (hstations : s'.stations = s.stations)
    (hcurrent : s'.currentStation = s.currentStation) : s'.Shows d where
  valid := h.valid.congr hstations hcurrent
  keys := hstations ▸ h.keys
  chosen := by rw [hstations, hcurrent, h.chosen]
  heard := hstations ▸ h.heard

/-! ## Announcements -/

theorem find?_eq_none_iff_of_shows (h : s.Shows d) (station : RadioStation) :
    s.stations.find? station = none ↔ station.key ∉ d.cursor.keys := by
  rw [s.stations.find?_eq_none_iff, ← h.keys, mem_keysOf]
  simp

theorem Shows.refresh (h : s.Shows d) {station : RadioStation} {it : Nat}
    (hfind : s.stations.find? station = some it) (now : Int) :
    Shows { s with
      stations := s.stations.update it (RadioStation.updateLastReply now)
        (RadioStation.key_updateLastReply now) }
      { d with heard := Function.update d.heard station.key now } where
  valid := (refresh_effect h.valid it now).currentValid h.valid
  keys := by
    rw [← h.keys]
    exact keysOf_update s.stations it _ (RadioStation.key_updateLastReply now)
  chosen := by
    rw [← h.chosen]
    exact keyAt_update s.stations it _ (RadioStation.key_updateLastReply now) s.currentStation
  heard := by
    intro m hm
    rcases mem_nodes_updateLastReply hfind now hm with ⟨hkey, hlast⟩ | ⟨hkey, hmem⟩
    · rw [hlast, hkey]
      exact (Function.update_self station.key now d.heard).symm
    · rw [h.heard m hmem]
      exact (Function.update_of_ne hkey now d.heard).symm

/-- The current station is the new one exactly when the directory chooses it. -/
theorem currentStation_addStation (prioStationName : Option (List Char)) (s : Stations)
    (station : RadioStation) :
    (s.addStation prioStationName station).currentStation =
      if (s.stations.insert station).nodes.length = 1 ∨ prioStationName = some station.name then
        some s.stations.nextId
      else s.currentStation := by
  unfold addStation
  extract_lets inserted chosen
  unfold chosen
  split
  · rfl
  · rfl

theorem Shows.addStation (h : s.Shows d) (prioStationName : Option (List Char))
    {station : RadioStation} (hfind : s.stations.find? station = none) :
    (s.addStation prioStationName station).Shows
      { cursor := d.cursor.add (Preferred prioStationName) station.key
        heard := Function.update d.heard station.key station.lastReply } where
  valid := (addStation_effect h.valid prioStationName hfind).currentValid h.valid
  keys := by
    rw [stations_addStation, keysOf_insert hfind, h.keys]
    rfl
  chosen := by
    have honly : (s.stations.insert station).nodes.length = 1 ↔ d.cursor.keys = ∅ := by
      rw [NodeSet.length_insert hfind, ← h.keys, keysOf_eq_empty_iff]
      simp
    rw [stations_addStation, currentStation_addStation]
    simp only [honly, Cursor.add]
    split
    case isTrue hchosen =>
      rw [if_pos (by simpa [Preferred, nameOf, RadioStation.key] using hchosen)]
      exact keyAt_insert_new hfind
    case isFalse hkept =>
      rw [if_neg (by simpa [Preferred, nameOf, RadioStation.key] using hkept), ← h.chosen]
      have hne : d.cursor.keys ≠ ∅ := fun hempty => hkept (.inl hempty)
      obtain ⟨k, hk⟩ := Option.ne_none_iff_exists'.mp (mt d.cursor.chosen_none hne)
      rw [h.chosen, hk]
      refine keyAt_of_subset (h.chosen.trans hk) fun n hn _ => ?_
      exact (NodeSet.mem_nodes_insert hfind).mpr (.inr hn)
  heard := by
    intro n hn
    rw [stations_addStation, NodeSet.mem_nodes_insert hfind] at hn
    rcases hn with rfl | hn
    · exact (Function.update_self station.key station.lastReply d.heard).symm
    · have hkey : n.value.key ≠ station.key := s.stations.find?_eq_none_iff.mp hfind n hn
      rw [h.heard n hn]
      exact (Function.update_of_ne hkey station.lastReply d.heard).symm

theorem Shows.handleLookupReply {getaddrinfo : List Char → Option Nat} (h : s.Shows d)
    (prioStationName : Option (List Char)) {reply : LookupReply} {srcAddr : SockAddr}
    {made refreshed : Int}
    (hs : s.handleLookupReply getaddrinfo prioStationName reply srcAddr made refreshed = .ok s') :
    s'.Shows (Directory.step prioStationName d
      (eventOf getaddrinfo (.handleLookupReply reply srcAddr made refreshed))) := by
  obtain ⟨station?, hmade, hs⟩ := bind_eq_ok_iff.mp hs
  simp only [eventOf, hmade]
  cases station? with
  | none =>
      obtain rfl := Except.ok.inj hs
      exact h
  | some station =>
      simp only [Directory.step, announce]
      simp only at hs
      split at hs
      case h_1 it hfind =>
        have hmem : station.key ∈ d.cursor.keys := by
          by_contra hnot
          rw [(find?_eq_none_iff_of_shows h station).mpr hnot] at hfind
          cases hfind
        obtain rfl := Except.ok.inj hs
        rw [if_pos hmem]
        exact h.refresh hfind refreshed
      case h_2 hfind =>
        obtain rfl := Except.ok.inj hs
        rw [if_neg ((find?_eq_none_iff_of_shows h station).mp hfind),
          ← RadioStation.lastReply_of_ofReply hmade]
        exact h.addStation prioStationName hfind

/-! ## Sweeps -/

/-- A station is kept as the directory keeps its key. -/
theorem isActive_iff_fresh (h : s.Shows d) (now : Nat → Int) {j : Nat} {n : Node RadioStation}
    (hj : s.stations.nodes[j]? = some n) :
    isActive now j n.value = true ↔ d.Fresh now n.value.key := by
  rw [isActive, decide_eq_true_iff, Fresh, ← h.keys, rank_of_getElem? hj,
    h.heard n (List.mem_of_getElem? hj)]

theorem keysOf_swept (h : s.Shows d) (now : Nat → Int) :
    keysOf (s.stations.eraseUnless (isActive now)) = d.cursor.keys.filter (d.Fresh now) := by
  rw [keysOf_eraseUnless fun j n hj => isActive_iff_fresh h now hj, h.keys]

/-- The reset chooses the favourite of the stations that are left. -/
theorem keyAt_resetCurrentStation (prioStationName : Option (List Char)) (t : Stations) :
    keyAt t.stations (t.resetCurrentStation prioStationName).currentStation =
      favourite (keysOf t.stations) (Preferred prioStationName) := by
  have hleast := least_filter (s := t.stations) (p := Preferred prioStationName)
  unfold favourite resetCurrentStation setCurrentStation
  cases prioStationName with
  | none =>
      have hempty : (keysOf t.stations).filter (Preferred none) = ∅ := by
        simp [Preferred]
      rw [if_neg (by simp [hempty]), least_keysOf]
      rfl
  | some name =>
      have hnamed : (fun n : Node RadioStation => decide (Preferred (some name) n.value.key)) =
          fun n => decide (n.value.name = name) := by
        funext n
        exact decide_eq_decide.mpr ⟨fun h => (Option.some.inj h).symm, fun h => h ▸ rfl⟩
      rw [hnamed] at hleast
      cases hfind : t.stations.nodes.find? fun n => n.value.name = name with
      | none =>
          rw [hfind] at hleast
          have hempty := least_eq_none_iff.mp hleast
          rw [if_neg (by simp [hempty]), least_keysOf]
          simp [hfind]
      | some n =>
          rw [hfind] at hleast
          have hne : ((keysOf t.stations).filter (Preferred (some name))).Nonempty := by
            refine Finset.nonempty_iff_ne_empty.mpr fun hempty => ?_
            rw [least_eq_none_iff.mpr hempty] at hleast
            rw [Option.map_some, keyAt_of_mem (List.mem_of_find?_eq_some hfind)] at hleast
            cases hleast
          rw [if_pos hne, hleast]
          simp [hfind]

theorem currentStation_removeInactive (prioStationName : Option (List Char)) (s : Stations)
    (now : Nat → Int) :
    (s.removeInactive prioStationName now).currentStation =
      if (s.stations.erased (isActive now)).any fun n => s.currentStation = some n.id then
        (resetCurrentStation prioStationName
          { s with stations := s.stations.eraseUnless (isActive now) }).currentStation
      else s.currentStation := by
  unfold removeInactive
  extract_lets removed remaining announced
  split
  case isTrue hnone =>
    have hnil : s.stations.erased (isActive now) = [] := hnone
    simp [hnil, remaining]
  case isFalse =>
    split
    · rfl
    · rfl

theorem mem_erased_iff_not_fresh (h : s.Shows d) (now : Nat → Int) {n : Node RadioStation}
    (hn : n ∈ s.stations.nodes) :
    n ∈ s.stations.erased (isActive now) ↔ ¬d.Fresh now n.value.key := by
  obtain ⟨i, hi⟩ := List.mem_iff_getElem?.mp hn
  rw [NodeSet.erased, NodeSet.mem_erased_iff]
  simp only [Nat.zero_add]
  constructor
  · rintro ⟨j, hj, hgone⟩
    rw [← isActive_iff_fresh h now hj, hgone]
    simp
  · intro hnot
    refine ⟨i, hi, ?_⟩
    rw [← isActive_iff_fresh h now hi] at hnot
    exact Bool.eq_false_iff.mpr hnot

theorem Shows.removeInactive (h : s.Shows d) (prioStationName : Option (List Char))
    (now : Nat → Int) :
    (s.removeInactive prioStationName now).Shows (d.sweep prioStationName now) where
  valid := (removeInactive_effect h.valid prioStationName now).currentValid h.valid
  keys := by
    rw [stations_removeInactive]
    exact keysOf_swept h now
  chosen := by
    rw [stations_removeInactive, currentStation_removeInactive]
    simp only [Directory.sweep, Cursor.retain]
    cases hchosen : d.cursor.chosen with
    | none =>
        -- nothing is listed and nothing is swept
        have hnil : s.stations.nodes = [] := by
          rw [← keysOf_eq_empty_iff, h.keys, d.cursor.chosen_none hchosen]
        have hcurrent : s.currentStation = none := h.valid.end_iff.mpr hnil
        have hempty : d.cursor.keys.filter (d.Fresh now) = ∅ := by
          simp [d.cursor.chosen_none hchosen]
        have hfavourite : favourite (d.cursor.keys.filter (d.Fresh now))
            (Preferred prioStationName) = none := favourite_eq_none_iff.mpr hempty
        simp [hcurrent, hfavourite, keyAt, NodeSet.deref]
    | some k =>
        obtain ⟨n, hn, hcurrent, rfl⟩ := exists_of_keyAt (h.chosen.trans hchosen)
        have hgone := mem_erased_iff_not_fresh h now hn
        by_cases hfresh : d.Fresh now n.value.key
        · have hstays : n ∈ (s.stations.eraseUnless (isActive now)).nodes := by
            obtain ⟨j, hj⟩ := List.mem_iff_getElem?.mp hn
            exact (s.stations.mem_nodes_eraseUnless _).mpr
              ⟨j, hj, (isActive_iff_fresh h now hj).mpr hfresh⟩
          have hnot : ¬((s.stations.erased (isActive now)).any fun m =>
              s.currentStation = some m.id) = true := by
            intro hany
            obtain ⟨m, hm, hid⟩ := List.any_eq_true.mp hany
            have hmem : m ∈ s.stations.nodes := (NodeSet.mem_sweep_iff ..).mpr (.inr hm)
            rw [hcurrent, decide_eq_true_iff, Option.some.injEq] at hid
            obtain rfl := s.stations.eq_of_id_eq hn hmem hid
            exact hgone.mp hm hfresh
          rw [if_neg hnot, if_pos ⟨_, rfl, hfresh⟩, hcurrent, keyAt_of_mem hstays]
        · have hany : ((s.stations.erased (isActive now)).any fun m =>
              s.currentStation = some m.id) = true :=
            List.any_eq_true.mpr ⟨n, hgone.mpr hfresh, decide_eq_true hcurrent⟩
          rw [if_pos hany, if_neg (by simpa using hfresh), ← keysOf_swept h now]
          exact keyAt_resetCurrentStation prioStationName _
  heard := by
    intro n hn
    rw [stations_removeInactive, NodeSet.mem_nodes_eraseUnless] at hn
    obtain ⟨j, hj, -⟩ := hn
    exact h.heard n (List.mem_of_getElem? hj)

/-! ## Moves -/

/-- A move up shows the neighbour below the key that was shown, if there is one. -/
theorem keyAt_cmdMoveUp (hv : s.CurrentValid) (hs : s.cmdMoveUp = .ok s') :
    keyAt s'.stations s'.currentStation =
      (keyAt s.stations s.currentStation).map (below (keysOf s.stations)) := by
  rw [stations_cmdMoveUp hs]
  unfold cmdMoveUp at hs
  split at hs
  case isTrue hmoves =>
    obtain ⟨i, -, hi, hmem, -, -⟩ := hv.exists_deref hmoves.1
    obtain ⟨j, hprev, hj⟩ := exists_prev_below hmem (hi ▸ hmoves.2.symm)
    rw [hi, hprev] at hs
    obtain rfl := Except.ok.inj hs
    rw [hi]
    exact hj
  case isFalse hstays =>
    obtain rfl := Except.ok.inj hs
    by_cases hnil : s.stations.nodes = []
    · rw [hv.end_iff.mpr hnil]
      rfl
    · obtain ⟨i, -, hi, -, -, -⟩ := hv.exists_deref hnil
      have hbegin : s.stations.begin = some i := by
        by_contra hne
        exact hstays ⟨hnil, fun heq => hne (heq.symm.trans hi)⟩
      rw [hi, below_begin hbegin]

theorem keyAt_cmdMoveDown (hv : s.CurrentValid) (hs : s.cmdMoveDown = .ok s') :
    keyAt s'.stations s'.currentStation =
      (keyAt s.stations s.currentStation).map (above (keysOf s.stations)) := by
  rw [stations_cmdMoveDown hs]
  unfold cmdMoveDown at hs
  split at hs
  case isTrue hmoves =>
    obtain ⟨i, -, hi, hmem, -, -⟩ := hv.exists_deref hmoves.1
    obtain ⟨j, hnext, hj⟩ := exists_next_above hmem (hi ▸ hmoves.2.symm)
    rw [hi, hnext] at hs
    obtain rfl := Except.ok.inj hs
    rw [hi]
    exact hj
  case isFalse hstays =>
    obtain rfl := Except.ok.inj hs
    by_cases hnil : s.stations.nodes = []
    · rw [hv.end_iff.mpr hnil]
      rfl
    · obtain ⟨i, -, hi, -, -, -⟩ := hv.exists_deref hnil
      have hlast : s.stations.last = some i := by
        by_contra hne
        exact hstays ⟨hnil, fun heq => hne (heq.symm.trans hi)⟩
      rw [hi, above_last hlast]

theorem Shows.cmdMoveUp (h : s.Shows d) (hs : s.cmdMoveUp = .ok s') :
    s'.Shows { d with cursor := d.cursor.up } := by
  obtain ⟨t, ht, heffect⟩ := cmdMoveUp_effect h.valid
  obtain rfl := Except.ok.inj (ht.symm.trans hs)
  refine ⟨heffect.currentValid h.valid, ?_, ?_, stations_cmdMoveUp hs ▸ h.heard⟩
  · rw [stations_cmdMoveUp hs]
    exact h.keys
  · rw [keyAt_cmdMoveUp h.valid hs, h.chosen, h.keys]
    rfl

theorem Shows.cmdMoveDown (h : s.Shows d) (hs : s.cmdMoveDown = .ok s') :
    s'.Shows { d with cursor := d.cursor.down } := by
  obtain ⟨t, ht, heffect⟩ := cmdMoveDown_effect h.valid
  obtain rfl := Except.ok.inj (ht.symm.trans hs)
  refine ⟨heffect.currentValid h.valid, ?_, ?_, stations_cmdMoveDown hs ▸ h.heard⟩
  · rw [stations_cmdMoveDown hs]
    exact h.keys
  · rw [keyAt_cmdMoveDown h.valid hs, h.chosen, h.keys]
    rfl

/-! ## Runs -/

variable {getaddrinfo : List Char → Option Nat} {prioStationName : Option (List Char)}

/-- Every step of the workers is a step of the directory. -/
theorem Shows.step (h : s.Shows d) {a : Action}
    (hs : step getaddrinfo prioStationName s a = .ok s') :
    s'.Shows (Directory.step prioStationName d (eventOf getaddrinfo a)) := by
  cases a with
  | handleLookupReply reply srcAddr made refreshed =>
      exact h.handleLookupReply prioStationName hs
  | removeInactive now =>
      obtain rfl := Except.ok.inj hs
      exact h.removeInactive prioStationName now
  | cmdMoveUp => exact h.cmdMoveUp hs
  | cmdMoveDown => exact h.cmdMoveDown hs
  | popEvent =>
      simp only [Stations.step] at hs
      split at hs
      · obtain rfl := Except.ok.inj hs
        exact h
      · obtain rfl := Except.ok.inj hs
        unfold popEvent
        split
        · exact h
        · exact h.congr rfl rfl
  | changeStation =>
      simp only [Stations.step] at hs
      split at hs
      · have hcurrent : s'.currentStation = s.currentStation := by
          unfold Stations.changeStation at hs
          extract_lets closed at hs
          split at hs
          · obtain rfl := Except.ok.inj hs
            rfl
          · obtain ⟨station, -, hs⟩ := bind_eq_ok_iff.mp hs
            obtain rfl := Except.ok.inj hs
            rfl
        exact h.congr (stations_changeStation hs) hcurrent
      · obtain rfl := Except.ok.inj hs
        exact h

theorem Shows.run (h : s.Shows d) {actions : List Action}
    (hrun : run getaddrinfo prioStationName s actions = .ok s') :
    s'.Shows (d.run prioStationName (actions.map (eventOf getaddrinfo))) := by
  induction actions generalizing s d with
  | nil =>
      obtain rfl := Except.ok.inj hrun
      exact h
  | cons a actions ih =>
      obtain ⟨t, hs, hrest⟩ := bind_eq_ok_iff.mp hrun
      exact ih (h.step hs) hrest

/-- Every state with a valid current station shows some directory. -/
theorem CurrentValid.exists_shows (hv : s.CurrentValid) : ∃ d, s.Shows d := by
  have hmem (k : Identity) (hk : keyAt s.stations s.currentStation = some k) :
      k ∈ keysOf s.stations := by
    obtain ⟨n, hn, -, rfl⟩ := exists_of_keyAt hk
    exact mem_keysOf.mpr ⟨n, hn, rfl⟩
  have hnone (hk : keyAt s.stations s.currentStation = none) : keysOf s.stations = ∅ := by
    by_contra hne
    obtain ⟨i, station, hi, -, -, hderef⟩ :=
      hv.exists_deref fun hnil => hne (keysOf_eq_empty_iff.mpr hnil)
    simp [keyAt, hderef] at hk
  let heard (k : Identity) : Int :=
    ((s.stations.nodes.find? fun n => n.value.key = k).map fun n => n.value.lastReply).getD 0
  refine ⟨⟨⟨_, _, hmem, hnone⟩, heard⟩, hv, rfl, rfl, fun n hn => ?_⟩
  have hfind : s.stations.nodes.find? (fun m => m.value.key = n.value.key) = some n := by
    cases hfound : s.stations.nodes.find? fun m => m.value.key = n.value.key with
    | none =>
        have hnot := List.find?_eq_none.mp hfound n hn
        simp at hnot
    | some m =>
        have hkey : m.value.key = n.value.key := by simpa using List.find?_some hfound
        rw [s.stations.eq_of_key_eq (List.mem_of_find?_eq_some hfound) hn hkey]
  simp [heard, hfind]

/-! ## The menu -/

/-- The stations are listed in the order of their keys. -/
theorem sort_keys (h : s.Shows d) :
    d.cursor.keys.sort = s.stations.nodes.map fun n => n.value.key := by
  rw [← h.keys, keysOf, List.toFinset_sort _ s.stations.nodup_keys]
  exact List.pairwise_map.mpr (s.stations.sorted.imp fun hlt => hlt.le)

/-- A line is marked when it is the line of the chosen station. -/
theorem Shows.menuLine (h : s.Shows d) {n : Node RadioStation} (hn : n ∈ s.stations.nodes) :
    Stations.menuLine s.currentStation n = Directory.menuLine d.cursor.chosen n.value.key := by
  have hmark : some n.id = s.currentStation ↔ d.cursor.chosen = some n.value.key := by
    rw [← h.chosen]
    constructor
    · intro hcurrent
      rw [← hcurrent, keyAt_of_mem hn]
    · intro hkey
      obtain ⟨m, hm, hcurrent, hk⟩ := exists_of_keyAt hkey
      rw [hcurrent, s.stations.eq_of_key_eq hm hn hk]
  simp only [Stations.menuLine, Directory.menuLine, hmark]
  rfl

theorem Shows.menuToStr (h : s.Shows d) : s.menuToStr = d.menu := by
  have hlines : s.stations.nodes.flatMap (Stations.menuLine s.currentStation) =
      d.cursor.keys.sort.flatMap (Directory.menuLine d.cursor.chosen) := by
    rw [sort_keys h, List.flatMap_map]
    exact List.flatMap_congr fun n hn => h.menuLine hn
  rw [Stations.menuToStr, Directory.menu, hlines]

/-- After every interleaving of the workers the list of the stations and the menu are those of a
directory that was told what the workers heard, when they read the clock and which commands they
carried out. -/
theorem run_refines_directory {actions : List Action}
    (hrun : Stations.run getaddrinfo prioStationName init actions = .ok s) :
    s.Shows (Directory.empty.run prioStationName (actions.map (eventOf getaddrinfo))) ∧
      s.menuToStr =
        (Directory.empty.run prioStationName (actions.map (eventOf getaddrinfo))).menu :=
  ⟨shows_init.run hrun, (shows_init.run hrun).menuToStr⟩

section Example

/-- Two stations are heard of, the second one is chosen, and only the first is heard of again. -/
def outlived : List Action :=
  [announcement ['A'] 0, announcement ['B'] 1, .cmdMoveDown,
    announcement ['A'] (19 * 10 ^ 9), .removeInactive fun _ => 21 * 10 ^ 9]

theorem run_refines_directory_outlived :
    ∃ s, Stations.run (fun _ => some 7) none init outlived = .ok s ∧
      s.Shows (Directory.empty.run none (outlived.map (eventOf fun _ => some 7))) ∧
      s.menuToStr = (Directory.empty.run none (outlived.map (eventOf fun _ => some 7))).menu :=
  exists_ok_and (by decide) fun _ hrun => run_refines_directory hrun

-- the choice falls back to the station that is left
example : (Directory.empty.run none (outlived.map (eventOf fun _ => some 7))).cursor.chosen.map
    nameOf = some ['A'] := by decide

end Example

end Stations

end SikRadio.Receiver
