import SikRadio.Receiver.StationSteps

/-!
# Changes of the menu

Every worker that changes the list of stations or the current station tells the
UiMenu with an event, except for the two commands: a move is announced to nobody,
since the UiMenu itself makes it and sends the menu.
-/

namespace SikRadio.Receiver

open SikRadio.Common Foundations.CheckedRuns Foundations.OrderedNodes

namespace Stations

/-- The events that say that the list of stations changed. -/
def Announces (event : EventType) : Prop := event = .stationAdded ∨ event = .stationRemoved

/-- The menu stays as it is, or its change is announced to the UiMenu. -/
def Announced (s s' : Stations) : Prop :=
  (s'.uiMenuEvent = s.uiMenuEvent ∧ s'.menuToStr = s.menuToStr) ∨
    ∃ event, Announces event ∧ s'.uiMenuEvent = s.uiMenuEvent ++ [event]

variable {s s' : Stations}

theorem Announced.refl (s : Stations) : Announced s s := .inl ⟨rfl, rfl⟩

/-- The menu shows the set and the current station and nothing else. -/
theorem Announced.of_eq (hevent : s'.uiMenuEvent = s.uiMenuEvent)
    (hstations : s'.stations = s.stations) (hcurrent : s'.currentStation = s.currentStation) :
    Announced s s' := by
  refine .inl ⟨hevent, ?_⟩
  rw [menuToStr, menuToStr, hstations, hcurrent]

/-- A line shows the name of a station and whether it is the current one. -/
theorem menuToStr_refresh (s : Stations) (it : Nat) (now : Int) :
    menuToStr { s with
      stations := s.stations.update it (RadioStation.updateLastReply now)
        (RadioStation.key_updateLastReply now) } = s.menuToStr := by
  have hline (n : Node RadioStation) :
      menuLine s.currentStation
        (if n.id = it then ⟨n.id, n.value.updateLastReply now⟩ else n) =
      menuLine s.currentStation n := by
    split
    · rfl
    · rfl
  simp only [menuToStr, NodeSet.update, List.flatMap_map, hline]

theorem announced_addStation (prioStationName : Option (List Char)) (s : Stations)
    (station : RadioStation) : Announced s (s.addStation prioStationName station) := by
  refine .inr ⟨.stationAdded, .inl rfl, ?_⟩
  unfold addStation
  extract_lets inserted chosen
  have hchosen : chosen.uiMenuEvent = s.uiMenuEvent := by
    unfold chosen
    split
    · rfl
    · rfl
  rw [hchosen]

theorem announced_removeInactive (prioStationName : Option (List Char)) (s : Stations)
    (now : Nat → Int) : Announced s (s.removeInactive prioStationName now) := by
  unfold removeInactive
  extract_lets removed remaining announced
  split
  case isTrue hnone =>
    have hsame : s.stations.eraseUnless (isActive now) = s.stations :=
      s.stations.eraseUnless_eq_self (isActive now) hnone
    exact .of_eq rfl hsame rfl
  case isFalse =>
    refine .inr ⟨.stationRemoved, .inr rfl, ?_⟩
    split
    · rfl
    · rfl

theorem announced_popEvent (s : Stations) : Announced s s.popEvent := by
  unfold popEvent
  split
  · exact .refl s
  · exact .of_eq rfl rfl rfl

theorem announced_changeStation (hs : s.changeStation = .ok s') : Announced s s' := by
  unfold changeStation at hs
  extract_lets closed at hs
  split at hs
  · obtain rfl := Except.ok.inj hs
    exact .of_eq rfl rfl rfl
  · obtain ⟨station, -, hs⟩ := bind_eq_ok_iff.mp hs
    obtain rfl := Except.ok.inj hs
    exact .of_eq rfl rfl rfl

/-- Every step of another worker announces the change it makes to the menu. -/
theorem announced_step {getaddrinfo : List Char → Option Nat}
    {prioStationName : Option (List Char)} {action : Action} (hup : action ≠ .cmdMoveUp)
    (hdown : action ≠ .cmdMoveDown) (hs : s.step getaddrinfo prioStationName action = .ok s') :
    Announced s s' := by
  cases action with
  | handleLookupReply reply srcAddr made refreshed =>
      obtain ⟨station?, -, hs⟩ := bind_eq_ok_iff.mp hs
      cases station? with
      | none =>
          obtain rfl := Except.ok.inj hs
          exact .refl s
      | some station =>
          simp only at hs
          split at hs
          · obtain rfl := Except.ok.inj hs
            exact .inl ⟨rfl, menuToStr_refresh s _ refreshed⟩
          · obtain rfl := Except.ok.inj hs
            exact announced_addStation prioStationName s station
  | removeInactive now =>
      obtain rfl := Except.ok.inj hs
      exact announced_removeInactive prioStationName s now
  | cmdMoveUp => exact absurd rfl hup
  | cmdMoveDown => exact absurd rfl hdown
  | popEvent =>
      simp only [step] at hs
      split at hs
      · obtain rfl := Except.ok.inj hs
        exact .refl s
      · obtain rfl := Except.ok.inj hs
        exact announced_popEvent s
  | changeStation =>
      simp only [step] at hs
      split at hs
      · exact announced_changeStation hs
      · obtain rfl := Except.ok.inj hs
        exact .refl s

/-- A move announces nothing; the UiMenu itself sends the menu. -/
theorem uiMenuEvent_moved {it : Option (Option Nat)}
    (hs : (do let i ← moved it; return s.setCurrentStation i) = Except.ok s') :
    s'.uiMenuEvent = s.uiMenuEvent := by
  obtain ⟨i, -, hs⟩ := bind_eq_ok_iff.mp hs
  obtain rfl := Except.ok.inj hs
  rfl

theorem uiMenuEvent_cmdMoveUp (hs : s.cmdMoveUp = .ok s') : s'.uiMenuEvent = s.uiMenuEvent := by
  unfold cmdMoveUp at hs
  split at hs
  · exact uiMenuEvent_moved hs
  · obtain rfl := Except.ok.inj hs
    rfl

theorem uiMenuEvent_cmdMoveDown (hs : s.cmdMoveDown = .ok s') :
    s'.uiMenuEvent = s.uiMenuEvent := by
  unfold cmdMoveDown at hs
  split at hs
  · exact uiMenuEvent_moved hs
  · obtain rfl := Except.ok.inj hs
    rfl

end Stations

end SikRadio.Receiver
