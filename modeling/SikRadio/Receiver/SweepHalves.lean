import SikRadio.Receiver.MenuFreshness

/-!
# A menu in the middle of a sweep

`remove_inactive` queues its event before it resets the current station, and the
UiMenu reads events and stations without a lock. A menu that it sends in between is
out of date when the current station is reset, and no event follows. On every
interleaving without such a menu, an event waits for the UiMenu or the clients see
the menu as it is.

## Implementation notes

The two halves of `remove_inactive` are steps of their own; between them the locks of
the stations are taken, and the AudioReceiver can still pop an event.
-/

namespace SikRadio.Receiver

open SikRadio.Common Foundations.CheckedRuns Foundations.OrderedNodes

/-! ## The two halves -/

namespace Stations

/-- The first half of `remove_inactive`, and whether the current station is to be reset. -/
def eraseInactive (s : Stations) (now : Nat → Int) : Stations × Bool :=
  let removed := s.stations.erased (isActive now)
  let remaining : Stations := { s with stations := s.stations.eraseUnless (isActive now) }
  if removed = [] then (remaining, false)
  else ({ remaining with uiMenuEvent := s.uiMenuEvent ++ [.stationRemoved] },
    removed.any fun n => s.currentStation = some n.id)

/-- The two halves together. -/
theorem removeInactive_eq (prioStationName : Option (List Char)) (s : Stations)
    (now : Nat → Int) :
    s.removeInactive prioStationName now =
      if (s.eraseInactive now).2 then (s.eraseInactive now).1.resetCurrentStation prioStationName
      else (s.eraseInactive now).1 := by
  unfold removeInactive eraseInactive
  by_cases hnone : s.stations.erased (isActive now) = []
  · simp [hnone]
  · simp [hnone]

/-- The event is queued before the current station is reset. -/
theorem uiMenuEvent_eraseInactive {s : Stations} {now : Nat → Int} (hreset : (s.eraseInactive now).2 = true) :
    (s.eraseInactive now).1.uiMenuEvent ≠ [] := by
  unfold eraseInactive at hreset ⊢
  by_cases hnone : s.stations.erased (isActive now) = []
  · simp [hnone] at hreset
  · simp [hnone]

/-- It makes no difference on which side of the first half the AudioReceiver pops an event. -/
theorem eraseInactive_popEvent (s : Stations) (now : Nat → Int) :
    s.popEvent.eraseInactive now =
      ((s.eraseInactive now).1.popEvent, (s.eraseInactive now).2) := by
  have hqueue : (s.eraseInactive now).1.audioReceiverEvent = s.audioReceiverEvent := by
    unfold eraseInactive
    extract_lets removed remaining
    split <;> rfl
  unfold popEvent
  rw [hqueue]
  cases s.audioReceiverEvent with
  | nil => rfl
  | cons event rest =>
      unfold eraseInactive
      by_cases hnone : s.stations.erased (isActive now) = []
      · simp [hnone]
      · simp [hnone]

end Stations

namespace UiMenu

/-! ## The workers and the halves -/

/-- The UiMenu and the workers. `resetting` holds between the halves of `remove_inactive`, when the
current station may be an erased one. -/
structure Sweeping where
  menu : UiMenu
  resetting : Bool

namespace Sweeping

inductive Action where
  | menu (action : UiMenu.Action)
  | resetCurrentStation

def init (eventFd serverFd : Int) : Sweeping := ⟨.init eventFd serverFd, false⟩

/-- What takes the locks of the stations waits between the halves. -/
def step (getaddrinfo : List Char → Option Nat) (prioStationName : Option (List Char))
    (s : Sweeping) : Action → Except Fault Sweeping
  | .resetCurrentStation =>
      if s.resetting then
        let stations := s.menu.stations.resetCurrentStation prioStationName
        .ok ⟨{ s.menu with stations }, false⟩
      else .ok s
  | .menu (.other (.removeInactive now)) =>
      if s.resetting then .ok s
      else
        let (stations, resetting) := s.menu.stations.eraseInactive now
        .ok ⟨{ s.menu with stations }, resetting⟩
  | .menu (.other .popEvent) => do
      let menu ← s.menu.step getaddrinfo prioStationName (.other .popEvent)
      return { s with menu }
  | .menu (.other action) =>
      if s.resetting then .ok s
      else do
        let menu ← s.menu.step getaddrinfo prioStationName (.other action)
        return { s with menu }
  | .menu (.handle event) => do
      let menu ← s.menu.step getaddrinfo prioStationName (.handle event)
      return { s with menu }

def run (getaddrinfo : List Char → Option Nat) (prioStationName : Option (List Char))
    (s : Sweeping) (actions : List Action) : Except Fault Sweeping :=
  actions.foldlM (step getaddrinfo prioStationName) s

/-- The UiMenu takes no step between the halves, and accepted connections have fresh descriptors. -/
def Undisturbed (s : Sweeping) : Action → Prop
  | .menu (.handle event) => s.resetting = false ∧ s.menu.FreshDescriptor (.handle event)
  | _ => True

instance (s : Sweeping) : (action : Action) → Decidable (s.Undisturbed action)
  | .menu (.handle event) => inferInstanceAs
      (Decidable (s.resetting = false ∧ s.menu.FreshDescriptor (.handle event)))
  | .menu (.other _) | .resetCurrentStation => isTrue trivial

/-- Between the halves the state is that of a menu that was up to date, with the first half done. -/
def Current (s : Sweeping) : Prop :=
  if s.resetting then
    ∃ before now, UpToDate before ∧ (before.stations.eraseInactive now).2 = true ∧
      s.menu = { before with stations := (before.stations.eraseInactive now).1 }
  else UpToDate s.menu

/-- Another worker ends the program. -/
def Ends (getaddrinfo : List Char → Option Nat) : Action → Prop
  | .menu action => EndsProgram getaddrinfo action
  | .resetCurrentStation => False

variable {s s' : Sweeping} {getaddrinfo : List Char → Option Nat}
  {prioStationName : Option (List Char)}

theorem Current.menusCurrent (h : s.Current) : MenusCurrent s.menu := by
  unfold Current at h
  split at h
  case isTrue =>
    obtain ⟨before, now, -, hreset, hmenu⟩ := h
    left
    rw [hmenu]
    exact Stations.uiMenuEvent_eraseInactive hreset
  case isFalse => exact h.current

theorem current_of_upToDate {menu : UiMenu} (h : UpToDate menu) : Current ⟨menu, false⟩ := h

/-- A sweep that erases the current station stops halfway; any other is complete. -/
theorem current_eraseInactive {menu : UiMenu} (h : UpToDate menu) (now : Nat → Int) :
    Current ⟨{ menu with stations := (menu.stations.eraseInactive now).1 },
      (menu.stations.eraseInactive now).2⟩ := by
  unfold Current
  split
  case isTrue hreset => exact ⟨menu, now, h, hreset, rfl⟩
  case isFalse hreset =>
    have hwhole := Stations.removeInactive_eq none menu.stations now
    rw [if_neg hreset] at hwhole
    have hvalid := (Stations.removeInactive_effect h.sound.valid none now).currentValid h.sound.valid
    have hannounced := Stations.announced_removeInactive none menu.stations now
    rw [hwhole] at hvalid hannounced
    exact h.other hannounced hvalid

/-- The second half completes the sweep. -/
theorem Current.reset (h : s.Current) (hresetting : s.resetting = true)
    (prioStationName : Option (List Char)) :
    UpToDate { s.menu with
      stations := s.menu.stations.resetCurrentStation prioStationName } := by
  unfold Current at h
  rw [if_pos hresetting] at h
  obtain ⟨before, now, hbefore, hreset, hmenu⟩ := h
  have hwhole := Stations.removeInactive_eq prioStationName before.stations now
  rw [if_pos hreset] at hwhole
  have hvalid := (Stations.removeInactive_effect hbefore.sound.valid prioStationName
    now).currentValid hbefore.sound.valid
  have hannounced := Stations.announced_removeInactive prioStationName before.stations now
  rw [hwhole] at hvalid hannounced
  rw [hmenu]
  exact hbefore.other hannounced hvalid

/-- What the AudioReceiver pops is no matter of the menu. -/
theorem upToDate_popEvent {menu : UiMenu} (h : UpToDate menu) :
    UpToDate { menu with stations := menu.stations.popEvent } := by
  have hvalid : menu.stations.popEvent.CurrentValid := by
    unfold Stations.popEvent
    split
    · exact h.sound.valid
    · exact h.sound.valid.congr rfl rfl
  exact h.other (Stations.announced_popEvent menu.stations) hvalid

theorem Current.popEvent (h : s.Current) :
    Current { s with menu := { s.menu with stations := s.menu.stations.popEvent } } := by
  unfold Current at h ⊢
  split
  case isTrue hresetting =>
    rw [if_pos hresetting] at h
    obtain ⟨before, now, hbefore, hreset, hmenu⟩ := h
    have hpop := Stations.eraseInactive_popEvent before.stations now
    refine ⟨_, now, upToDate_popEvent hbefore, ?_, ?_⟩
    · rw [hpop]
      exact hreset
    · rw [hmenu, hpop]
  case isFalse hresetting =>
    rw [if_neg hresetting] at h
    exact upToDate_popEvent h

/-- Outside a sweep the workers do what they do without the halves. -/
theorem Current.exists_menu (h : s.Current) (hidle : s.resetting = false)
    (getaddrinfo : List Char → Option Nat) (prioStationName : Option (List Char))
    {action : UiMenu.Action} (hfresh : s.menu.FreshDescriptor action) :
    (∃ s', (do
        let menu ← s.menu.step getaddrinfo prioStationName action
        return { s with menu }) = Except.ok s' ∧ s'.Current) ∨
      ((do
        let menu ← s.menu.step getaddrinfo prioStationName action
        return { s with menu }) = Except.error .fatal ∧ EndsProgram getaddrinfo action) := by
  unfold Current at h
  rw [if_neg (by simp [hidle])] at h
  rcases h.exists_step getaddrinfo prioStationName hfresh with ⟨menu, hs, hmenu⟩ | ⟨hs, hends⟩
  · refine .inl ⟨{ s with menu }, by rw [hs]; rfl, ?_⟩
    unfold Current
    rw [if_neg (by simp [hidle])]
    exact hmenu
  · rw [hs]
    exact .inr ⟨rfl, hends⟩

theorem Current.exists_step (h : s.Current) (getaddrinfo : List Char → Option Nat)
    (prioStationName : Option (List Char)) {action : Action} (hguard : s.Undisturbed action) :
    (∃ s', step getaddrinfo prioStationName s action = .ok s' ∧ s'.Current) ∨
      (step getaddrinfo prioStationName s action = .error .fatal ∧ Ends getaddrinfo action) := by
  cases action with
  | resetCurrentStation =>
      left
      by_cases hresetting : s.resetting = true
      · exact ⟨_, if_pos hresetting, current_of_upToDate (h.reset hresetting prioStationName)⟩
      · exact ⟨s, if_neg hresetting, h⟩
  | menu action =>
      cases action with
      | handle event => exact h.exists_menu hguard.1 getaddrinfo prioStationName hguard.2
      | other action =>
          have hwaits : (∃ s', (if s.resetting then Except.ok s
                else do
                  let menu ← s.menu.step getaddrinfo prioStationName (.other action)
                  return { s with menu }) = Except.ok s' ∧ s'.Current) ∨
              ((if s.resetting then Except.ok s
                else do
                  let menu ← s.menu.step getaddrinfo prioStationName (.other action)
                  return { s with menu }) = Except.error .fatal ∧
                EndsProgram getaddrinfo (.other action)) := by
            split
            case isTrue => exact .inl ⟨s, rfl, h⟩
            case isFalse hidle =>
              exact h.exists_menu (eq_false_of_ne_true hidle) getaddrinfo prioStationName trivial
          cases action with
          | removeInactive now =>
              left
              by_cases hresetting : s.resetting = true
              · exact ⟨s, if_pos hresetting, h⟩
              · unfold Current at h
                rw [if_neg hresetting] at h
                exact ⟨_, if_neg hresetting, current_eraseInactive h now⟩
          | popEvent =>
              left
              by_cases hchanging : s.menu.stations.changing = true
              · refine ⟨s, ?_, h⟩
                simp only [step, UiMenu.step, Stations.step, if_pos hchanging]
                rfl
              · refine ⟨_, ?_, h.popEvent⟩
                simp only [step, UiMenu.step, Stations.step, if_neg hchanging]
                rfl
          | _ => exact hwaits

end Sweeping

/-- On every interleaving of the UiMenu with the other workers in which it takes no step between
the halves of a sweep, an event waits for the UiMenu or every client that `send_to_all` visits sees
the menu as it is, unless another worker ends the program. -/
theorem menus_current (getaddrinfo : List Char → Option Nat)
    (prioStationName : Option (List Char)) (eventFd serverFd : Int)
    {actions : List Sweeping.Action}
    (hguard : Guarded (Sweeping.step getaddrinfo prioStationName) Sweeping.Undisturbed
      (.init eventFd serverFd) actions) :
    (∃ s, Sweeping.run getaddrinfo prioStationName (.init eventFd serverFd) actions = .ok s ∧
        MenusCurrent s.menu) ∨
      (Sweeping.run getaddrinfo prioStationName (.init eventFd serverFd) actions =
          .error .fatal ∧
        ∃ a ∈ actions, Sweeping.Ends getaddrinfo a) := by
  have hstep (s : Sweeping) (a : Sweeping.Action) (h : s.Current) (hguard : s.Undisturbed a) :=
    h.exists_step getaddrinfo prioStationName hguard
  apply (ok_or_of_guarded hstep (Sweeping.current_of_upToDate
    (upToDate_init eventFd serverFd)) hguard).imp_left
  rintro ⟨s, hs, h⟩
  exact ⟨s, hs, h.menusCurrent⟩

section Example

/-- A client connects, and a station is heard of, which the client is then shown. -/
def announcedStation : List Action :=
  telnetRound server 'x' true ++
    [.other (.handleLookupReply ⟨['h'], 5, ['R']⟩ ⟨1, 2⟩ 0 0)] ++ telnetRound 2 Stations.esc true

/-- The station falls silent, and the client is shown the empty list. -/
def silencedStation : List Sweeping.Action :=
  announcedStation.map .menu ++
    [.menu (.other (.removeInactive fun _ => 20 * 10 ^ 9)), .resetCurrentStation] ++
    (telnetRound 2 Stations.esc true).map .menu

theorem menus_current_silencedStation :
    ∃ s, Sweeping.run (fun _ => some 1) none (.init 3 4) silencedStation = .ok s ∧
      MenusCurrent s.menu := by
  apply (menus_current (fun _ => some 1) none 3 4 (by decide +kernel)).resolve_right
  rintro ⟨hrun, -⟩
  have hok : (Sweeping.run (fun _ => some 1) none (.init 3 4) silencedStation).isOk = true := by
    decide +kernel
  rw [hrun] at hok
  cases hok

/-- Two stations are heard of, the current one falls silent, and the UiMenu sends the menu before
the other one becomes current. -/
def disturbedSweep : List Sweeping.Action :=
  announcedStation.map .menu ++
    [.menu (.other (.handleLookupReply ⟨['h'], 5, ['S']⟩ ⟨1, 2⟩ (10 ^ 10) (10 ^ 10)))] ++
    [.menu (.other (.removeInactive fun _ => 20 * 10 ^ 9))] ++
    (telnetRound 2 Stations.esc true ++ telnetRound 2 Stations.esc true).map .menu ++
    [.resetCurrentStation]

-- no event waits, and the client does not see the menu as it is
example : (Sweeping.run (fun _ => some 1) none (.init 3 4) disturbedSweep).toOption.map (fun s =>
    (s.menu.stations.uiMenuEvent, (s.menu.pollFds 2).fd,
      decide (s.menu.lastWritten 5 = some (clear ++ s.menu.menuToStr)))) = some ([], 5, false) := by
  decide +kernel

end Example

end UiMenu

end SikRadio.Receiver
