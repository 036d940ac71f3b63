import SikRadio.Receiver.ArrowKeys
import SikRadio.Receiver.Directory

/-!
# The keys walk along the list

All clients move one choice. While no station comes or goes, its position in the
list is where the commands of all clients lead, one line up or down each and
never past an end, however the commands interleave with events, connections,
failed writes and the steps of the other workers.

## Implementation notes

Positions count from 0. `applied` holds the commands in the order in which the
UiMenu carried them out.
-/

namespace SikRadio.Receiver

open SikRadio.Common Foundations.CheckedRuns Foundations.OrderedNodes Foundations.Cursors

namespace Stations

/-- The line of the current station in the list. -/
def position (s : Stations) : Option Nat :=
  s.stations.nodes.findIdx? fun n => some n.id = s.currentStation

variable {s s' : Stations}

/-- The position in the list is the position of the key. -/
theorem position_eq (s : Stations) :
    s.position = (keyAt s.stations s.currentStation).map (rank (keysOf s.stations)) := by
  cases hk : keyAt s.stations s.currentStation with
  | some k =>
      obtain ⟨n, hn, hcurrent, rfl⟩ := exists_of_keyAt hk
      obtain ⟨j, hj⟩ := List.mem_iff_getElem?.mp hn
      obtain ⟨hlt, hget⟩ := List.getElem?_eq_some_iff.mp hj
      rw [Option.map_some, rank_of_getElem? hj, position, List.findIdx?_eq_some_iff_getElem]
      refine ⟨hlt, by simp [hget, hcurrent], fun i hi => ?_⟩
      have hdistinct := List.pairwise_iff_getElem.mp (List.pairwise_map.mp s.stations.distinct)
      simpa [hcurrent, ← hget] using hdistinct i j (hi.trans hlt) hlt hi
  | none =>
      rw [Option.map_none, position, List.findIdx?_eq_none_iff]
      intro n hn
      have hne : some n.id ≠ s.currentStation := by
        intro hcurrent
        rw [← hcurrent, keyAt_of_mem hn] at hk
        cases hk
      simpa using hne

theorem card_keysOf (s : Stations) : (keysOf s.stations).card = s.stations.nodes.length := by
  rw [keysOf, List.toFinset_card_of_nodup s.stations.nodup_keys, List.length_map]

end Stations

namespace UiMenu

/-- One line up or down, within a list of `size` lines. -/
def moveLine (size : Nat) (line : Nat) : Command → Nat
  | .up => line - 1
  | .down => min (line + 1) (size - 1)

/-- Where a list of commands leads. -/
def walk (size : Nat) (commands : List Command) (line : Nat) : Nat :=
  commands.foldl (moveLine size) line

/-- The keys stay, and the choice moves as the commands say that were carried out. -/
structure Walks (s : UiMenu) (commands : List Command) (s' : UiMenu) : Prop where
  applied : s'.applied.map Prod.snd = s.applied.map Prod.snd ++ commands
  keys : keysOf s'.stations.stations = keysOf s.stations.stations
  position : s'.stations.position =
    s.stations.position.map (walk (keysOf s.stations.stations).card commands)

variable {s s' s'' : UiMenu} {commands commands' : List Command}

theorem Walks.trans (h : Walks s commands s') (h' : Walks s' commands' s'') :
    Walks s (commands ++ commands') s'' where
  applied := by rw [h'.applied, h.applied, List.append_assoc]
  keys := h'.keys.trans h.keys
  position := by
    rw [h'.position, h.position, h.keys, Option.map_map]
    congr 1
    funext line
    exact (List.foldl_append ..).symm

/-- Steps that leave the choice alone. -/
theorem Walks.of_eq (happlied : s'.applied = s.applied)
    (hkeys : keysOf s'.stations.stations = keysOf s.stations.stations)
    (hchoice : keyAt s'.stations.stations s'.stations.currentStation =
      keyAt s.stations.stations s.stations.currentStation) : Walks s [] s' where
  applied := by rw [happlied, List.append_nil]
  keys := hkeys
  position := by
    rw [Stations.position_eq, Stations.position_eq, hkeys, hchoice, Option.map_map]
    rfl

theorem Walks.of_stations (happlied : s'.applied = s.applied)
    (hstations : s'.stations.stations = s.stations.stations)
    (hcurrent : s'.stations.currentStation = s.stations.currentStation) : Walks s [] s' :=
  .of_eq happlied (by rw [hstations]) (by rw [hstations, hcurrent])

/-! ## Messages and connections -/

theorem walks_sendMsg (s : UiMenu) (id : ClientId) (msg : List Char) (accepted : Bool) :
    Walks s [] (s.sendMsg id msg accepted) := by
  unfold sendMsg
  split
  · exact .of_stations rfl rfl rfl
  · exact .of_stations rfl rfl rfl

theorem walks_sendToAll (s : UiMenu) (msg : List Char) (accepted : ClientId → Bool) :
    Walks s [] (s.sendToAll msg accepted) := by
  unfold sendToAll
  generalize List.range' minClientId (maxClients - minClientId) = ids
  induction ids generalizing s with
  | nil => exact .of_stations rfl rfl rfl
  | cons id ids ih =>
      have hsent : Walks s [] (s.sendTo id msg accepted) := by
        unfold sendTo
        split
        · exact walks_sendMsg s id msg (accepted id)
        · exact .of_stations rfl rfl rfl
      exact hsent.trans (ih (s.sendTo id msg accepted))

theorem walks_acceptNewClient (s : UiMenu) (clientFd : Int) (configured greeted : Bool) :
    Walks s [] (s.acceptNewClient clientFd configured greeted) := by
  unfold acceptNewClient
  split
  · exact .of_stations rfl rfl rfl
  · split
    case h_1 => exact .of_stations rfl rfl rfl
    case h_2 registered id hregistered =>
      have hwalks : Walks s [] registered := by
        unfold registerClient at hregistered
        split at hregistered
        case h_1 i _ =>
          obtain ⟨rfl, -⟩ := Prod.mk.inj (Option.some.inj hregistered)
          unfold emplace
          split
          · exact .of_stations rfl rfl rfl
          · exact .of_stations rfl rfl rfl
        case h_2 => cases hregistered
      split
      · have hwrote : Walks registered [] (registered.wrote id config) := .of_stations rfl rfl rfl
        exact hwalks.trans (hwrote.trans (walks_sendMsg _ id _ greeted))
      · exact hwalks.trans (.of_stations rfl rfl rfl)

theorem walks_handleEvent (s : UiMenu) (accepted : ClientId → Bool) :
    Walks s [] (s.handleEvent accepted) := by
  unfold handleEvent
  split
  · extract_lets cleared
    split
    · exact .of_stations rfl rfl rfl
    · extract_lets popped
      have hpopped : Walks s [] popped := .of_stations rfl rfl rfl
      split
      · exact .of_stations rfl rfl rfl
      · exact hpopped.trans (walks_sendToAll popped _ accepted)
      · exact hpopped.trans (walks_sendToAll popped _ accepted)
      · exact hpopped.trans (walks_sendToAll popped _ accepted)
      · exact hpopped
  · exact .of_stations rfl rfl rfl

/-! ## Commands -/

/-- A command moves the choice by one line. -/
theorem walks_cmdMove (hv : s.stations.CurrentValid) {id : ClientId} {command : Command}
    {accepted : ClientId → Bool}
    (hs : (s.logged id command).cmdMove command accepted = .ok s') : Walks s [command] s' := by
  have happlied : (s.logged id command).applied.map Prod.snd =
      s.applied.map Prod.snd ++ [command] := by
    simp [logged]
  cases command with
  | up =>
      obtain ⟨stations, hmove, hs⟩ := bind_eq_ok_iff.mp hs
      obtain rfl := Except.ok.inj hs
      have hkeys : keysOf stations.stations = keysOf s.stations.stations := by
        rw [Stations.stations_cmdMoveUp hmove]
        rfl
      have hbelow := Stations.keyAt_cmdMoveUp hv hmove
      have hmoved : Walks s [.up] { s.logged id .up with stations } := ⟨happlied, hkeys, ?_⟩
      · exact hmoved.trans (walks_sendToAll _ _ accepted)
      rw [Stations.position_eq, Stations.position_eq, hkeys, hbelow, Option.map_map,
        Option.map_map]
      exact Option.map_congr fun k _ => rank_below k
  | down =>
      obtain ⟨stations, hmove, hs⟩ := bind_eq_ok_iff.mp hs
      obtain rfl := Except.ok.inj hs
      have hkeys : keysOf stations.stations = keysOf s.stations.stations := by
        rw [Stations.stations_cmdMoveDown hmove]
        rfl
      have habove := Stations.keyAt_cmdMoveDown hv hmove
      have hmoved : Walks s [.down] { s.logged id .down with stations } := ⟨happlied, hkeys, ?_⟩
      · exact hmoved.trans (walks_sendToAll _ _ accepted)
      rw [Stations.position_eq, Stations.position_eq, hkeys, habove, Option.map_map,
        Option.map_map]
      refine Option.map_congr fun k hk => ?_
      obtain ⟨n, hn, -, rfl⟩ := exists_of_keyAt hk
      exact rank_above (mem_keysOf.mpr ⟨n, hn, rfl⟩)

/-- What is left of a command when it has been carried out. -/
theorem walks_applyCmd (hv : s.stations.CurrentValid) {id : ClientId}
    {accepted : ClientId → Bool} (hs : s.applyCmd id accepted = .ok s') :
    ∃ commands, Walks s commands s' := by
  unfold applyCmd at hs
  obtain ⟨-, -, hs⟩ := bind_eq_ok_iff.mp hs
  split at hs
  · cases hs
  case h_2 command hcommand =>
    obtain ⟨moved, hmove, hs⟩ := bind_eq_ok_iff.mp hs
    obtain rfl := Except.ok.inj hs
    exact ⟨[command] ++ [], (walks_cmdMove hv hmove).trans (.of_stations rfl rfl rfl)⟩

theorem walks_handleClientInput (hv : s.stations.CurrentValid) {id : ClientId} {input : Input}
    {accepted : ClientId → Bool} (hs : s.handleClientInput id input accepted = .ok s') :
    ∃ commands, Walks s commands s' := by
  unfold handleClientInput at hs
  extract_lets client at hs
  split at hs
  · obtain rfl := Except.ok.inj hs
    exact ⟨[], .of_stations rfl rfl rfl⟩
  · split at hs
    · obtain rfl := Except.ok.inj hs
      exact ⟨[], .of_stations rfl rfl rfl⟩
    · obtain rfl := Except.ok.inj hs
      exact ⟨[], .of_stations rfl rfl rfl⟩
    case h_3 c =>
      obtain ⟨-, -, hs⟩ := bind_eq_ok_iff.mp hs
      have hpushed : Walks s [] ((s.access id).setClient id (client.push c)) :=
        .of_stations rfl rfl rfl
      unfold handleByte at hs
      split at hs
      · obtain rfl := Except.ok.inj hs
        exact ⟨[], hpushed.trans (.of_stations rfl rfl rfl)⟩
      · split at hs
        · obtain ⟨commands, hwalks⟩ :=
            walks_applyCmd (s := (s.access id).setClient id (client.push c)) hv hs
          exact ⟨[] ++ commands, hpushed.trans hwalks⟩
        · obtain rfl := Except.ok.inj hs
          exact ⟨[], hpushed⟩

theorem walks_handleClient (hv : s.stations.CurrentValid) {id : ClientId} {input : Input}
    {accepted : ClientId → Bool} {sent : Bool}
    (hs : s.handleClient id input accepted sent = .ok s') : ∃ commands, Walks s commands s' := by
  unfold handleClient at hs
  split at hs
  · obtain rfl := Except.ok.inj hs
    exact ⟨[], .of_stations rfl rfl rfl⟩
  · split at hs
    · obtain rfl := Except.ok.inj hs
      exact ⟨[], .of_stations rfl rfl rfl⟩
    · have hshown (read : UiMenu) : Walks read [] ((if (read.pollFds id).revents.pollout then
          read.sendMsg id read.menuToStr sent else read).clearRevents id) := by
        split
        · exact (walks_sendMsg read id _ sent).trans (.of_stations rfl rfl rfl)
        · exact .of_stations rfl rfl rfl
      split at hs
      · obtain ⟨read, hread, hs⟩ := bind_eq_ok_iff.mp hs
        obtain rfl := Except.ok.inj hs
        obtain ⟨commands, hwalks⟩ := walks_handleClientInput hv hread
        exact ⟨commands ++ [], hwalks.trans (hshown read)⟩
      · obtain rfl := Except.ok.inj hs
        exact ⟨[], hshown s⟩

/-! ## Runs -/

/-- No station comes or goes in the step. -/
def KeepsList (getaddrinfo : List Char → Option Nat) (prioStationName : Option (List Char))
    (s : UiMenu) (a : Action) : Prop :=
  ∀ s', step getaddrinfo prioStationName s a = .ok s' →
    keysOf s'.stations.stations = keysOf s.stations.stations

instance (getaddrinfo : List Char → Option Nat) (prioStationName : Option (List Char))
    (s : UiMenu) (a : Action) : Decidable (KeepsList getaddrinfo prioStationName s a) :=
  match hs : step getaddrinfo prioStationName s a with
  | .error _ => isTrue fun s' hs' => by rw [hs] at hs'; cases hs'
  | .ok t => decidable_of_iff (keysOf t.stations.stations = keysOf s.stations.stations)
      (by simp [KeepsList, hs])

variable {getaddrinfo : List Char → Option Nat} {prioStationName : Option (List Char)}

/-- A step of another worker that keeps the list keeps the choice. -/
theorem walks_otherStep (hv : s.stations.CurrentValid) {action : Stations.Action}
    (hup : action ≠ .cmdMoveUp) (hdown : action ≠ .cmdMoveDown) {stations : Stations}
    (hs : s.stations.step getaddrinfo prioStationName action = .ok stations)
    (hkeys : keysOf stations.stations = keysOf s.stations.stations) :
    Walks s [] { s with stations } := by
  obtain ⟨d, hd⟩ := hv.exists_shows
  have hd' := hd.step hs
  refine .of_eq rfl hkeys ?_
  rw [hd'.keys, hd.keys] at hkeys
  rw [hd'.chosen, hd.chosen]
  obtain ⟨hnotUp, hnotDown⟩ := Stations.eventOf_ne_move getaddrinfo hup hdown
  exact Directory.chosen_step_of_keys hnotUp hnotDown hkeys

/-- The step of another worker is a step of the stations. -/
theorem exists_otherStep_eq {action : Stations.Action} (hup : action ≠ .cmdMoveUp)
    (hdown : action ≠ .cmdMoveDown)
    (hs : step getaddrinfo prioStationName s (.other action) = .ok s') :
    ∃ stations, s.stations.step getaddrinfo prioStationName action = .ok stations ∧
      s' = { s with stations } := by
  have hstep : step getaddrinfo prioStationName s (.other action) = (do
      let stations ← s.stations.step getaddrinfo prioStationName action
      return { s with stations }) := by
    cases action with
    | cmdMoveUp => exact absurd rfl hup
    | cmdMoveDown => exact absurd rfl hdown
    | handleLookupReply | removeInactive | popEvent | changeStation => rfl
  obtain ⟨stations, hstations, heq⟩ := bind_eq_ok_iff.mp (hstep.symm.trans hs)
  exact ⟨stations, hstations, (Except.ok.inj heq).symm⟩

theorem walks_step (h : Sound s) {a : Action}
    (hkeeps : KeepsList getaddrinfo prioStationName s a)
    (hs : step getaddrinfo prioStationName s a = .ok s') : ∃ commands, Walks s commands s' := by
  cases a with
  | handle event =>
      by_cases hreturned : s.returned = true
      · simp only [step, hreturned, if_true] at hs
        obtain rfl := Except.ok.inj hs
        exact ⟨[], .of_stations rfl rfl rfl⟩
      · simp only [step, if_neg hreturned] at hs
        cases event with
        | poll ready =>
            obtain rfl := Except.ok.inj hs
            exact ⟨[], .of_stations rfl rfl rfl⟩
        | event accepted =>
            obtain rfl := Except.ok.inj hs
            exact ⟨[], walks_handleEvent s accepted⟩
        | server clientFd configured greeted =>
            obtain rfl := Except.ok.inj hs
            refine ⟨[], ?_⟩
            unfold handleServer
            split
            · have hcleared : Walks s [] (s.clearRevents server) := .of_stations rfl rfl rfl
              exact hcleared.trans (walks_acceptNewClient _ clientFd configured greeted)
            · exact .of_stations rfl rfl rfl
        | client id input accepted sent =>
            simp only [handle] at hs
            split at hs
            · exact walks_handleClient h.valid hs
            · obtain rfl := Except.ok.inj hs
              exact ⟨[], .of_stations rfl rfl rfl⟩
  | other action =>
      have hkeys := hkeeps s' hs
      by_cases hup : action = .cmdMoveUp
      · subst hup
        obtain rfl := Except.ok.inj hs
        exact ⟨[], .of_stations rfl rfl rfl⟩
      by_cases hdown : action = .cmdMoveDown
      · subst hdown
        obtain rfl := Except.ok.inj hs
        exact ⟨[], .of_stations rfl rfl rfl⟩
      obtain ⟨stations, hstep, rfl⟩ := exists_otherStep_eq hup hdown hs
      exact ⟨[], walks_otherStep h.valid hup hdown hstep hkeys⟩

theorem walks_run (h : Sound s) {actions : List Action}
    (hkeeps : Guarded (step getaddrinfo prioStationName)
      (KeepsList getaddrinfo prioStationName) s actions)
    (hrun : run getaddrinfo prioStationName s actions = .ok s') :
    ∃ commands, Walks s commands s' := by
  induction actions generalizing s with
  | nil =>
      obtain rfl := Except.ok.inj hrun
      exact ⟨[], .of_stations rfl rfl rfl⟩
  | cons a actions ih =>
      obtain ⟨t, hs, hrest⟩ := bind_eq_ok_iff.mp hrun
      obtain ⟨commands, hfirst⟩ := walks_step h hkeeps.1 hs
      obtain ⟨commands', hothers⟩ := ih (sound_step h hs) (hkeeps.2 t hs) hrest
      exact ⟨commands ++ commands', hfirst.trans hothers⟩

/-- In every run in which no station comes or goes, from a state reached in any way, the choice
walks along the list as the commands lead that all clients gave. -/
theorem keys_walk_the_list {eventFd serverFd : Int} {before after : List Action}
    (hreached : run getaddrinfo prioStationName (init eventFd serverFd) before = .ok s)
    (hkeeps : Guarded (step getaddrinfo prioStationName)
      (KeepsList getaddrinfo prioStationName) s after)
    (hrun : run getaddrinfo prioStationName s after = .ok s') :
    ∃ commands, s'.applied.map Prod.snd = s.applied.map Prod.snd ++ commands ∧
      s'.stations.position =
        s.stations.position.map (walk s.stations.stations.nodes.length commands) := by
  have hsound : Sound s :=
    inv_of_run (fun _ _ _ hs hstep => sound_step hs hstep) (sound_init eventFd serverFd) hreached
  obtain ⟨commands, hwalks⟩ := walks_run hsound hkeeps hrun
  refine ⟨commands, hwalks.applied, ?_⟩
  rw [hwalks.position, Stations.card_keysOf]

section Example

/-- Two stations are heard of and a client connects. -/
def listed : List Action :=
  [.other (Stations.announcement ['A'] 0), .other (Stations.announcement ['B'] 0)] ++ connect

/-- The client presses the arrow down key, a known station is heard of, and the key again. -/
def pressedDown : List Action :=
  typed [Stations.esc, '[', 'B'] ++ [.other (Stations.announcement ['A'] 1)] ++
    typed [Stations.esc, '[', 'B']

theorem keys_walk_the_list_pressedDown :
    ∃ s, run (fun _ => some 7) none (init 3 4) listed = .ok s ∧
      ∃ s', run (fun _ => some 7) none s pressedDown = .ok s' ∧
      ∃ commands, s'.applied.map Prod.snd = s.applied.map Prod.snd ++ commands ∧
        s'.stations.position =
          s.stations.position.map (walk s.stations.stations.nodes.length commands) := by
  refine exists_ok_and (by decide +kernel) fun s hrun => ?_
  have hkeeps : decide (Guarded (step (fun _ => some 7) none)
      (KeepsList (fun _ => some 7) none) s pressedDown) = true :=
    eq_of_toOption_map (fun s => decide (Guarded (step (fun _ => some 7) none)
      (KeepsList (fun _ => some 7) none) s pressedDown)) (by decide +kernel) hrun
  have hok : (run (fun _ => some 7) none s pressedDown).isOk = true :=
    eq_of_toOption_map (fun s => (run (fun _ => some 7) none s pressedDown).isOk)
      (by decide +kernel) hrun
  refine exists_ok_and hok fun s' hrun' => ?_
  exact keys_walk_the_list hrun (of_decide_eq_true hkeeps) hrun'

-- the second press finds the end of the list
example : ((run (fun _ => some 7) none (init 3 4) (listed ++ pressedDown)).toOption.bind
    fun s => s.stations.position) = some 1 := by decide +kernel

end Example

end UiMenu

end SikRadio.Receiver
