import SikRadio.Receiver.StationSteps

/-!
# The list shows exactly the live stations

Every reply that `handle_lookup_reply` records renews the entry of its station.
A sweep keeps an entry when its last renewal is less than `REMOVAL_THRESHOLD`
old. `Tracks` says what the entries know of the replies recorded so far: an
entry is as recent as every recorded reply of its station that has not expired,
and a station without an entry has no other replies.

## Implementation notes

A new station is made before the locks are taken, so its time can be read
before an earlier step reads the clock. All other times are read under the
locks, after everything the earlier steps read.
-/

namespace SikRadio.Receiver.Stations

open SikRadio.Common Foundations.CheckedRuns Foundations.OrderedNodes

/-- What identifies a station: name, multicast address and data address. -/
abbrev Identity : Type := List Char ×ₗ (Nat ×ₗ Nat) ×ₗ (Nat ×ₗ Nat)

/-! ## Recorded replies and the clock -/

section Replies

variable (getaddrinfo : List Char → Option Nat)

/-- The station whose reply an action records, and the time it records. -/
def recordedBy (s : Stations) : Action → Option (Identity × Int)
  | .handleLookupReply reply srcAddr made refreshed =>
      match RadioStation.ofReply getaddrinfo srcAddr reply made with
      | .ok (some station) =>
          some (station.key, if s.stations.find? station = none then made else refreshed)
      | _ => none
  | _ => none

/-- The replies that a run records. -/
def recorded (prioStationName : Option (List Char)) :
    Stations → List Action → List (Identity × Int)
  | _, [] => []
  | s, a :: as =>
      match step getaddrinfo prioStationName s a with
      | .ok s' => (recordedBy getaddrinfo s a).toList ++ recorded prioStationName s' as
      | .error _ => []

end Replies

/-- The action reads the clock at `t` under the locks. -/
def ReadsLocked : Action → Int → Prop
  | .handleLookupReply _ _ _ refreshed, t => t = refreshed
  | .removeInactive now, t => ∃ i, t = now i
  | _, _ => False

/-- The action reads the clock at `t`. -/
def Reads : Action → Int → Prop
  | .handleLookupReply _ _ made refreshed, t => t = made ∨ t = refreshed
  | a, t => ReadsLocked a t

theorem ReadsLocked.reads {a : Action} {t : Int} (h : ReadsLocked a t) : Reads a t := by
  cases a with
  | handleLookupReply reply srcAddr made refreshed => exact .inr h
  | _ => exact h

/-- No past action read the clock after `u`. -/
def After (past : List Action) (u : Int) : Prop := ∀ a ∈ past, ∀ t, Reads a t → t ≤ u

/-- The clock does not decrease. -/
def ClockOrdered (actions : List Action) : Prop :=
  actions.Pairwise fun a b => ∀ t u, Reads a t → ReadsLocked b u → t ≤ u

/-- A reply recorded at `t` is no longer fresh, whenever the clock is read next. -/
def Expired (past : List Action) (t : Int) : Prop :=
  ∀ u, After past u → removalThreshold ≤ u - t

theorem After.of_append {past rest : List Action} {u : Int} (h : After (past ++ rest) u) :
    After past u :=
  fun a ha => h a (List.mem_append_left rest ha)

theorem Expired.append {past : List Action} {t : Int} (h : Expired past t) (rest : List Action) :
    Expired (past ++ rest) t :=
  fun u hu => h u hu.of_append

/-- An action reads the clock under the locks after everything before it. -/
theorem ClockOrdered.after {past rest : List Action} {a : Action}
    (h : ClockOrdered (past ++ a :: rest)) {u : Int} (hu : ReadsLocked a u) : After past u := by
  intro b hb t ht
  exact (List.pairwise_append.mp h).2.2 b hb a (List.mem_cons_self ..) t u ht hu

/-! ## The invariant -/

/-- What the entries know of the replies recorded so far. -/
structure Tracks (past : List Action) (records : List (Identity × Int)) (s : Stations) :
    Prop where
  read : ∀ k t, (k, t) ∈ records → ∃ a ∈ past, Reads a t
  recorded : ∀ n ∈ s.stations.nodes, (n.value.key, n.value.lastReply) ∈ records
  latest : ∀ n ∈ s.stations.nodes, ∀ t, (n.value.key, t) ∈ records →
    t ≤ n.value.lastReply ∨ Expired past t
  gone : ∀ k t, (k, t) ∈ records → (∀ n ∈ s.stations.nodes, n.value.key ≠ k) → Expired past t

section Steps

variable {past : List Action} {records : List (Identity × Int)} {s s' : Stations}

/-- A step that records nothing and keeps the set. -/
theorem Tracks.kept (h : Tracks past records s) (a : Action)
    (hstations : s'.stations = s.stations) : Tracks (past ++ [a]) records s' := by
  refine ⟨fun k t ht => ?_, ?_, ?_, ?_⟩
  · obtain ⟨b, hb, hread⟩ := h.read k t ht
    exact ⟨b, List.mem_append_left [a] hb, hread⟩
  · rw [hstations]
    exact h.recorded
  · rw [hstations]
    intro n hn t ht
    exact (h.latest n hn t ht).imp_right fun hexp => hexp.append [a]
  · rw [hstations]
    intro k t ht hne
    exact (h.gone k t ht hne).append [a]

/-- A time that the action reads is read. -/
theorem Tracks.read_append (h : Tracks past records s) {a : Action} {k₀ : Identity} {t₀ : Int}
    (ha : Reads a t₀) (k : Identity) (t : Int) (ht : (k, t) ∈ records ++ [(k₀, t₀)]) :
    ∃ b ∈ past ++ [a], Reads b t := by
  rcases List.mem_append.mp ht with ht | ht
  · obtain ⟨b, hb, hread⟩ := h.read k t ht
    exact ⟨b, List.mem_append_left [a] hb, hread⟩
  · obtain ⟨rfl, rfl⟩ := Prod.mk.inj (List.mem_singleton.mp ht)
    exact ⟨a, by simp, ha⟩

/-- The reply of a station that is not in the set adds it. -/
theorem Tracks.inserted (h : Tracks past records s) {a : Action} {station : RadioStation}
    (hfind : s.stations.find? station = none) (ha : Reads a station.lastReply)
    (hstations : s'.stations = s.stations.insert station) :
    Tracks (past ++ [a]) (records ++ [(station.key, station.lastReply)]) s' := by
  have hnew := (s.stations.find?_eq_none_iff).mp hfind
  refine ⟨h.read_append ha, ?_, ?_, ?_⟩
  · rw [hstations]
    intro n hn
    rcases (NodeSet.mem_nodes_insert hfind).mp hn with rfl | hn
    · exact List.mem_append_right _ (List.mem_singleton_self _)
    · exact List.mem_append_left _ (h.recorded n hn)
  · rw [hstations]
    intro n hn t ht
    rcases (NodeSet.mem_nodes_insert hfind).mp hn with rfl | hn
    · rcases List.mem_append.mp ht with ht | ht
      · exact .inr ((h.gone _ t ht hnew).append [a])
      · exact .inl (Prod.mk.inj (List.mem_singleton.mp ht)).2.le
    · rcases List.mem_append.mp ht with ht | ht
      · exact (h.latest n hn t ht).imp_right fun hexp => hexp.append [a]
      · exact absurd (Prod.mk.inj (List.mem_singleton.mp ht)).1 (hnew n hn)
  · rw [hstations]
    intro k t ht hne
    rcases List.mem_append.mp ht with ht | ht
    · refine (h.gone k t ht fun n hn => hne n ?_).append [a]
      exact (NodeSet.mem_nodes_insert hfind).mpr (.inr hn)
    · obtain ⟨rfl, -⟩ := Prod.mk.inj (List.mem_singleton.mp ht)
      exact absurd rfl (hne _ ((NodeSet.mem_nodes_insert hfind).mpr (.inl rfl)))

/-- A refreshed set holds the renewed entry and, under other keys, the entries it had. -/
theorem mem_nodes_updateLastReply {stations : StationSet} {station : RadioStation}
    {it : Nat} (hfind : stations.find? station = some it) (now : Int) {m : Node RadioStation}
    (hm : m ∈ (stations.update it (RadioStation.updateLastReply now)
      (RadioStation.key_updateLastReply now)).nodes) :
    (m.value.key = station.key ∧ m.value.lastReply = now) ∨
      (m.value.key ≠ station.key ∧ m ∈ stations.nodes) := by
  obtain ⟨n₀, hn₀, rfl, hkey⟩ := stations.exists_mem_of_find? hfind
  rw [NodeSet.mem_nodes_update] at hm
  obtain ⟨n, hn, rfl⟩ := hm
  by_cases hid : n.id = n₀.id
  · obtain rfl := stations.eq_of_id_eq hn hn₀ hid
    rw [if_pos rfl]
    exact .inl ⟨hkey, rfl⟩
  · rw [if_neg hid]
    refine .inr ⟨fun heq => hid ?_, hn⟩
    rw [stations.eq_of_key_eq hn hn₀ (heq.trans hkey.symm)]

/-- The reply of a station in the set renews its entry. -/
theorem Tracks.refreshed (h : Tracks past records s) {a : Action} {station : RadioStation}
    {it : Nat} {now : Int} (hfind : s.stations.find? station = some it) (ha : ReadsLocked a now)
    (hafter : After past now)
    (hstations : s'.stations = s.stations.update it (RadioStation.updateLastReply now)
      (RadioStation.key_updateLastReply now)) :
    Tracks (past ++ [a]) (records ++ [(station.key, now)]) s' := by
  obtain ⟨n₀, hn₀, -, hkey⟩ := s.stations.exists_mem_of_find? hfind
  have hentry (m : Node RadioStation) (hm : m ∈ s'.stations.nodes) :
      (m.value.key = station.key ∧ m.value.lastReply = now) ∨
        (m.value.key ≠ station.key ∧ m ∈ s.stations.nodes) := by
    rw [hstations] at hm
    exact mem_nodes_updateLastReply hfind now hm
  have hstays (n : Node RadioStation) (hn : n ∈ s.stations.nodes) :
      ∃ m ∈ s'.stations.nodes, m.value.key = n.value.key := by
    rw [hstations]
    refine ⟨_, (NodeSet.mem_nodes_update ..).mpr ⟨n, hn, rfl⟩, ?_⟩
    split <;> rfl
  refine ⟨h.read_append ha.reads, ?_, ?_, ?_⟩
  · intro m hm
    rcases hentry m hm with ⟨hkey', hlast⟩ | ⟨-, hm⟩
    · rw [hkey', hlast]
      exact List.mem_append_right _ (List.mem_singleton_self _)
    · exact List.mem_append_left _ (h.recorded m hm)
  · intro m hm t ht
    rcases hentry m hm with ⟨-, hlast⟩ | ⟨hne, hm⟩
    · left
      rw [hlast]
      rcases List.mem_append.mp ht with ht | ht
      · obtain ⟨b, hb, hread⟩ := h.read _ t ht
        exact hafter b hb t hread
      · exact (Prod.mk.inj (List.mem_singleton.mp ht)).2.le
    · rcases List.mem_append.mp ht with ht | ht
      · exact (h.latest m hm t ht).imp_right fun hexp => hexp.append [a]
      · exact absurd (Prod.mk.inj (List.mem_singleton.mp ht)).1 hne
  · intro k t ht hne
    have hold (n : Node RadioStation) (hn : n ∈ s.stations.nodes) : n.value.key ≠ k := by
      obtain ⟨m, hm, hkeys⟩ := hstays n hn
      exact hkeys ▸ hne m hm
    rcases List.mem_append.mp ht with ht | ht
    · exact (h.gone k t ht hold).append [a]
    · obtain ⟨rfl, -⟩ := Prod.mk.inj (List.mem_singleton.mp ht)
      exact absurd hkey (hold n₀ hn₀)

theorem stations_removeInactive (prioStationName : Option (List Char)) (now : Nat → Int) :
    (s.removeInactive prioStationName now).stations =
      s.stations.eraseUnless (isActive now) := by
  unfold removeInactive
  extract_lets removed remaining announced
  split
  · rfl
  · split <;> rfl

/-- A sweep erases the entries that are too old when it examines them. -/
theorem Tracks.swept (h : Tracks past records s) {now : Nat → Int}
    (hstations : s'.stations = s.stations.eraseUnless (isActive now)) :
    Tracks (past ++ [.removeInactive now]) records s' := by
  have hstays (n : Node RadioStation) (hn : n ∈ s'.stations.nodes) : n ∈ s.stations.nodes := by
    rw [hstations, NodeSet.mem_nodes_eraseUnless] at hn
    obtain ⟨j, hj, -⟩ := hn
    exact List.mem_of_getElem? hj
  have hold : Tracks (past ++ [.removeInactive now]) records s := h.kept (.removeInactive now) rfl
  refine ⟨hold.read, fun n hn => h.recorded n (hstays n hn),
    fun n hn => hold.latest n (hstays n hn), ?_⟩
  intro k t ht hne
  by_cases hbefore : ∃ n ∈ s.stations.nodes, n.value.key = k
  · obtain ⟨n, hn, rfl⟩ := hbefore
    rcases hold.latest n hn t ht with hle | hexp
    · obtain ⟨j, hj⟩ := List.mem_iff_getElem?.mp hn
      have herased : isActive now j n.value = false := by
        apply Bool.eq_false_iff.mpr
        intro hactive
        apply hne n _ rfl
        rw [hstations]
        exact (NodeSet.mem_nodes_eraseUnless ..).mpr ⟨j, hj, hactive⟩
      intro u hu
      have hlate : now j ≤ u := hu (.removeInactive now) (by simp) (now j) ⟨j, rfl⟩
      have hold : removalThreshold ≤ now j - n.value.lastReply :=
        Int.not_lt.mp (of_decide_eq_false herased)
      linarith
    · exact hexp
  · push Not at hbefore
    exact hold.gone k t ht hbefore

theorem stations_addStation (prioStationName : Option (List Char)) (station : RadioStation) :
    (s.addStation prioStationName station).stations = s.stations.insert station := by
  unfold addStation
  extract_lets inserted chosen
  show chosen.stations = _
  by_cases hchosen : inserted.stations.nodes.length = 1 ∨ prioStationName = some station.name
  · exact congrArg Stations.stations (if_pos hchosen)
  · exact congrArg Stations.stations (if_neg hchosen)

variable {getaddrinfo : List Char → Option Nat} {prioStationName : Option (List Char)}

theorem tracks_handleLookupReply (h : Tracks past records s) {reply : LookupReply}
    {srcAddr : SockAddr} {made refreshed : Int} (hafter : After past refreshed)
    (hs : s.handleLookupReply getaddrinfo prioStationName reply srcAddr made refreshed = .ok s') :
    Tracks (past ++ [.handleLookupReply reply srcAddr made refreshed])
      (records ++ (recordedBy getaddrinfo s
        (.handleLookupReply reply srcAddr made refreshed)).toList) s' := by
  unfold handleLookupReply at hs
  simp only [bind_eq_ok_iff] at hs
  obtain ⟨station?, hmade, hs⟩ := hs
  simp only [recordedBy, hmade]
  cases station? with
  | none =>
      obtain rfl := Except.ok.inj hs
      simpa using h.kept _ rfl
  | some station =>
      simp only [Option.toList_some]
      cases hfind : s.stations.find? station with
      | none =>
          simp only [hfind] at hs
          obtain rfl := Except.ok.inj hs
          obtain rfl := RadioStation.lastReply_of_ofReply hmade
          rw [if_pos rfl]
          exact h.inserted hfind (.inl rfl) (stations_addStation _ _)
      | some it =>
          simp only [hfind] at hs
          obtain rfl := Except.ok.inj hs
          rw [if_neg (by simp)]
          exact h.refreshed hfind rfl hafter rfl

/-- A move of the current station keeps the set. -/
theorem stations_of_moved {it : Option (Option Nat)}
    (hs : (do let i ← moved it; return s.setCurrentStation i) = Except.ok s') :
    s'.stations = s.stations := by
  obtain ⟨i, -, hs⟩ := bind_eq_ok_iff.mp hs
  obtain rfl := Except.ok.inj hs
  rfl

theorem stations_cmdMoveUp (hs : s.cmdMoveUp = .ok s') : s'.stations = s.stations := by
  unfold cmdMoveUp at hs
  split at hs
  · exact stations_of_moved hs
  · obtain rfl := Except.ok.inj hs
    rfl

theorem stations_cmdMoveDown (hs : s.cmdMoveDown = .ok s') : s'.stations = s.stations := by
  unfold cmdMoveDown at hs
  split at hs
  · exact stations_of_moved hs
  · obtain rfl := Except.ok.inj hs
    rfl

theorem stations_popEvent : s.popEvent.stations = s.stations := by
  unfold popEvent
  split <;> rfl

theorem stations_changeStation (hs : s.changeStation = .ok s') : s'.stations = s.stations := by
  unfold changeStation at hs
  extract_lets closed at hs
  split at hs
  · obtain rfl := Except.ok.inj hs
    rfl
  · obtain ⟨station, -, hs⟩ := bind_eq_ok_iff.mp hs
    obtain rfl := Except.ok.inj hs
    rfl

/-- Every step keeps track of the replies recorded so far. -/
theorem tracks_step (h : Tracks past records s) {a : Action}
    (hafter : ∀ u, ReadsLocked a u → After past u)
    (hs : step getaddrinfo prioStationName s a = .ok s') :
    Tracks (past ++ [a]) (records ++ (recordedBy getaddrinfo s a).toList) s' := by
  cases a with
  | handleLookupReply reply srcAddr made refreshed =>
      exact tracks_handleLookupReply h (hafter refreshed rfl) hs
  | removeInactive now =>
      obtain rfl := Except.ok.inj hs
      simpa [recordedBy] using h.swept (stations_removeInactive prioStationName now)
  | cmdMoveUp => simpa [recordedBy] using h.kept .cmdMoveUp (stations_cmdMoveUp hs)
  | cmdMoveDown => simpa [recordedBy] using h.kept .cmdMoveDown (stations_cmdMoveDown hs)
  | popEvent =>
      have hkept : s'.stations = s.stations := by
        simp only [step] at hs
        split at hs
        · exact congrArg Stations.stations (Except.ok.inj hs).symm
        · exact (congrArg Stations.stations (Except.ok.inj hs)).symm.trans stations_popEvent
      simpa [recordedBy] using h.kept .popEvent hkept
  | changeStation =>
      have hkept : s'.stations = s.stations := by
        simp only [step] at hs
        split at hs
        · exact stations_changeStation hs
        · exact congrArg Stations.stations (Except.ok.inj hs).symm
      simpa [recordedBy] using h.kept .changeStation hkept

/-- So does every run with an ordered clock. -/
theorem tracks_run (h : Tracks past records s) {actions : List Action}
    (hclock : ClockOrdered (past ++ actions))
    (hrun : run getaddrinfo prioStationName s actions = .ok s') :
    Tracks (past ++ actions) (records ++ recorded getaddrinfo prioStationName s actions) s' := by
  induction actions generalizing past records s with
  | nil =>
      obtain rfl := Except.ok.inj hrun
      simpa [recorded] using h
  | cons a actions ih =>
      simp only [run, List.foldlM_cons, bind_eq_ok_iff] at hrun
      obtain ⟨s₁, hs, hrest⟩ := hrun
      have htracks := tracks_step h (fun u hu => hclock.after hu) hs
      have hordered : ClockOrdered (past ++ [a] ++ actions) := by simpa using hclock
      have hend := ih htracks hordered hrest
      simpa [recorded, hs] using hend

theorem tracks_init : Tracks [] [] init := by
  refine ⟨by simp, ?_, ?_, by simp⟩
  · intro n hn
    simp [init, NodeSet.empty] at hn
  · intro n hn
    simp [init, NodeSet.empty] at hn

/-- A station with a reply that is fresh is in the set, between sweeps too. -/
theorem Tracks.exists_mem (h : Tracks past records s) {k : Identity} {t u : Int}
    (ht : (k, t) ∈ records) (hafter : After past u) (hfresh : u - t < removalThreshold) :
    ∃ n ∈ s.stations.nodes, n.value.key = k := by
  by_contra hgone
  push Not at hgone
  exact absurd (h.gone k t ht hgone u hafter) (not_le.mpr hfresh)

/-- A station whose reply has been handled stays in the set as long as the reply is fresh. -/
theorem exists_mem_of_handled {before after : List Action} {reply : LookupReply}
    {srcAddr : SockAddr} {made refreshed u : Int} {station : RadioStation} {s₀ s₁ s₂ : Stations}
    (hbefore : run getaddrinfo prioStationName init before = .ok s₀)
    (hs : step getaddrinfo prioStationName s₀ (.handleLookupReply reply srcAddr made refreshed) =
      .ok s₁)
    (hafter : run getaddrinfo prioStationName s₁ after = .ok s₂)
    (hclock : ClockOrdered (before ++ .handleLookupReply reply srcAddr made refreshed :: after))
    (hnow : After (before ++ .handleLookupReply reply srcAddr made refreshed :: after) u)
    (hstation : RadioStation.ofReply getaddrinfo srcAddr reply made = .ok (some station))
    (hmade : u - made < removalThreshold) (hrefreshed : u - refreshed < removalThreshold) :
    ∃ n ∈ s₂.stations.nodes, n.value.key = station.key := by
  have htracks₀ := tracks_run tracks_init (List.pairwise_append.mp hclock).1 hbefore
  have htracks₁ := tracks_step htracks₀ (fun v hv => hclock.after hv) hs
  have htracks₂ := tracks_run htracks₁ (by simpa using hclock) hafter
  refine htracks₂.exists_mem (k := station.key)
    (t := if s₀.stations.find? station = none then made else refreshed) ?_ (by simpa using hnow) ?_
  · simp [recordedBy, hstation]
  · split
    · exact hmade
    · exact hrefreshed

/-- What holds of every station that is made, whenever its last reply came, holds of every
station in the set. -/
theorem forall_nodes_step {P : RadioStation → Prop}
    (hrefresh : ∀ station now, P station → P (RadioStation.updateLastReply now station))
    {a : Action}
    (hmade : ∀ reply srcAddr made refreshed station,
      a = .handleLookupReply reply srcAddr made refreshed →
        RadioStation.ofReply getaddrinfo srcAddr reply made = .ok (some station) → P station)
    (h : ∀ n ∈ s.stations.nodes, P n.value)
    (hs : step getaddrinfo prioStationName s a = .ok s') : ∀ n ∈ s'.stations.nodes, P n.value := by
  cases a with
  | handleLookupReply reply srcAddr made refreshed =>
      obtain ⟨station?, hstation, hs⟩ := bind_eq_ok_iff.mp hs
      cases station? with
      | none =>
          obtain rfl := Except.ok.inj hs
          exact h
      | some station =>
          simp only at hs
          split at hs
          case h_1 it _ =>
            obtain rfl := Except.ok.inj hs
            intro m hm
            simp only [NodeSet.mem_nodes_update] at hm
            obtain ⟨n, hn, rfl⟩ := hm
            split
            · exact hrefresh n.value refreshed (h n hn)
            · exact h n hn
          case h_2 hfind =>
            obtain rfl := Except.ok.inj hs
            rw [stations_addStation]
            intro n hn
            rcases (NodeSet.mem_nodes_insert hfind).mp hn with rfl | hn
            · exact hmade reply srcAddr made refreshed station rfl hstation
            · exact h n hn
  | removeInactive now =>
      obtain rfl := Except.ok.inj hs
      rw [stations_removeInactive]
      intro n hn
      obtain ⟨j, hj, -⟩ := (NodeSet.mem_nodes_eraseUnless ..).mp hn
      exact h n (List.mem_of_getElem? hj)
  | cmdMoveUp => exact (stations_cmdMoveUp hs).symm ▸ h
  | cmdMoveDown => exact (stations_cmdMoveDown hs).symm ▸ h
  | popEvent =>
      simp only [step] at hs
      split at hs
      · obtain rfl := Except.ok.inj hs
        exact h
      · obtain rfl := Except.ok.inj hs
        exact stations_popEvent.symm ▸ h
  | changeStation =>
      simp only [step] at hs
      split at hs
      · exact (stations_changeStation hs).symm ▸ h
      · obtain rfl := Except.ok.inj hs
        exact h

end Steps

/-! ## The list after a sweep -/

/-- What the set is after a sweep: exactly the stations with a fresh reply, each once and in
order. A station that the sweep does not examine has no reply that is fresh while it runs. -/
structure ListsLive (records : List (Identity × Int)) (now : Nat → Int) (before after : Stations) :
    Prop where
  live_iff : ∀ k, (∃ n ∈ after.stations.nodes, n.value.key = k) ↔
    ∃ i n t, before.stations.nodes[i]? = some n ∧ n.value.key = k ∧ (k, t) ∈ records ∧
      now i - t < removalThreshold
  unexamined : ∀ k t i, (∀ n ∈ before.stations.nodes, n.value.key ≠ k) → (k, t) ∈ records →
    removalThreshold ≤ now i - t
  once : (after.stations.nodes.map fun n => n.value.key).Nodup
  increasing : (after.stations.nodes.map fun n => n.value.key).Pairwise (· < ·)

theorem Tracks.listsLive {past : List Action} {records : List (Identity × Int)} {s : Stations}
    (h : Tracks past records s) (prioStationName : Option (List Char)) {now : Nat → Int}
    (hafter : ∀ i, After past (now i)) :
    ListsLive records now s (s.removeInactive prioStationName now) := by
  have hstations := stations_removeInactive (s := s) prioStationName now
  refine ⟨fun k => ⟨?_, ?_⟩, fun k t i hne ht => h.gone k t ht hne (now i) (hafter i), ?_, ?_⟩
  · rintro ⟨n, hn, rfl⟩
    rw [hstations, NodeSet.mem_nodes_eraseUnless] at hn
    obtain ⟨i, hi, hactive⟩ := hn
    exact ⟨i, n, n.value.lastReply, hi, rfl, h.recorded n (List.mem_of_getElem? hi),
      of_decide_eq_true hactive⟩
  · rintro ⟨i, n, t, hi, rfl, ht, hfresh⟩
    refine ⟨n, ?_, rfl⟩
    rw [hstations, NodeSet.mem_nodes_eraseUnless]
    refine ⟨i, hi, decide_eq_true ?_⟩
    rcases h.latest n (List.mem_of_getElem? hi) t ht with hle | hexp
    · linarith
    · exact absurd (hexp (now i) (hafter i)) (not_le.mpr hfresh)
  · exact NodeSet.nodup_keys _
  · exact List.pairwise_map.mpr (s.removeInactive prioStationName now).stations.sorted

/-- Right after a sweep the set lists exactly the live stations. -/
theorem sweep_lists_live (getaddrinfo : List Char → Option Nat)
    (prioStationName : Option (List Char)) {actions : List Action} {now : Nat → Int}
    {s : Stations} (hclock : ClockOrdered (actions ++ [.removeInactive now]))
    (hrun : run getaddrinfo prioStationName init actions = .ok s) :
    ListsLive (recorded getaddrinfo prioStationName init actions) now s
      (s.removeInactive prioStationName now) := by
  have htracks : Tracks ([] ++ actions)
      ([] ++ recorded getaddrinfo prioStationName init actions) s :=
    tracks_run tracks_init (List.pairwise_append.mp hclock).1 hrun
  exact htracks.listsLive prioStationName fun i => hclock.after ⟨i, rfl⟩

section Example

/-- An announcement of the station `name`, handled at `made`. -/
def announcement (name : List Char) (made : Int) : Action :=
  .handleLookupReply { mcastAddr := [], dataPort := 1, name } ⟨1, 2⟩ made (made + 1)

/-- Station A is heard again after ten seconds, station B only once. -/
def announcements : List Action :=
  [announcement ['A'] 0, announcement ['B'] 2, announcement ['A'] (10 * 10 ^ 9)]

theorem sweep_lists_live_refreshed :
    ∃ s, run (fun _ => some 7) none init announcements = .ok s ∧
      ListsLive (recorded (fun _ => some 7) none init announcements) (fun _ => 21 * 10 ^ 9) s
        (s.removeInactive none fun _ => 21 * 10 ^ 9) := by
  refine exists_ok_and (by decide) fun s hrun => sweep_lists_live _ none ?_ hrun
  simp [ClockOrdered, announcements, announcement, Reads, ReadsLocked]

end Example

end SikRadio.Receiver.Stations
