import SikRadio.Receiver.LiveStations

/-!
# The expiry sweep

`remove_inactive` erases stations while it walks the set with an iterator, and
it compares each erased one with the iterator of the current station, which an
earlier round may have erased. Here the walk is followed iterator by iterator;
`removeInactive` is what it computes.

## Implementation notes

The walk takes one unit of fuel for each station. An iterator to an erased
station equals no iterator of the set, since ids are not used twice.
-/

namespace SikRadio.Receiver.Stations

open SikRadio.Common Foundations.CheckedRuns Foundations.OrderedNodes

/-- The set and the two flags of the loop. -/
structure Sweep where
  stations : StationSet
  removedAny : Bool
  removedCurrent : Bool

/-- The loop of `remove_inactive` from the iterator `it` on; `i` counts the readings of the
clock. `erase` returns the iterator after the erased one. -/
def sweepFrom (now : Nat → Int) (currentStation : Option Nat) :
    Nat → Nat → Sweep → Option Nat → Except Fault Sweep
  | _, _, t, none => .ok t
  | 0, _, _, some _ => .error .outOfFuel
  | fuel + 1, i, t, some it =>
      match t.stations.value? it with
      | none => .error .badIterator
      | some station => do
          let next ← moved (t.stations.next (some it))
          if now i - station.lastReply < removalThreshold then
            sweepFrom now currentStation fuel (i + 1) t next
          else
            sweepFrom now currentStation fuel (i + 1)
              { stations := t.stations.erase it
                removedAny := true
                removedCurrent := t.removedCurrent || some it == currentStation }
              next

/-- `remove_inactive` with its loop. -/
def sweepInactive (fuel : Nat) (prioStationName : Option (List Char)) (s : Stations)
    (now : Nat → Int) : Except Fault Stations := do
  let swept ← sweepFrom now s.currentStation fuel 0 ⟨s.stations, false, false⟩ s.stations.begin
  let remaining : Stations := { s with stations := swept.stations }
  if swept.removedAny then
    let announced := { remaining with uiMenuEvent := s.uiMenuEvent ++ [.stationRemoved] }
    return if swept.removedCurrent then announced.resetCurrentStation prioStationName else announced
  else return remaining

/-- The last reply of the station was 20 seconds old or more when the sweep came to it. -/
def TooOld (s : Stations) (now : Nat → Int) (n : Node RadioStation) : Prop :=
  ∃ j, s.stations.nodes[j]? = some n ∧ 20 * 10 ^ 9 ≤ now j - n.value.lastReply

/-- The first station with the preferred name, else the first station, else the end. -/
inductive Chosen (prioStationName : Option (List Char)) (nodes : List (Node RadioStation)) :
    Option Nat → Prop
  | favourite (before after : List (Node RadioStation)) (n : Node RadioStation)
      (split : nodes = before ++ n :: after) (named : prioStationName = some n.value.name)
      (first : ∀ m ∈ before, prioStationName ≠ some m.value.name) :
      Chosen prioStationName nodes (some n.id)
  | first (n : Node RadioStation) (rest : List (Node RadioStation)) (split : nodes = n :: rest)
      (other : ∀ m ∈ nodes, prioStationName ≠ some m.value.name) :
      Chosen prioStationName nodes (some n.id)
  | gone (nil : nodes = []) : Chosen prioStationName nodes none

/-- What a sweep is to do. -/
structure SweepsExpired (prioStationName : Option (List Char)) (now : Nat → Int)
    (s s' : Stations) : Prop where
  sublist : s'.stations.nodes.Sublist s.stations.nodes
  remaining : ∀ n ∈ s.stations.nodes, n ∈ s'.stations.nodes ↔ ¬s.TooOld now n
  survived : (∀ n, s.TooOld now n → s.currentStation ≠ some n.id) →
    s'.currentStation = s.currentStation ∧ s'.audioReceiverEvent = s.audioReceiverEvent
  removed : (∃ n, s.TooOld now n ∧ s.currentStation = some n.id) →
    Chosen prioStationName s'.stations.nodes s'.currentStation ∧
      s'.audioReceiverEvent = s.audioReceiverEvent ++ [.currentStationChanged]
  announced : (∃ n, s.TooOld now n) → s'.uiMenuEvent = s.uiMenuEvent ++ [.stationRemoved]
  quiet : (∀ n, ¬s.TooOld now n) → s'.uiMenuEvent = s.uiMenuEvent

/-! ## The loop -/

/-- The loop over the rest of the set, behind the stations that are kept. -/
theorem sweepFrom_eq (now : Nat → Int) (currentStation : Option Nat) {fuel : Nat} (i : Nat)
    (t : Sweep) (kept : List (Node RadioStation)) {rest : List (Node RadioStation)}
    (hsplit : t.stations.nodes = kept ++ rest) (hfuel : rest.length ≤ fuel) :
    ∃ t', sweepFrom now currentStation fuel i t (rest.head?.map Node.id) = .ok t' ∧
      t'.stations.nodes = kept ++ (NodeSet.sweep (isActive now) i rest).1 ∧
      t'.stations.nextId = t.stations.nextId ∧
      (t'.removedAny = true ↔
        t.removedAny = true ∨ (NodeSet.sweep (isActive now) i rest).2 ≠ []) ∧
      (t'.removedCurrent = true ↔ t.removedCurrent = true ∨
        ∃ n ∈ (NodeSet.sweep (isActive now) i rest).2, currentStation = some n.id) := by
  induction rest generalizing fuel i t kept with
  | nil =>
      refine ⟨t, by cases fuel <;> rfl, hsplit, rfl, ?_, ?_⟩ <;> simp [NodeSet.sweep]
  | cons n rest ih =>
      obtain ⟨fuel, rfl⟩ := Nat.exists_eq_succ_of_ne_zero (Nat.ne_of_gt (Nat.zero_lt_of_lt hfuel))
      have hfuel' : rest.length ≤ fuel := Nat.le_of_succ_le_succ hfuel
      have hvalue := NodeSet.value?_of_split hsplit
      have hnext := NodeSet.next_of_split hsplit
      by_cases hactive : now i - n.value.lastReply < removalThreshold
      · have hkeep : isActive now i n.value = true := decide_eq_true hactive
        obtain ⟨t', hrun, hnodes, hnextId, hany, hcurrent⟩ := ih (i + 1) t (kept ++ [n])
          (by simpa using hsplit) hfuel'
        refine ⟨t', ?_, ?_, hnextId, ?_, ?_⟩
        · simp only [List.head?_cons, Option.map_some, sweepFrom, hvalue, hnext, moved, hactive,
            if_true, bind, Except.bind]
          exact hrun
        · simpa [NodeSet.sweep, hkeep] using hnodes
        · simpa [NodeSet.sweep, hkeep] using hany
        · simpa [NodeSet.sweep, hkeep] using hcurrent
      · have herase : isActive now i n.value = false := decide_eq_false hactive
        obtain ⟨t', hrun, hnodes, hnextId, hany, hcurrent⟩ := ih (i + 1)
          ⟨t.stations.erase n.id, true, t.removedCurrent || some n.id == currentStation⟩ kept
          (NodeSet.nodes_erase_of_split hsplit) hfuel'
        refine ⟨t', ?_, ?_, hnextId, ?_, ?_⟩
        · simp only [List.head?_cons, Option.map_some, sweepFrom, hvalue, hnext, moved, hactive,
            if_false, bind, Except.bind]
          exact hrun
        · simpa [NodeSet.sweep, herase] using hnodes
        · simpa [NodeSet.sweep, herase] using hany
        · have hcons : (NodeSet.sweep (isActive now) i (n :: rest)).2 =
              n :: (NodeSet.sweep (isActive now) (i + 1) rest).2 := by
            simp [NodeSet.sweep, herase]
          have hcompare : (some n.id == currentStation) = true ↔ currentStation = some n.id := by
            rw [beq_iff_eq]
            exact eq_comm
          rw [hcurrent, hcons]
          simp only [Bool.or_eq_true, hcompare, or_assoc, List.mem_cons, exists_eq_or_imp]

/-- The walk computes `removeInactive`. -/
theorem sweepInactive_eq (prioStationName : Option (List Char)) (s : Stations) (now : Nat → Int)
    {fuel : Nat} (hfuel : s.stations.nodes.length ≤ fuel) :
    sweepInactive fuel prioStationName s now = .ok (s.removeInactive prioStationName now) := by
  obtain ⟨t, hrun, hnodes, hnextId, hany, hcurrent⟩ := sweepFrom_eq now s.currentStation 0
    ⟨s.stations, false, false⟩ [] rfl hfuel
  have hstations : t.stations = s.stations.eraseUnless (isActive now) :=
    NodeSet.eq_of_nodes_eq hnodes hnextId
  have herased : t.removedAny = true ↔ s.stations.erased (isActive now) ≠ [] := by
    simpa [NodeSet.erased] using hany
  have hremoved : t.removedCurrent = true ↔
      ((s.stations.erased (isActive now)).any fun n => s.currentStation = some n.id) = true := by
    simpa [NodeSet.erased] using hcurrent
  have hwalk : sweepFrom now s.currentStation fuel 0 ⟨s.stations, false, false⟩
      s.stations.begin = .ok t := hrun
  unfold sweepInactive removeInactive
  simp only [hwalk, hstations, bind, Except.bind, pure, Except.pure]
  by_cases hnil : s.stations.erased (isActive now) = []
  · rw [if_neg (fun hany => herased.mp hany hnil), if_pos hnil]
  · rw [if_pos (herased.mpr hnil), if_neg hnil]
    congr 1
    exact if_congr hremoved rfl rfl

/-! ## The choice -/

/-- What `reset_current_station` points to. -/
theorem chosen_resetCurrentStation (prioStationName : Option (List Char)) (t : Stations) :
    Chosen prioStationName t.stations.nodes
      (t.resetCurrentStation prioStationName).currentStation := by
  have hfirst (hother : ∀ m ∈ t.stations.nodes, prioStationName ≠ some m.value.name) :
      Chosen prioStationName t.stations.nodes t.stations.begin := by
    unfold NodeSet.begin
    cases hnodes : t.stations.nodes with
    | nil => exact .gone rfl
    | cons n rest => exact .first n rest rfl (hnodes ▸ hother)
  unfold resetCurrentStation setCurrentStation
  cases prioStationName with
  | none => exact hfirst (by simp)
  | some name =>
      cases hfind : t.stations.nodes.find? fun n => n.value.name = name with
      | none =>
          have hother : ∀ m ∈ t.stations.nodes, some name ≠ some m.value.name := by
            intro m hm heq
            have hnone := List.find?_eq_none.mp hfind m hm
            exact hnone (decide_eq_true (Option.some.inj heq).symm)
          simpa [hfind] using hfirst hother
      | some n =>
          obtain ⟨hname, before, after, hsplit, hbefore⟩ := List.find?_eq_some_iff_append.mp hfind
          have hnamed : n.value.name = name := of_decide_eq_true hname
          have hchosen : Chosen (some name) t.stations.nodes (some n.id) := by
            refine .favourite before after n hsplit (by rw [hnamed]) fun m hm heq => ?_
            have hnot := hbefore m hm
            simp [Option.some.inj heq] at hnot
          simpa [hfind] using hchosen

theorem mem_erased_iff_tooOld {s : Stations} {now : Nat → Int} {n : Node RadioStation} :
    n ∈ s.stations.erased (isActive now) ↔ s.TooOld now n := by
  unfold NodeSet.erased TooOld
  rw [NodeSet.mem_erased_iff]
  simp only [Nat.zero_add, isActive, decide_eq_false_iff_not, not_lt]
  rfl

/-- A station is examined once, so the sweep either keeps it or finds it expired. -/
theorem mem_eraseUnless_iff {s : Stations} {now : Nat → Int} {n : Node RadioStation}
    (hn : n ∈ s.stations.nodes) :
    n ∈ (s.stations.eraseUnless (isActive now)).nodes ↔ ¬s.TooOld now n := by
  rw [← mem_erased_iff_tooOld]
  constructor
  · intro hkept herased
    obtain ⟨j, hj, hactive⟩ := (NodeSet.mem_nodes_eraseUnless ..).mp hkept
    obtain ⟨k, hk, hexpired⟩ := (NodeSet.mem_erased_iff _ 0).mp herased
    have hlt := (List.getElem?_eq_some_iff.mp hj).1
    have hjk : j = k :=
      (List.getElem?_inj hlt (List.Nodup.of_map _ s.stations.distinct)).mp (hj.trans hk.symm)
    rw [Nat.zero_add, ← hjk, hactive] at hexpired
    cases hexpired
  · intro hnot
    exact ((NodeSet.mem_sweep_iff (isActive now) 0).mp hn).resolve_right hnot

theorem removeInactive_sweepsExpired (prioStationName : Option (List Char)) (s : Stations)
    (now : Nat → Int) :
    SweepsExpired prioStationName now s (s.removeInactive prioStationName now) := by
  have hmem (n : Node RadioStation) :
      n ∈ s.stations.erased (isActive now) ↔ s.TooOld now n := mem_erased_iff_tooOld
  have hstations := stations_removeInactive (s := s) prioStationName now
  refine ⟨?_, fun n hn => ?_, fun hsurvives => ?_, fun hremoved => ?_, fun hany => ?_,
    fun hnone => ?_⟩
  · rw [hstations]
    exact NodeSet.sweep_sublist _ 0 s.stations.nodes
  · rw [hstations]
    exact mem_eraseUnless_iff hn
  · have hnot : ¬((s.stations.erased (isActive now)).any
        fun n => s.currentStation = some n.id) = true := by
      intro hcurrent
      obtain ⟨n, hn, heq⟩ := List.any_eq_true.mp hcurrent
      exact hsurvives n ((hmem n).mp hn) (of_decide_eq_true heq)
    unfold removeInactive
    by_cases hnil : s.stations.erased (isActive now) = []
    · rw [if_pos hnil]
      exact ⟨rfl, rfl⟩
    · rw [if_neg hnil, if_neg hnot]
      exact ⟨rfl, rfl⟩
  · obtain ⟨n, hexpired, heq⟩ := hremoved
    have hn := (hmem n).mpr hexpired
    have hcurrent : ((s.stations.erased (isActive now)).any
        fun n => s.currentStation = some n.id) = true :=
      List.any_eq_true.mpr ⟨n, hn, decide_eq_true heq⟩
    unfold removeInactive
    rw [if_neg (List.ne_nil_of_mem hn), if_pos hcurrent]
    exact ⟨chosen_resetCurrentStation .., rfl⟩
  · obtain ⟨n, hexpired⟩ := hany
    have hn := (hmem n).mpr hexpired
    unfold removeInactive
    rw [if_neg (List.ne_nil_of_mem hn)]
    split <;> rfl
  · have hnil : s.stations.erased (isActive now) = [] :=
      List.eq_nil_iff_forall_not_mem.mpr fun n hn => hnone n ((hmem n).mp hn)
    unfold removeInactive
    rw [if_pos hnil]

/-- A sweep removes exactly the expired stations and chooses the right current station. -/
theorem sweep_chooses (prioStationName : Option (List Char)) (s : Stations) (now : Nat → Int)
    {fuel : Nat} (hfuel : s.stations.nodes.length ≤ fuel) :
    ∃ s', sweepInactive fuel prioStationName s now = .ok s' ∧
      SweepsExpired prioStationName now s s' :=
  ⟨_, sweepInactive_eq prioStationName s now hfuel,
    removeInactive_sweepsExpired prioStationName s now⟩

section Example

/-- Station A is current and too old, B is the favourite station. -/
def outdated : Stations :=
  (init.addStation none ⟨⟨1, 2⟩, ⟨3, 4⟩, ⟨5, 6⟩, ['A'], 0, rfl⟩).addStation none
    ⟨⟨1, 2⟩, ⟨3, 4⟩, ⟨5, 6⟩, ['B'], 20 * 10 ^ 9, rfl⟩

theorem sweep_chooses_two_stations :
    ∃ s', sweepInactive 2 (some ['B']) outdated (fun _ => 30 * 10 ^ 9) = .ok s' ∧
      SweepsExpired (some ['B']) (fun _ => 30 * 10 ^ 9) outdated s' :=
  sweep_chooses (some ['B']) outdated (fun _ => 30 * 10 ^ 9) (by decide)

end Example

end SikRadio.Receiver.Stations
