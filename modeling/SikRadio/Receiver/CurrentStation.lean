import SikRadio.Foundations.Occurrences
import SikRadio.Receiver.StationSteps

/-!
# The current station is always in the set

In every interleaving of the workers the current station is past the end while
no station is known and is an element of the set otherwise, so no iterator is
ever dereferenced or moved that designates nothing. The menu then marks exactly
the current station: the names of stations contain no escape character, so the
mark occurs in the text only where the menu puts it.
-/

namespace SikRadio.Receiver.Stations

open SikRadio.Common Foundations.CheckedRuns Foundations.OrderedNodes Foundations.Occurrences

/-- The text marks the station that the current station designates and no other. -/
def MarksCurrent (s : Stations) : Prop :=
  if s.stations.nodes = [] then occurrences chosenMark s.menuToStr = 0
  else
    ∃ station, s.stations.deref s.currentStation = some station ∧
      chosenMark ++ bold station.name <:+: s.menuToStr ∧
      occurrences chosenMark s.menuToStr = 1

theorem chosenMark_eq :
    chosenMark = esc :: ['[', '5', 'm', esc, '[', '1', ';', '9', '2', 'm', ' ', '>', ' ',
      esc, '[', '0', 'm', esc, '[', '2', '5', 'm'] := rfl

theorem esc_not_mem_name (station : RadioStation) : esc ∉ station.name := by
  intro hmem
  have hvalid := station.validName
  simp only [isValidName, Bool.and_eq_true, List.all_eq_true] at hvalid
  exact absurd (hvalid.2 esc hmem) (by decide)

/-- A part of the menu without an escape character holds no mark. -/
theorem occurrences_skip {part : List Char} (h : esc ∉ part) (rest : List Char) :
    occurrences chosenMark (part ++ rest) = occurrences chosenMark rest := by
  rw [chosenMark_eq]
  exact occurrences_append_of_not_mem h rest

theorem occurrences_mark (rest : List Char) :
    occurrences chosenMark (chosenMark ++ rest) = 1 + occurrences chosenMark rest := by
  simp [occurrences, chosenMark_eq, esc]

theorem occurrences_bold {name : List Char} (h : esc ∉ name) (rest : List Char) :
    occurrences chosenMark (bold name ++ rest) = occurrences chosenMark rest := by
  have hstart (ys : List Char) : occurrences chosenMark ([esc, '[', '1', 'm'] ++ ys) =
      occurrences chosenMark ys := by
    simp [occurrences, chosenMark_eq, esc]
  have hstop (ys : List Char) : occurrences chosenMark ([esc, '[', '2', '2', 'm'] ++ ys) =
      occurrences chosenMark ys := by
    simp [occurrences, chosenMark_eq, esc]
  unfold bold
  rw [List.append_assoc, List.append_assoc, hstart, occurrences_skip h, hstop]

/-- A line of the menu holds the mark when it is the line of the current station. -/
theorem occurrences_menuLine (currentStation : Option Nat) (n : Node RadioStation)
    (rest : List Char) :
    occurrences chosenMark (menuLine currentStation n ++ rest) =
      (if some n.id = currentStation then 1 else 0) + occurrences chosenMark rest := by
  have hname := esc_not_mem_name n.value
  have hnewline : esc ∉ newline := by decide
  unfold menuLine
  split
  · rw [List.append_assoc, List.append_assoc, occurrences_mark, occurrences_bold hname,
      occurrences_skip hnewline]
  · rw [List.append_assoc, occurrences_skip hname, occurrences_skip hnewline, Nat.zero_add]

theorem occurrences_menuToStr (s : Stations) :
    occurrences chosenMark s.menuToStr =
      s.stations.nodes.countP fun n => some n.id = s.currentStation := by
  have hbar : esc ∉ horizontalBar := by decide
  have hheader : esc ∉ horizontalBar ++ newline ++ programName ++ newline ++ horizontalBar ++
      newline := by decide
  have hend : occurrences chosenMark horizontalBar = 0 := by
    simpa [chosenMark_eq] using occurrences_skip hbar []
  unfold menuToStr
  rw [List.append_assoc _ (List.flatMap _ _), occurrences_skip hheader,
    occurrences_flatMap_append (p := fun n => some n.id = s.currentStation), hend, Nat.add_zero]
  intro n rest
  simpa using occurrences_menuLine s.currentStation n rest

/-- The line of a station is a part of the menu. -/
theorem menuLine_infix {s : Stations} {n : Node RadioStation} (hn : n ∈ s.stations.nodes) :
    menuLine s.currentStation n <:+: s.menuToStr := by
  obtain ⟨l, r, hsplit⟩ := List.append_of_mem hn
  unfold menuToStr
  rw [hsplit, List.flatMap_append, List.flatMap_cons]
  refine ⟨horizontalBar ++ newline ++ programName ++ newline ++ horizontalBar ++ newline ++
    l.flatMap (menuLine s.currentStation), r.flatMap (menuLine s.currentStation) ++ horizontalBar,
    ?_⟩
  simp only [List.append_assoc]

theorem CurrentValid.marksCurrent {s : Stations} (hv : s.CurrentValid) : s.MarksCurrent := by
  unfold MarksCurrent
  split
  case isTrue hnil => simp [occurrences_menuToStr, hnil]
  case isFalse hne =>
    obtain ⟨i, station, hi, hmem, hvalue, hderef⟩ := hv.exists_deref hne
    refine ⟨station, hderef, ?_, ?_⟩
    · have hline := menuLine_infix ((s.stations.value?_eq_some_iff).mp hvalue)
      refine List.IsInfix.trans ⟨[], newline, ?_⟩ hline
      simp [menuLine, hi]
    · rw [occurrences_menuToStr, hi]
      have hcount : s.stations.ids.count i = 1 := List.count_eq_one_of_mem s.stations.distinct hmem
      rw [← hcount, NodeSet.ids, List.count, List.countP_map]
      congr 1
      funext n
      simp [beq_eq_decide]

/-- Every interleaving of the workers reaches a state in which the current station is valid
and marked in the menu, unless the program ends at a reply whose host does not resolve. -/
theorem current_station_valid (getaddrinfo : List Char → Option Nat)
    (prioStationName : Option (List Char)) (actions : List Action) :
    (∃ s, run getaddrinfo prioStationName init actions = .ok s ∧ s.CurrentValid ∧
        s.MarksCurrent) ∨
      (run getaddrinfo prioStationName init actions = .error .fatal ∧
        ∃ a ∈ actions, Unresolved getaddrinfo a) := by
  have hstep (s : Stations) (a : Action) (hv : s.CurrentValid) :=
    exists_step hv getaddrinfo prioStationName a
  apply (ok_or_of_run hstep actions currentValid_init).imp_left
  rintro ⟨s, hrun, hv⟩
  exact ⟨s, hrun, hv, hv.marksCurrent⟩

end SikRadio.Receiver.Stations
