import Mathlib.Tactic

/-!
# A matcher that starts over

A pattern is a fixed beginning and a last character that says what was meant.
The matcher counts how much of the beginning it has read. A character that does
not go on with it sets the count back and is lost, so the matcher misses an
occurrence whose first character breaks off an unfinished one.

## Implementation notes

The first character of a pattern stands nowhere else in it. `occurring` asks of
every prefix of the text whether it ends in an occurrence, so the occurrences
come in order.
-/

namespace SikRadio.Foundations.ResetMatcher

/-- The beginning `head :: tail`, and what a character behind it means. -/
structure Pattern (α κ : Type) where
  head : α
  tail : List α
  finish : α → Option κ
  head_notMem : head ∉ tail
  finish_head : finish head = none

namespace Pattern

variable {α κ : Type} [DecidableEq α] (p : Pattern α κ)

def start : List α := p.head :: p.tail

/-- What the occurrence means in which the text ends. -/
def endingIn (text : List α) : Option κ :=
  text.getLast?.bind fun c => if p.start <:+ text.dropLast then p.finish c else none

/-- The occurrences in the text, in order. -/
def occurring (text : List α) : List κ := text.inits.filterMap p.endingIn

/-- How much of the beginning is read after `c`, when `n` characters of it were before. -/
def next (n : Nat) (c : α) : Nat := if p.start[n]? = some c then n + 1 else 0

/-- What the matcher yields when it reads `c`. -/
def output (n : Nat) (c : α) : Option κ := if n = p.start.length then p.finish c else none

/-- What the matcher yields on a text. -/
def emitted (n : Nat) : List α → List κ
  | [] => []
  | c :: cs => (p.output n c).toList ++ emitted (p.next n c) cs

/-- How much of the beginning is read at the end of the text. -/
def progress (text : List α) : Nat := text.foldl p.next 0

/-- The text ends in `k` unfinished beginnings in a row, and not in more. -/
inductive Unfinished : Nat → List α → Prop
  | none (text : List α) (whole : ∀ part, part ≠ [] → part <+: p.start → ¬part <:+ text) :
      Unfinished 0 text
  | snoc (k : Nat) (text part : List α) (before : Unfinished k text) (nonempty : part ≠ [])
      (beginning : part <+: p.start) : Unfinished (k + 1) (text ++ part)

/-- Every occurrence stands behind an even number of unfinished beginnings. -/
def NoneBroken (text : List α) : Prop :=
  ∀ pre c post k, text = pre ++ p.start ++ c :: post → p.finish c ≠ none →
    p.Unfinished k pre → Even k

/-! ## The text, character by character -/

theorem endingIn_concat (text : List α) (c : α) :
    p.endingIn (text ++ [c]) = if p.start <:+ text then p.finish c else none := by
  simp [endingIn]

theorem occurring_concat (text : List α) (c : α) :
    p.occurring (text ++ [c]) = p.occurring text ++ (p.endingIn (text ++ [c])).toList := by
  unfold occurring
  rw [List.inits_append, List.filterMap_append]
  cases hend : p.endingIn (text ++ [c]) with
  | none => simp [hend]
  | some meaning => simp [hend]

theorem progress_concat (text : List α) (c : α) :
    p.progress (text ++ [c]) = p.next (p.progress text) c := by
  simp [progress]

theorem emitted_append (n : Nat) (text rest : List α) :
    p.emitted n (text ++ rest) = p.emitted n text ++ p.emitted (text.foldl p.next n) rest := by
  induction text generalizing n with
  | nil => rfl
  | cons c text ih => simp [emitted, ih]

theorem emitted_concat (text : List α) (c : α) :
    p.emitted 0 (text ++ [c]) = p.emitted 0 text ++ (p.output (p.progress text) c).toList := by
  simp [emitted_append, emitted, progress]

/-! ## The count -/

/-- The text ends in what the matcher has read of the beginning. -/
theorem take_progress_suffix (text : List α) : p.start.take (p.progress text) <:+ text := by
  induction text using List.reverseRecOn with
  | nil => simp [progress]
  | append_singleton text c ih =>
      rw [progress_concat, next]
      split
      case isTrue hc =>
        rw [List.take_add_one, hc]
        exact List.suffix_concat_iff.mpr (.inr ⟨_, rfl, ih⟩)
      case isFalse => simp

/-- The matcher follows a beginning that it reads from its start. -/
theorem foldl_next_zero {part : List α} (hpart : part <+: p.start) :
    part.foldl p.next 0 = part.length := by
  induction part using List.reverseRecOn with
  | nil => rfl
  | append_singleton part c ih =>
      obtain ⟨rest, hrest⟩ := hpart
      have hc : p.start[part.length]? = some c := by
        rw [← hrest]
        simp
      have hbefore := ih ⟨c :: rest, by simpa using hrest⟩
      rw [List.foldl_concat, hbefore, next, if_pos hc, List.length_append, List.length_singleton]

/-- Without the first character it stays at the start. -/
theorem foldl_next_eq_zero {text : List α} (hhead : p.head ∉ text) :
    text.foldl p.next 0 = 0 := by
  induction text with
  | nil => rfl
  | cons c text ih =>
      obtain ⟨hne, hrest⟩ := not_or.mp (mt List.mem_cons.mpr hhead)
      have hc : p.next 0 c = 0 := by
        apply if_neg
        simpa [start] using hne
      rw [List.foldl_cons, hc]
      exact ih hrest

/-- A beginning that breaks off another one is lost as a whole. -/
theorem foldl_next_broken {n : Nat} (hn : n ≠ 0) {part : List α} (hne : part ≠ [])
    (hpart : part <+: p.start) : part.foldl p.next n = 0 := by
  obtain ⟨c, rest, rfl⟩ := List.exists_cons_of_ne_nil hne
  obtain ⟨rfl, hrest⟩ := List.cons_prefix_cons.mp hpart
  obtain ⟨m, rfl⟩ := Nat.exists_eq_succ_of_ne_zero hn
  have hreset : p.next (m + 1) p.head = 0 := by
    apply if_neg
    intro hget
    rw [start, List.getElem?_cons_succ] at hget
    exact p.head_notMem (List.mem_of_getElem? hget)
  rw [List.foldl_cons, hreset]
  exact p.foldl_next_eq_zero fun hmem => p.head_notMem (hrest.subset hmem)

/-- The matcher is at the start behind an even number of unfinished beginnings. -/
theorem progress_eq_zero_iff {k : Nat} {text : List α} (h : p.Unfinished k text) :
    p.progress text = 0 ↔ Even k := by
  induction h with
  | none text whole =>
      have hzero : p.progress text = 0 := by
        by_contra hne
        apply whole (p.start.take (p.progress text)) _ (List.take_prefix ..)
          (p.take_progress_suffix text)
        rw [Ne, List.take_eq_nil_iff]
        simp [hne, start]
      simp [hzero]
  | snoc k text part before nonempty beginning ih =>
      rw [Nat.even_add_one, ← ih, progress, List.foldl_append, ← progress]
      by_cases hzero : p.progress text = 0
      · rw [hzero, p.foldl_next_zero beginning]
        simp [nonempty]
      · rw [p.foldl_next_broken hzero nonempty beginning]
        simp [hzero]

omit [DecidableEq α] in
theorem exists_unfinished (text : List α) : ∃ k, p.Unfinished k text := by
  induction hlength : text.length using Nat.strong_induction_on generalizing text with
  | _ n ih =>
      by_cases hwhole : ∀ part, part ≠ [] → part <+: p.start → ¬part <:+ text
      · exact ⟨0, .none text hwhole⟩
      · push Not at hwhole
        obtain ⟨part, hne, hpart, before, rfl⟩ := hwhole
        have hshorter : before.length < n := by
          rw [← hlength, List.length_append]
          exact Nat.lt_add_of_pos_right (List.length_pos_of_ne_nil hne)
        obtain ⟨k, hk⟩ := ih before.length hshorter before rfl
        exact ⟨k + 1, .snoc k before part hk hne hpart⟩

/-- A whole beginning is followed when the matcher is at the start before it. -/
theorem progress_start_iff (pre : List α) :
    p.progress (pre ++ p.start) = p.start.length ↔ p.progress pre = 0 := by
  rw [progress, List.foldl_append, ← progress]
  by_cases hzero : p.progress pre = 0
  · rw [hzero]
    simpa using p.foldl_next_zero (List.prefix_refl _)
  · rw [p.foldl_next_broken hzero (by simp [start]) (List.prefix_refl _)]
    simp [hzero, start]

/-! ## The matcher and the occurrences -/

/-- The matcher yields nothing but the occurrence in which the text ends. -/
theorem output_sublist (text : List α) (c : α) :
    (p.output (p.progress text) c).toList.Sublist (p.endingIn (text ++ [c])).toList := by
  rw [endingIn_concat, output]
  split
  case isTrue hread =>
    have hstart := p.take_progress_suffix text
    rw [hread, List.take_length] at hstart
    rw [if_pos hstart]
  case isFalse => simp

theorem emitted_sublist (text : List α) : (p.emitted 0 text).Sublist (p.occurring text) := by
  induction text using List.reverseRecOn with
  | nil => simp [emitted]
  | append_singleton text c ih =>
      rw [emitted_concat, occurring_concat]
      exact ih.append (p.output_sublist text c)

/-- It yields this occurrence when it was at the start before it. -/
theorem output_eq_iff (text : List α) (c : α) :
    p.output (p.progress text) c = p.endingIn (text ++ [c]) ↔
      ∀ pre k, text = pre ++ p.start → p.finish c ≠ none → p.Unfinished k pre → Even k := by
  rw [endingIn_concat, output]
  constructor
  · rintro heq pre k rfl hfinish hk
    rw [if_pos (List.suffix_append ..)] at heq
    rw [← p.progress_eq_zero_iff hk, ← progress_start_iff]
    by_contra hne
    rw [if_neg hne] at heq
    exact hfinish heq.symm
  · intro heven
    by_cases hread : p.progress text = p.start.length
    · have hstart := p.take_progress_suffix text
      rw [hread, List.take_length] at hstart
      rw [if_pos hread, if_pos hstart]
    · rw [if_neg hread]
      split
      case isTrue hstart =>
        obtain ⟨pre, rfl⟩ := hstart
        obtain ⟨k, hk⟩ := p.exists_unfinished pre
        by_contra hfinish
        have hzero := (p.progress_eq_zero_iff hk).mpr (heven pre k rfl (Ne.symm hfinish) hk)
        exact hread ((p.progress_start_iff pre).mpr hzero)
      case isFalse => rfl

theorem append_eq_append_iff_of_sublist {xs xs' ys ys' : List κ} (hx : xs.Sublist xs')
    (hy : ys.Sublist ys') : xs ++ ys = xs' ++ ys' ↔ xs = xs' ∧ ys = ys' := by
  constructor
  · intro heq
    have hlength := congrArg List.length heq
    rw [List.length_append, List.length_append] at hlength
    have hxle := hx.length_le
    have hyle := hy.length_le
    exact ⟨hx.eq_of_length (by omega), hy.eq_of_length (by omega)⟩
  · rintro ⟨rfl, rfl⟩
    rfl

omit [DecidableEq α] in
theorem noneBroken_concat (text : List α) (c : α) :
    p.NoneBroken (text ++ [c]) ↔ p.NoneBroken text ∧
      ∀ pre k, text = pre ++ p.start → p.finish c ≠ none → p.Unfinished k pre → Even k := by
  constructor
  · intro h
    refine ⟨fun pre d post k heq => h pre d (post ++ [c]) k (by simp [heq]), fun pre k heq => ?_⟩
    exact h pre c [] k (by rw [heq])
  · rintro ⟨hbefore, hlast⟩ pre d post k heq
    cases post using List.reverseRecOn with
    | nil =>
        obtain ⟨rfl, hc⟩ := List.append_inj' heq rfl
        obtain rfl := (List.cons.inj hc).1
        exact hlast pre k rfl
    | append_singleton post e =>
        rw [← List.cons_append, ← List.append_assoc] at heq
        obtain ⟨rfl, -⟩ := List.append_inj' heq rfl
        exact hbefore pre d post k rfl

/-- The matcher yields exactly the occurrences when no occurrence breaks off a beginning. -/
theorem emitted_eq_occurring_iff (text : List α) :
    p.emitted 0 text = p.occurring text ↔ p.NoneBroken text := by
  induction text using List.reverseRecOn with
  | nil =>
      have hnone : p.NoneBroken [] := by
        intro pre c post k heq
        simp at heq
      simp [emitted, occurring, endingIn, hnone]
  | append_singleton text c ih =>
      rw [emitted_concat, occurring_concat,
        append_eq_append_iff_of_sublist (p.emitted_sublist text) (p.output_sublist text c), ih,
        noneBroken_concat, ← output_eq_iff]
      refine and_congr_right fun _ => ⟨fun heq => Option.ext fun meaning => ?_, congrArg _⟩
      have hmem : meaning ∈ (p.output (p.progress text) c).toList ↔
          meaning ∈ (p.endingIn (text ++ [c])).toList := by rw [heq]
      simpa using hmem

end Pattern

end SikRadio.Foundations.ResetMatcher
