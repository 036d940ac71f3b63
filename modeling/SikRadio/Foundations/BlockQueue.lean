import Mathlib.Data.List.TakeWhile
import Mathlib.Tactic

/-!
# A bounded queue of blocks

The last blocks of a stream in the order of the stream, with a gap for a block
that never came. A block that arrives may leave gaps before it and drives out
the oldest entries; what is taken from the front is heard with silence in the
gaps.
-/

namespace SikRadio.Foundations

/-- Oldest entry first; `none` is a gap. -/
abbrev BlockQueue (α : Type) := List (Option (List α))

namespace BlockQueue

variable {α : Type}

/-- The queue with the given number of gaps and a block behind it. -/
def appended (gaps : Nat) (xs : List α) (q : BlockQueue α) : BlockQueue α :=
  q ++ List.replicate gaps none ++ [some xs]

/-- The newest entries. -/
def newest (limit : Nat) (q : BlockQueue α) : BlockQueue α := q.drop (q.length - limit)

/-- The entries that are older than the newest. -/
def drivenOut (limit : Nat) (q : BlockQueue α) : BlockQueue α := q.take (q.length - limit)

/-- The number of blocks before the first gap. -/
def unbroken (q : BlockQueue α) : Nat := (q.takeWhile Option.isSome).length

/-- The bytes of the queue, for blocks of `m` bytes. -/
def heard [Zero α] (m : Nat) (q : BlockQueue α) : List α :=
  q.flatMap fun block => block.getD (List.replicate m 0)

/-- The block at an index, or nothing at a gap and behind the queue. -/
def blockAt (q : BlockQueue α) (i : Nat) : Option (List α) := (q[i]?).join

@[simp] theorem length_appended (gaps : Nat) (xs : List α) (q : BlockQueue α) :
    (appended gaps xs q).length = q.length + gaps + 1 := by
  simp [appended, Nat.add_assoc]

@[simp] theorem length_newest (limit : Nat) (q : BlockQueue α) :
    (newest limit q).length = min q.length limit := by
  rw [newest, List.length_drop]
  omega

theorem blockAt_drop (n : Nat) (q : BlockQueue α) (i : Nat) :
    blockAt (q.drop n) i = blockAt q (n + i) := by
  rw [blockAt, blockAt, List.getElem?_drop]

theorem blockAt_newest (limit : Nat) (q : BlockQueue α) (i : Nat) :
    blockAt (newest limit q) i = blockAt q (q.length - limit + i) :=
  blockAt_drop _ q i

/-- The new block stands behind the gaps, and the old entries where they were. -/
theorem blockAt_appended (gaps : Nat) (xs : List α) (q : BlockQueue α) (i : Nat) :
    blockAt (appended gaps xs q) i =
      if i = q.length + gaps then some xs else if i < q.length then blockAt q i else none := by
  unfold appended blockAt
  by_cases hnew : i = q.length + gaps
  · rw [if_pos hnew, List.getElem?_append_right (by simp [hnew])]
    simp [hnew]
  · rw [if_neg hnew]
    by_cases hold : i < q.length
    · rw [if_pos hold, List.append_assoc, List.getElem?_append_left hold]
    · rw [if_neg hold]
      rcases Nat.lt_or_gt_of_ne hnew with hgap | hbehind
      · rw [List.getElem?_append_left (by simpa using hgap),
          List.getElem?_append_right (not_lt.mp hold), List.getElem?_replicate]
        split
        · rfl
        · rfl
      · rw [List.getElem?_eq_none (by simp; omega)]
        rfl

/-- The newest of the entries that are driven out. -/
theorem getLast?_drivenOut (limit : Nat) (q : BlockQueue α) :
    (drivenOut limit q).getLast?.join =
      if q.length ≤ limit then none else blockAt q (q.length - limit - 1) := by
  unfold drivenOut blockAt
  split
  case isTrue hle => simp [Nat.sub_eq_zero_of_le hle]
  case isFalse hlt =>
    have hin : q.length - limit - 1 < q.length := by omega
    rw [List.getLast?_take, if_neg (by omega), List.getElem?_eq_getElem hin]
    rfl

/-- The bytes of a queue, block by block. -/
theorem heard_eq [Zero α] (m : Nat) (q : BlockQueue α) :
    heard m q = (List.range q.length).flatMap fun i => (blockAt q i).getD (List.replicate m 0) := by
  induction q with
  | nil => rfl
  | cons block q ih =>
      rw [List.length_cons, List.range_succ_eq_map, List.flatMap_cons, List.flatMap_map]
      exact congrArg (block.getD (List.replicate m 0) ++ ·) ih

/-- The entries by their indices. -/
theorem map_blockAt (q : BlockQueue α) : (List.range q.length).map (blockAt q) = q := by
  apply List.ext_getElem
  · simp
  · intro i _ hi
    simp [blockAt, hi]

theorem unbroken_le_length (q : BlockQueue α) : q.unbroken ≤ q.length :=
  (List.takeWhile_sublist _).length_le

theorem unbroken_eq_length_iff {q : BlockQueue α} : q.unbroken = q.length ↔ none ∉ q := by
  have hall : (∀ block ∈ q, block.isSome = true) ↔ none ∉ q := by
    constructor
    · intro h hgap
      cases h none hgap
    · rintro h (_ | block) hblock
      · exact absurd hblock h
      · rfl
  rw [unbroken, ← hall, ← List.takeWhile_eq_self_iff]
  exact ⟨(List.takeWhile_sublist _).eq_of_length, congrArg List.length⟩

/-- A walk over the entries stops at the first gap. -/
theorem length_takeWhile_range {q : BlockQueue α} {p : Nat → Bool}
    (hp : ∀ i < q.length, p i = (blockAt q i).isSome) :
    ((List.range q.length).takeWhile p).length = q.unbroken := by
  have hflags : (List.range q.length).map p = q.map Option.isSome := by
    conv_rhs => rw [← map_blockAt q, List.map_map]
    exact List.map_congr_left fun i hi => hp i (List.mem_range.mp hi)
  calc ((List.range q.length).takeWhile p).length
      = (((List.range q.length).map p).takeWhile id).length := by
        rw [List.takeWhile_map, List.length_map, Function.id_comp]
    _ = ((q.map Option.isSome).takeWhile id).length := by rw [hflags]
    _ = q.unbroken := by rw [List.takeWhile_map, List.length_map, Function.id_comp, unbroken]

/-- A walk past the end of the queue counts right unless there is no gap and what lies behind
the queue looks like a block. -/
theorem length_takeWhile_range_eq_iff {q : BlockQueue α} {p : Nat → Bool} {n : Nat}
    (hn : q.length < n) (hp : ∀ i < q.length, p i = (blockAt q i).isSome) :
    ((List.range n).takeWhile p).length = q.unbroken ↔ none ∈ q ∨ p q.length = false := by
  obtain ⟨k, rfl⟩ := Nat.exists_eq_add_of_lt hn
  have hinside := length_takeWhile_range hp
  rw [Nat.add_assoc, List.range_add, List.takeWhile_append, List.length_range, hinside]
  by_cases hgap : none ∈ q
  · have hlt : q.unbroken ≠ q.length := fun heq => unbroken_eq_length_iff.mp heq hgap
    rw [if_neg hlt, hinside]
    exact iff_of_true rfl (.inl hgap)
  · have hall := unbroken_eq_length_iff.mpr hgap
    rw [if_pos hall, List.length_append, List.length_range, hall, or_iff_right hgap,
      List.range_succ_eq_map, List.map_cons, Nat.add_zero]
    cases hbehind : p q.length with
    | true => simp [hbehind]
    | false => simp [hbehind]

end BlockQueue

end SikRadio.Foundations
