import Mathlib.Tactic

/-!
# A bounded window over a stream of blocks

A window is an interval of stream positions together with the blocks that are
held in it. Blocks of `m` bytes start at positions `lo`, `lo + m`, and so on. A
new block ahead of the window moves its end, and its start as far as a bound on
the length demands; a block inside fills a hole; playing takes the first block,
or zeros in its place.
-/

namespace SikRadio.Foundations

structure StreamWindow (α : Type) where
  lo : Nat
  hi : Nat
  held : Nat → Option (List α)
  lo_le : lo ≤ hi

namespace StreamWindow

variable {α : Type} (w : StreamWindow α) (m span p q : Nat) (xs : List α)

/-- The window before its first block, which will start at `p`. -/
def start (p : Nat) : StreamWindow α where
  lo := p
  hi := p
  held _ := none
  lo_le := le_refl _

/-- A block at `p`, at or behind the end, of a window of at most `span` bytes.
Positions between the old end and `p` are reserved and hold nothing. -/
def push (hp : w.hi ≤ p) : StreamWindow α where
  lo := max w.lo (p + m - span)
  hi := p + m
  held q := if q = p then some xs else if q < w.hi then w.held q else none
  lo_le := by
    have := w.lo_le
    omega

/-- A block inside the window. -/
def fill : StreamWindow α :=
  { w with held := fun q => if q = p then some xs else w.held q }

/-- The window after its first block is played. -/
def play (h : w.lo + m ≤ w.hi) : StreamWindow α :=
  { w with lo := w.lo + m, lo_le := h }

/-- What is played next: the first block, or silence. -/
def chunk [Zero α] : List α := (w.held w.lo).getD (List.replicate m 0)

section Push

variable {w m span p q xs} (hp : w.hi ≤ p)

@[simp] theorem held_push_self : (w.push m span p xs hp).held p = some xs := by
  simp [push]

theorem held_push_of_lt (hq : q < w.hi) : (w.push m span p xs hp).held q = w.held q := by
  have hne : q ≠ p := by omega
  simp [push, hne, hq]

theorem held_push_of_gap (hq : w.hi ≤ q) (hne : q ≠ p) :
    (w.push m span p xs hp).held q = none := by
  simp [push, hne, Nat.not_lt.mpr hq]

theorem lo_push : (w.push m span p xs hp).lo = max w.lo (p + m - span) := rfl

theorem lo_le_lo_push : w.lo ≤ (w.push m span p xs hp).lo :=
  Nat.le_max_left _ _

end Push

theorem lo_fill {w : StreamWindow α} {p : Nat} {xs : List α} : (w.fill p xs).lo = w.lo := rfl

theorem held_fill {w : StreamWindow α} {p q : Nat} {xs : List α} :
    (w.fill p xs).held q = if q = p then some xs else w.held q := rfl

end StreamWindow

end SikRadio.Foundations
