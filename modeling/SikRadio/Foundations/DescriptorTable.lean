import Mathlib.Data.Finset.Lattice.Fold
import Mathlib.Tactic

/-!
# Descriptor tables

The open descriptors of a process, each with what is kept for it. A new one gets
the lowest number that is free, so that a number that was given back is soon
given out again.
-/

namespace SikRadio.Foundations.DescriptorTable

structure Table (E : Type) where
  entries : List (Option E)

namespace Table

variable {E : Type}

/-- What is open under a number. -/
def entry (t : Table E) (fd : Nat) : Option E := t.entries[fd]?.join

/-- The number that is given out next. -/
def lowest (t : Table E) : Nat := t.entries.findIdx Option.isNone

def set (t : Table E) (fd : Nat) (e : Option E) : Table E where
  entries := (t.entries ++ List.replicate (fd + 1 - t.entries.length) none).set fd e

/-- The same entry under each of finitely many numbers. -/
def ofFinset (fds : Finset Nat) (e : E) : Table E where
  entries := (List.range (fds.sup id + 1)).map fun fd => if fd ∈ fds then some e else none

theorem entry_ofFinset (fds : Finset Nat) (e : E) (fd : Nat) :
    (ofFinset fds e).entry fd = if fd ∈ fds then some e else none := by
  unfold entry ofFinset
  by_cases hlt : fd < fds.sup id + 1
  · simp [List.getElem?_range hlt]
  · have hout : fd ∉ fds := by
      intro hmem
      have hle : fd ≤ fds.sup id := Finset.le_sup (f := id) hmem
      omega
    rw [List.getElem?_eq_none (by simpa using hlt), if_neg hout]
    rfl

theorem entry_lowest (t : Table E) : t.entry t.lowest = none := by
  unfold entry lowest
  by_cases hlt : t.entries.findIdx Option.isNone < t.entries.length
  · have hfree := List.findIdx_getElem (w := hlt)
    rw [List.getElem?_eq_getElem hlt, Option.isNone_iff_eq_none.mp hfree]
    rfl
  · rw [List.getElem?_eq_none (by omega)]
    rfl

theorem entry_set (t : Table E) (fd : Nat) (e : Option E) (x : Nat) :
    (t.set fd e).entry x = if x = fd then e else t.entry x := by
  unfold entry set
  rw [List.getElem?_set]
  by_cases hx : x = fd
  · subst hx
    rw [if_pos rfl, if_pos rfl, if_pos (by simp; omega)]
    rfl
  · rw [if_neg (Ne.symm hx), if_neg hx]
    by_cases hlt : x < t.entries.length
    · rw [List.getElem?_append_left hlt]
    · rw [List.getElem?_append_right (by omega), List.getElem?_eq_none (l := t.entries) (by omega),
        List.getElem?_replicate]
      split <;> rfl

@[simp] theorem entry_set_self (t : Table E) (fd : Nat) (e : Option E) :
    (t.set fd e).entry fd = e := by
  rw [entry_set, if_pos rfl]

theorem entry_set_of_ne (t : Table E) {fd x : Nat} (hx : x ≠ fd) (e : Option E) :
    (t.set fd e).entry x = t.entry x := by
  rw [entry_set, if_neg hx]

/-- A number that is open is not given out. -/
theorem ne_lowest {t : Table E} {fd : Nat} (h : t.entry fd ≠ none) : fd ≠ t.lowest := by
  rintro rfl
  exact h t.entry_lowest

end Table

end SikRadio.Foundations.DescriptorTable
