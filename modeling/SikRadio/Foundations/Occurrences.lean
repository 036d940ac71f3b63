import Mathlib.Tactic

/-!
# Occurrences of a pattern in a text

`occurrences pat text` counts the positions of `text` at which `pat` starts.
For a pattern whose first character is used sparingly the count of a text
composed of parts is found part by part.
-/

namespace SikRadio.Foundations.Occurrences

variable {α : Type} [DecidableEq α]

def occurrences (pat : List α) : List α → Nat
  | [] => if pat = [] then 1 else 0
  | x :: xs => (if pat <+: x :: xs then 1 else 0) + occurrences pat xs

@[simp] theorem occurrences_nil (a : α) (pat : List α) : occurrences (a :: pat) [] = 0 := by
  simp [occurrences]

/-- A part without the first character of the pattern can be skipped. -/
theorem occurrences_append_of_not_mem {a : α} {pat xs : List α} (h : a ∉ xs) (ys : List α) :
    occurrences (a :: pat) (xs ++ ys) = occurrences (a :: pat) ys := by
  induction xs with
  | nil => rfl
  | cons x xs ih =>
      obtain ⟨hne, hxs⟩ := not_or.mp (mt List.mem_cons.mpr h)
      simp [occurrences, List.cons_prefix_cons, hne, ih hxs]

/-- A part composed of pieces each of which holds the pattern once or not at all. -/
theorem occurrences_flatMap_append {β : Type} {pat : List α} {f : β → List α} {p : β → Bool}
    (h : ∀ b ys, occurrences pat (f b ++ ys) = (if p b then 1 else 0) + occurrences pat ys)
    (bs : List β) (ys : List α) :
    occurrences pat (bs.flatMap f ++ ys) = bs.countP p + occurrences pat ys := by
  induction bs with
  | nil => simp
  | cons b bs ih =>
      rw [List.flatMap_cons, List.append_assoc, h, ih, List.countP_cons]
      omega

end SikRadio.Foundations.Occurrences
