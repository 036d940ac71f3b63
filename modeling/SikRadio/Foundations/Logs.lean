import Mathlib.Tactic

/-!
# Logs whose entries are justified by what precedes them

A log grows at its end. `Justified P log` says that every entry satisfies `P`
relative to the entries before it, which is how a property of an output over a
whole run is stated and how it is kept while the log grows.
-/

namespace SikRadio.Foundations.Logs

variable {α : Type} {P : List α → α → Prop}

/-- Every entry of the log satisfies `P` relative to the entries before it. -/
def Justified (P : List α → α → Prop) (log : List α) : Prop :=
  ∀ before entry after, log = before ++ entry :: after → P before entry

theorem justified_nil : Justified P [] := by
  intro before entry after h
  simp at h

theorem justified_concat_iff {log : List α} {entry : α} :
    Justified P (log ++ [entry]) ↔ Justified P log ∧ P log entry := by
  constructor
  · intro h
    refine ⟨fun before e after hlog => ?_, h log entry [] rfl⟩
    exact h before e (after ++ [entry]) (by simp [hlog])
  · rintro ⟨h, hentry⟩ before e after hlog
    rcases List.eq_nil_or_concat after with rfl | ⟨init, last, rfl⟩
    · obtain ⟨rfl, heq⟩ := List.append_inj' hlog rfl
      exact (List.cons.inj heq).1 ▸ hentry
    · rw [List.concat_eq_append, ← List.cons_append, ← List.append_assoc] at hlog
      obtain ⟨hinit, -⟩ := List.append_inj' hlog rfl
      exact h before e init hinit

theorem justified_iff_forall_lt {log : List α} :
    Justified P log ↔ ∀ i : Fin log.length, P (log.take i) log[i] := by
  constructor
  · intro h i
    exact h (log.take i) log[i] (log.drop (i + 1)) (by simp)
  · rintro h before entry after rfl
    simpa using h ⟨before.length, by simp⟩

/-- For a decidable justification a concrete log can be checked. -/
instance [∀ before entry, Decidable (P before entry)] (log : List α) :
    Decidable (Justified P log) :=
  decidable_of_iff _ justified_iff_forall_lt.symm

end SikRadio.Foundations.Logs
