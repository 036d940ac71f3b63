import Mathlib.Tactic

/-!
# Text with separators

Texts are lists. The first separator of a text splits it in two, tokens are
joined by separators, and a list of tokens is read token by token.
-/

namespace SikRadio.Foundations.SeparatedText

variable {α β : Type}

/-- Reading a list of tokens succeeds with the results of reading each of them. -/
theorem mapM_eq_some_iff {f : α → Option β} {as : List α} {bs : List β} :
    as.mapM f = some bs ↔ List.Forall₂ (fun a b => f a = some b) as bs := by
  induction as generalizing bs with
  | nil =>
      rw [List.mapM_nil, List.forall₂_nil_left_iff]
      exact Option.some_inj.trans eq_comm
  | cons a as ih =>
      rw [List.mapM_cons, List.forall₂_cons_left_iff]
      constructor
      · intro h
        obtain ⟨b, hb, h⟩ := Option.bind_eq_some_iff.mp h
        obtain ⟨bs', hbs', h⟩ := Option.bind_eq_some_iff.mp h
        exact ⟨b, bs', hb, ih.mp hbs', (Option.some.inj h).symm⟩
      · rintro ⟨b, bs', hb, hbs', rfl⟩
        simp [hb, ih.mpr hbs']

variable [DecidableEq α] {sep : α}

/-- The first separator stands after a text that contains none. -/
theorem findIdx?_append_cons {front : List α} (h : sep ∉ front) (back : List α) :
    (front ++ sep :: back).findIdx? (· == sep) = some front.length := by
  have hnone : front.findIdx? (· == sep) = none := by
    rw [List.findIdx?_eq_none_iff]
    intro a ha
    exact beq_eq_false_iff_ne.mpr fun heq => h (heq ▸ ha)
  simp [List.findIdx?_append, hnone, List.findIdx?_cons]

/-- A text is split by its first separator. -/
theorem eq_of_findIdx?_eq_some {text : List α} {i : Nat}
    (h : text.findIdx? (· == sep) = some i) :
    text = text.take i ++ sep :: text.drop (i + 1) := by
  obtain ⟨hi, hsep, -⟩ := List.findIdx?_eq_some_iff_getElem.mp h
  have hat : text[i] = sep := eq_of_beq hsep
  conv_lhs => rw [← List.take_append_drop i text, List.drop_eq_getElem_cons hi, hat]

omit [DecidableEq α] in
theorem not_mem_intercalate {a : α} {tokens : List (List α)} (hsep : a ≠ sep)
    (h : ∀ token ∈ tokens, a ∉ token) : a ∉ [sep].intercalate tokens := by
  induction tokens with
  | nil => simp
  | cons token tokens ih =>
      have hrest := ih fun t ht => h t (List.mem_cons_of_mem token ht)
      have htoken := h token List.mem_cons_self
      cases tokens with
      | nil => simpa using htoken
      | cons next tokens =>
          rw [List.intercalate_cons_cons]
          simp [htoken, hsep, hrest]

omit [DecidableEq α] in
/-- Joined tokens end as the last of them does. -/
theorem exists_getLast?_intercalate (sep : α) {P : α → Prop} {tokens : List (List α)}
    (hne : tokens ≠ []) (h : ∀ token ∈ tokens, ∃ a, token.getLast? = some a ∧ P a) :
    ∃ a, ([sep].intercalate tokens).getLast? = some a ∧ P a := by
  induction tokens with
  | nil => exact absurd rfl hne
  | cons token tokens ih =>
      cases tokens with
      | nil => simpa using h token List.mem_cons_self
      | cons next tokens =>
          obtain ⟨a, ha, hP⟩ := ih (List.cons_ne_nil _ _)
            fun t ht => h t (List.mem_cons_of_mem token ht)
          refine ⟨a, ?_, hP⟩
          rw [List.intercalate_cons_cons, List.getLast?_append, ha]
          rfl

omit [DecidableEq α] in
/-- Each token brings one separator with it, except the last. -/
theorem length_intercalate (sep : α) {tokens : List (List α)} (hne : tokens ≠ []) :
    ([sep].intercalate tokens).length + 1 = (tokens.map fun token => token.length + 1).sum := by
  induction tokens with
  | nil => exact absurd rfl hne
  | cons token tokens ih =>
      cases tokens with
      | nil => simp
      | cons next tokens =>
          have hrest := ih (List.cons_ne_nil _ _)
          rw [List.intercalate_cons_cons, List.map_cons, List.sum_cons, ← hrest]
          simp only [List.length_append, List.length_singleton]
          omega

end SikRadio.Foundations.SeparatedText
