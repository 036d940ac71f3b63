import Mathlib.Tactic

/-!
# Checked computations and guarded runs

A step of a program either yields the next state or stops with an error. A run
is the monadic fold of the step function over a list of actions. `Guarded`
says that every action of a run is taken in a state that meets a condition,
without assuming that the run gets past any of them.
-/

namespace SikRadio.Foundations.CheckedRuns

variable {ε σ α β : Type}

/-- Continue exactly when `p` holds; stop with `e` otherwise. -/
def check (p : Prop) [Decidable p] (e : ε) : Except ε Unit :=
  if p then .ok () else .error e

@[simp] theorem check_eq_ok_iff {p : Prop} [Decidable p] {e : ε} {u : Unit} :
    check p e = .ok u ↔ p := by
  unfold check
  split <;> simp_all

@[simp] theorem bind_eq_ok_iff {x : Except ε α} {k : α → Except ε β} {b : β} :
    (x >>= k) = .ok b ↔ ∃ a, x = .ok a ∧ k a = .ok b := by
  cases x with
  | error e => simp [bind, Except.bind]
  | ok a => simp [bind, Except.bind]

@[simp] theorem map_eq_ok_iff {x : Except ε α} {f : α → β} {b : β} :
    (f <$> x) = .ok b ↔ ∃ a, x = .ok a ∧ f a = b := by
  cases x with
  | error e => simp [Functor.map, Except.map]
  | ok a => simp [Functor.map, Except.map]

@[simp] theorem pure_eq_ok_iff {a b : α} : (pure a : Except ε α) = .ok b ↔ a = b := by
  simp [pure, Except.pure]

/-- A computation that evaluates to an error yields no result. -/
theorem ne_ok_of_isOk {x : Except ε α} (h : x.isOk = false) {a : α} : x ≠ .ok a := by
  rintro rfl
  cases h

theorem exists_ok_of_isOk {x : Except ε α} (h : x.isOk = true) : ∃ a, x = .ok a := by
  cases x with
  | error e => cases h
  | ok a => exact ⟨a, rfl⟩

/-- A computation that evaluates to a result with the property `Q`. -/
theorem exists_ok_and {x : Except ε α} {Q : α → Prop} (h : x.isOk = true)
    (hQ : ∀ a, x = .ok a → Q a) : ∃ a, x = .ok a ∧ Q a :=
  (exists_ok_of_isOk h).imp fun a hx => ⟨hx, hQ a hx⟩

/-- What is read off the evaluated result holds of the result. -/
theorem eq_of_toOption_map {x : Except ε α} (f : α → β) {v : β} (h : x.toOption.map f = some v)
    {a : α} (hx : x = .ok a) : f a = v := by
  subst hx
  exact Option.some.inj h

theorem eq_ok_of_toOption {x : Except ε α} {a : α} (h : x.toOption = some a) : x = .ok a := by
  cases x with
  | error e => cases h
  | ok b => rw [Option.some.inj h]

/-- Every result of a list of computations is the result of one of them. -/
theorem exists_of_mem_mapM {f : α → Except ε β} {as : List α} {bs : List β}
    (h : as.mapM f = .ok bs) {b : β} (hb : b ∈ bs) : ∃ a ∈ as, f a = .ok b := by
  induction as generalizing bs with
  | nil =>
      obtain rfl : [] = bs := by simpa using h
      simp at hb
  | cons a as ih =>
      simp only [List.mapM_cons, bind_eq_ok_iff, pure_eq_ok_iff] at h
      obtain ⟨c, hc, cs, hcs, rfl⟩ := h
      rcases List.mem_cons.mp hb with rfl | hmem
      · exact ⟨a, List.mem_cons_self .., hc⟩
      · obtain ⟨a', ha', hb'⟩ := ih hcs hmem
        exact ⟨a', List.mem_cons_of_mem a ha', hb'⟩

variable {step : σ → α → Except ε σ}

/-- Each action of the list is taken in a state where `guard` holds, as far as
the run gets. -/
def Guarded (step : σ → α → Except ε σ) (guard : σ → α → Prop) : σ → List α → Prop
  | _, [] => True
  | s, a :: as => guard s a ∧ ∀ s', step s a = .ok s' → Guarded step guard s' as

/-- Whether a run is guarded can be evaluated along the run. -/
instance decidableGuarded (step : σ → α → Except ε σ) (guard : σ → α → Prop)
    [∀ s a, Decidable (guard s a)] : (s : σ) → (as : List α) → Decidable (Guarded step guard s as)
  | _, [] => isTrue trivial
  | s, a :: as =>
      match hs : step s a with
      | .error _ => decidable_of_iff (guard s a) (by simp [Guarded, hs])
      | .ok s' =>
          have := decidableGuarded step guard s' as
          decidable_of_iff (guard s a ∧ Guarded step guard s' as) (by simp [Guarded, hs])

theorem Guarded.imp {G H : σ → α → Prop} {s : σ} {as : List α} (hg : Guarded step G s as)
    (himp : ∀ s a, G s a → H s a) : Guarded step H s as := by
  induction as generalizing s with
  | nil => trivial
  | cons a as ih => exact ⟨himp s a hg.1, fun s' hs => ih (hg.2 s' hs)⟩

theorem Guarded.and {G H : σ → α → Prop} {s : σ} {as : List α} (hg : Guarded step G s as)
    (hh : Guarded step H s as) : Guarded step (fun s a => G s a ∧ H s a) s as := by
  induction as generalizing s with
  | nil => trivial
  | cons a as ih => exact ⟨⟨hg.1, hh.1⟩, fun s' hs => ih (hg.2 s' hs) (hh.2 s' hs)⟩

/-- A restriction on the actions alone can be moved into the guard. -/
theorem Guarded.restrict {G : σ → α → Prop} {A : α → Prop} {s : σ} {as : List α}
    (hg : Guarded step G s as) (ha : ∀ a ∈ as, A a) :
    Guarded step (fun s a => A a ∧ G s a) s as := by
  induction as generalizing s with
  | nil => trivial
  | cons a as ih =>
      refine ⟨⟨ha a (by simp), hg.1⟩, fun s' hs => ?_⟩
      exact ih (hg.2 s' hs) (fun b hb => ha b (by simp [hb]))

theorem Guarded.of_forall {A : α → Prop} {s : σ} {as : List α} (ha : ∀ a ∈ as, A a) :
    Guarded step (fun _ a => A a) s as := by
  induction as generalizing s with
  | nil => trivial
  | cons a as ih =>
      exact ⟨ha a (by simp), fun s' _ => ih (fun b hb => ha b (by simp [hb]))⟩

/-- Every run meets the empty guard. -/
theorem guarded_true (s : σ) (as : List α) : Guarded step (fun _ _ => True) s as :=
  Guarded.of_forall (A := fun _ => True) fun _ _ => trivial

theorem Guarded.append_iff {G : σ → α → Prop} {s : σ} {as bs : List α} :
    Guarded step G s (as ++ bs) ↔
      Guarded step G s as ∧ ∀ s', as.foldlM step s = .ok s' → Guarded step G s' bs := by
  induction as generalizing s with
  | nil => simp [Guarded]
  | cons a as ih =>
      simp only [List.cons_append, Guarded, ih, List.foldlM_cons, bind_eq_ok_iff]
      constructor
      · rintro ⟨hg, hrest⟩
        refine ⟨⟨hg, fun s' hs => (hrest s' hs).1⟩, ?_⟩
        rintro s'' ⟨s', hs, hrun⟩
        exact (hrest s' hs).2 s'' hrun
      · rintro ⟨⟨hg, hrest⟩, htail⟩
        exact ⟨hg, fun s' hs => ⟨hrest s' hs, fun s'' hrun => htail s'' ⟨s', hs, hrun⟩⟩⟩

/-- An invariant that every guarded step preserves holds after every guarded run. -/
theorem inv_of_guarded_run {I : σ → Prop} {G : σ → α → Prop}
    (hstep : ∀ s a s', I s → G s a → step s a = .ok s' → I s')
    {s s' : σ} {as : List α} (hi : I s) (hg : Guarded step G s as)
    (hrun : as.foldlM step s = .ok s') : I s' := by
  induction as generalizing s with
  | nil =>
      simp only [List.foldlM_nil, pure_eq_ok_iff] at hrun
      exact hrun ▸ hi
  | cons a as ih =>
      simp only [List.foldlM_cons, bind_eq_ok_iff] at hrun
      obtain ⟨s₁, hs, hrest⟩ := hrun
      exact ih (hstep s a s₁ hi hg.1 hs) (hg.2 s₁ hs) hrest

/-- The same of a run without a guard. -/
theorem inv_of_run {I : σ → Prop} (hstep : ∀ s a s', I s → step s a = .ok s' → I s')
    {s s' : σ} {as : List α} (hi : I s) (hrun : as.foldlM step s = .ok s') : I s' :=
  inv_of_guarded_run (fun s a s' hi _ => hstep s a s' hi) hi (guarded_true s as) hrun

/-- If an invariant gives the guard of every action, every run is guarded. -/
theorem guarded_of_inv {I : σ → Prop} {G : σ → α → Prop}
    (hinv : ∀ s a s', I s → step s a = .ok s' → I s') (hguard : ∀ s a, I s → G s a)
    {s : σ} (as : List α) (hi : I s) : Guarded step G s as := by
  induction as generalizing s with
  | nil => trivial
  | cons a as ih => exact ⟨hguard s a hi, fun s' hs => ih (hinv s a s' hi hs)⟩

/-- If a guarded step never stops and preserves the invariant, neither does a guarded run. -/
theorem ok_of_guarded {I : σ → Prop} {G : σ → α → Prop}
    (hstep : ∀ s a, I s → G s a → ∃ s', step s a = .ok s' ∧ I s')
    {s : σ} {as : List α} (hi : I s) (hg : Guarded step G s as) :
    ∃ s', as.foldlM step s = .ok s' ∧ I s' := by
  induction as generalizing s with
  | nil => exact ⟨s, rfl, hi⟩
  | cons a as ih =>
      obtain ⟨s₁, hs, hi₁⟩ := hstep s a hi hg.1
      obtain ⟨s', hrun, hi'⟩ := ih hi₁ (hg.2 s₁ hs)
      refine ⟨s', ?_, hi'⟩
      simp only [List.foldlM_cons, bind_eq_ok_iff]
      exact ⟨s₁, hs, hrun⟩

/-- If a guarded step stops only with `e` and only at a bad action, so does a guarded run. -/
theorem ok_or_of_guarded {I : σ → Prop} {G : σ → α → Prop} {bad : α → Prop} {e : ε}
    (hstep : ∀ s a, I s → G s a →
      (∃ s', step s a = .ok s' ∧ I s') ∨ (step s a = .error e ∧ bad a))
    {s : σ} {as : List α} (hi : I s) (hg : Guarded step G s as) :
    (∃ s', as.foldlM step s = .ok s' ∧ I s') ∨
      (as.foldlM step s = .error e ∧ ∃ a ∈ as, bad a) := by
  induction as generalizing s with
  | nil => exact .inl ⟨s, rfl, hi⟩
  | cons a as ih =>
      rw [List.foldlM_cons]
      rcases hstep s a hi hg.1 with ⟨s₁, hs, hi₁⟩ | ⟨hs, hbad⟩
      · rcases ih hi₁ (hg.2 s₁ hs) with hrun | ⟨hrun, b, hb, hbad⟩
        · rw [hs]
          exact .inl hrun
        · rw [hs]
          exact .inr ⟨hrun, b, List.mem_cons_of_mem a hb, hbad⟩
      · rw [hs]
        exact .inr ⟨rfl, a, List.mem_cons_self .., hbad⟩

/-- The same of a run without a guard. -/
theorem ok_or_of_run {I : σ → Prop} {bad : α → Prop} {e : ε}
    (hstep : ∀ s a, I s → (∃ s', step s a = .ok s' ∧ I s') ∨ (step s a = .error e ∧ bad a))
    {s : σ} (as : List α) (hi : I s) :
    (∃ s', as.foldlM step s = .ok s' ∧ I s') ∨
      (as.foldlM step s = .error e ∧ ∃ a ∈ as, bad a) :=
  ok_or_of_guarded (fun s a hi _ => hstep s a hi) hi (guarded_true s as)

/-- If the guard is exactly the condition under which a step does not stop,
then a run does not stop exactly when it is guarded. -/
theorem ok_iff_guarded {I : σ → Prop} {G : σ → α → Prop}
    (hinv : ∀ s a s', I s → step s a = .ok s' → I s')
    (hstep : ∀ s a, I s → ((∃ s', step s a = .ok s') ↔ G s a))
    {s : σ} {as : List α} (hi : I s) :
    (∃ s', as.foldlM step s = .ok s') ↔ Guarded step G s as := by
  induction as generalizing s with
  | nil => simp [Guarded]
  | cons a as ih =>
      simp only [List.foldlM_cons, bind_eq_ok_iff, Guarded, ← hstep s a hi]
      constructor
      · rintro ⟨s', s₁, hs, hrun⟩
        refine ⟨⟨s₁, hs⟩, fun s₂ hs₂ => ?_⟩
        obtain rfl : s₁ = s₂ := Except.ok.inj (hs.symm.trans hs₂)
        exact (ih (hinv s a s₁ hi hs)).mp ⟨s', hrun⟩
      · rintro ⟨⟨s₁, hs⟩, hrest⟩
        obtain ⟨s', hrun⟩ := (ih (hinv s a s₁ hi hs)).mpr (hrest s₁ hs)
        exact ⟨s', s₁, hs, hrun⟩

/-- After each action of the list the run is still going and the state satisfies `Q`. -/
def AfterEach (step : σ → α → Except ε σ) (Q : σ → α → Prop) (s : σ) (as : List α) : Prop :=
  ∀ before a after, as = before ++ a :: after →
    ∃ s', (before ++ [a]).foldlM step s = .ok s' ∧ Q s' a

theorem afterEach_nil {Q : σ → α → Prop} {s : σ} : AfterEach step Q s [] := by
  intro before a after h
  simp at h

theorem afterEach_cons_iff {Q : σ → α → Prop} {s : σ} {a : α} {as : List α} :
    AfterEach step Q s (a :: as) ↔
      ∃ s', step s a = .ok s' ∧ Q s' a ∧ AfterEach step Q s' as := by
  constructor
  · intro h
    obtain ⟨s', hrun, hq⟩ := h [] a as rfl
    simp only [List.nil_append, List.foldlM_cons, List.foldlM_nil, bind_eq_ok_iff,
      pure_eq_ok_iff, exists_eq_right] at hrun
    refine ⟨s', hrun, hq, fun before b after hlist => ?_⟩
    obtain ⟨s'', hrun', hq'⟩ := h (a :: before) b after (by simp [hlist])
    simp only [List.cons_append, List.foldlM_cons, bind_eq_ok_iff] at hrun'
    obtain ⟨s₁, hs₁, hrest⟩ := hrun'
    obtain rfl : s' = s₁ := Except.ok.inj (hrun.symm.trans hs₁)
    exact ⟨s'', hrest, hq'⟩
  · rintro ⟨s', hs, hq, hrest⟩ before b after hlist
    cases before with
    | nil =>
        obtain ⟨rfl, rfl⟩ := List.cons.inj hlist
        exact ⟨s', by simp [hs], hq⟩
    | cons c before =>
        obtain ⟨rfl, rfl⟩ := List.cons.inj hlist
        obtain ⟨s'', hrun, hq'⟩ := hrest before b after rfl
        refine ⟨s'', ?_, hq'⟩
        simp only [List.cons_append, List.foldlM_cons, bind_eq_ok_iff]
        exact ⟨s', hs, hrun⟩

/-- If a step is good exactly when its guard holds, then a run is good after each of its actions
exactly when it is guarded. -/
theorem afterEach_iff_guarded {I : σ → Prop} {A G Q : σ → α → Prop}
    (hkeep : ∀ s a, I s → A s a → G s a → ∃ s', step s a = .ok s' ∧ I s' ∧ Q s' a)
    (hbreak : ∀ s a s', I s → A s a → step s a = .ok s' → Q s' a → G s a)
    {s : σ} {as : List α} (hi : I s) (ha : Guarded step A s as) :
    AfterEach step Q s as ↔ Guarded step G s as := by
  induction as generalizing s with
  | nil => exact iff_of_true afterEach_nil trivial
  | cons a as ih =>
      rw [afterEach_cons_iff]
      constructor
      · rintro ⟨s', hs, hq, hrest⟩
        have hg := hbreak s a s' hi ha.1 hs hq
        obtain ⟨s'', hs'', hi', -⟩ := hkeep s a hi ha.1 hg
        obtain rfl : s' = s'' := Except.ok.inj (hs.symm.trans hs'')
        refine ⟨hg, fun s'' hs'' => ?_⟩
        obtain rfl : s' = s'' := Except.ok.inj (hs.symm.trans hs'')
        exact (ih hi' (ha.2 s' hs)).mp hrest
      · rintro ⟨hg, hrest⟩
        obtain ⟨s', hs, hi', hq⟩ := hkeep s a hi ha.1 hg
        exact ⟨s', hs, hq, (ih hi' (ha.2 s' hs)).mpr (hrest s' hs)⟩

/-- Every step that the run takes satisfies `P`. -/
def EveryStep (step : σ → α → Except ε σ) (P : σ → α → σ → Prop) (s : σ) (as : List α) : Prop :=
  ∀ before a after s₁ s₂, as = before ++ a :: after → before.foldlM step s = .ok s₁ →
    step s₁ a = .ok s₂ → P s₁ a s₂

/-- The last step of a run that gets to its end. -/
theorem EveryStep.exists_last {P : σ → α → σ → Prop} {s : σ} {as : List α} {a : α}
    (h : EveryStep step P s (as ++ [a])) (hok : ((as ++ [a]).foldlM step s).isOk = true) :
    ∃ s₁ s₂, (as ++ [a]).foldlM step s = .ok s₂ ∧ P s₁ a s₂ := by
  obtain ⟨s₂, hrun⟩ := exists_ok_of_isOk hok
  have hlast := hrun
  simp only [List.foldlM_append, List.foldlM_cons, List.foldlM_nil, bind_eq_ok_iff,
    pure_eq_ok_iff, exists_eq_right] at hlast
  obtain ⟨s₁, hbefore, hs⟩ := hlast
  exact ⟨s₁, s₂, hrun, h as a [] s₁ s₂ rfl hbefore hs⟩

/-- What holds of a step from a state with the invariant holds of every step of a guarded run. -/
theorem everyStep_of_guarded {I : σ → Prop} {G : σ → α → Prop} {P : σ → α → σ → Prop}
    (hinv : ∀ s a s', I s → G s a → step s a = .ok s' → I s')
    (hstep : ∀ s a s', I s → G s a → step s a = .ok s' → P s a s')
    {s : σ} {as : List α} (hi : I s) (hg : Guarded step G s as) : EveryStep step P s as := by
  rintro before a after s₁ s₂ rfl hrun hs
  obtain ⟨hbefore, hafter⟩ := Guarded.append_iff.mp hg
  exact hstep s₁ a s₂ (inv_of_guarded_run hinv hi hbefore hrun) (hafter s₁ hrun).1 hs

end SikRadio.Foundations.CheckedRuns
