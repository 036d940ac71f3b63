import SikRadio.Foundations.LockOrder

/-!
# What an order of the locks does not rule out

A thread on which code is run that takes a lock it owns, and a full queue whose
reader waits for a lock that the writer holds. Both are kept by every step, and
the second one is reached with any capacity.
-/

namespace SikRadio.Foundations.LockOrder

namespace Threads

section Jams
variable {T L Q : Type} [DecidableEq T] [DecidableEq L] [DecidableEq Q]
variable {s s' : Threads T L Q} {t u : T} {l : L} {q : Q} {rest code : List (Instr L Q)}
variable {rank : L → Nat} {capacity : Nat}
variable {allowed : Threads T L Q → Action T L Q → Prop}

/-- The thread is going to take a lock that it owns, and does not release it before. -/
structure TakesOwn (s : Threads T L Q) (t : T) (l : L) (rest : List (Instr L Q)) : Prop where
  owner : s.owner l = some t
  acquires : ∃ pre, s.code t = pre ++ .acquire l :: rest ∧ AcquiresFirst l pre

theorem TakesOwn.advance (h : s.TakesOwn t l rest) : (s.advance capacity t).TakesOwn t l rest := by
  obtain ⟨pre, hpre, hfirst⟩ := h.acquires
  rcases s.advance_eq_self_or capacity t with hsame | ⟨instr, hcode, hfree⟩
  · rw [hsame]
    exact h
  · have hne : instr ≠ .acquire l := fun heq => by
      have hnone := hfree l heq
      rw [h.owner] at hnone
      cases hnone
    rw [hpre] at hcode
    cases pre with
    | nil =>
        obtain ⟨rfl, -⟩ := List.cons_eq_cons.mp hcode
        exact absurd rfl hne
    | cons instr' pre =>
        obtain ⟨rfl, hrest⟩ := List.cons_eq_cons.mp hcode
        refine ⟨owner_advance capacity h.owner fun _ hhead => ?_,
          pre, hrest.symm, hfirst.tail hne⟩
        rw [hpre, List.cons_append, List.head?_cons, Option.some.injEq] at hhead
        exact hfirst.head_ne hhead

theorem TakesOwn.step (h : s.TakesOwn t l rest) {a : Action T L Q}
    (ha : ∀ code, a = .interrupt t code → AcquiresFirst l code) :
    (s.step capacity a).TakesOwn t l rest := by
  obtain ⟨pre, hpre, hfirst⟩ := h.acquires
  have hne : s.code t ≠ [] := by simp [hpre]
  cases a with
  | start v event code =>
      refine ⟨?_, pre, ?_, hfirst⟩
      · rw [Threads.step, owner_start]
        exact h.owner
      · rw [Threads.step, code_start_of_ne_nil hne, hpre]
  | interrupt v code =>
      by_cases hv : t = v
      · subst hv
        refine ⟨h.owner, code ++ pre, ?_, (ha code rfl).append hfirst⟩
        rw [Threads.step, code_setCode_self, hpre, List.append_assoc]
      · refine ⟨h.owner, pre, ?_, hfirst⟩
        rw [Threads.step, code_setCode_of_ne s hv, hpre]
  | advance v =>
      by_cases hv : t = v
      · subst hv
        exact h.advance
      · refine ⟨owner_advance capacity h.owner fun heq => absurd heq hv, pre, ?_, hfirst⟩
        rw [Threads.step, code_advance_of_ne hv, hpre]

/-- Such a thread never gets to what follows. -/
theorem TakesOwn.reaches (h : s.TakesOwn t l rest)
    (hallowed : ∀ s code, allowed s (.interrupt t code) → AcquiresFirst l code)
    (hreach : Reaches capacity allowed s s') : s'.TakesOwn t l rest := by
  induction hreach with
  | refl => exact h
  | tail _ hstep ih =>
      obtain ⟨a, ha, rfl⟩ := hstep
      exact ih.step fun code hcode => hallowed _ code (hcode ▸ ha)

/-- A thread is going to write to a full queue, unless it lets go of a lock for which the reader of
the queue is going to wait. -/
structure FullFor (capacity : Nat) (s : Threads T L Q) (t u : T) (l : L) (q : Q) : Prop where
  ne : t ≠ u
  owner : s.owner l = some t
  writes : ∃ pre rest, s.code t = pre ++ .push q :: rest ∧ .release l ∉ pre
  waits : ∃ pre rest, s.code u = pre ++ .acquire l :: rest
  full : capacity ≤ s.pending q

omit [DecidableEq T] [DecidableEq L] [DecidableEq Q] in
theorem FullFor.code_ne_nil (h : FullFor capacity s t u l q) : s.code t ≠ [] ∧ s.code u ≠ [] := by
  obtain ⟨pre, rest, hwrites, -⟩ := h.writes
  obtain ⟨pre', rest', hwaits⟩ := h.waits
  simp [hwrites, hwaits]

/-- The writer does not get past the queue. -/
theorem FullFor.advance_writer (h : FullFor capacity s t u l q) :
    FullFor capacity (s.advance capacity t) t u l q := by
  obtain ⟨pre, rest, hwrites, hrelease⟩ := h.writes
  obtain ⟨pre', rest', hwaits⟩ := h.waits
  cases pre with
  | nil =>
      have hstays : s.advance capacity t = s := by
        simp [Threads.advance, hwrites, h.full.not_gt]
      rw [hstays]
      exact h
  | cons instr pre =>
      rcases s.advance_eq_self_or capacity t with hsame | ⟨instr', hcode, -⟩
      · rw [hsame]
        exact h
      · rw [hwrites] at hcode
        obtain ⟨rfl, hrest⟩ := List.cons_eq_cons.mp hcode
        refine ⟨h.ne, owner_advance capacity h.owner fun _ hhead => ?_, ⟨pre, rest, hrest.symm, ?_⟩,
          ⟨pre', rest', ?_⟩, h.full.trans (pending_le_advance capacity t q)⟩
        · rw [hwrites, List.cons_append, List.head?_cons, Option.some.injEq] at hhead
          exact hrelease (hhead ▸ List.mem_cons_self)
        · exact fun hmem => hrelease (List.mem_cons_of_mem _ hmem)
        · rw [code_advance_of_ne h.ne.symm, hwaits]

/-- The reader does not get past the lock. -/
theorem FullFor.advance_reader (h : FullFor capacity s t u l q) :
    FullFor capacity (s.advance capacity u) t u l q := by
  obtain ⟨pre', rest', hwaits⟩ := h.waits
  have hwrites : ∃ pre rest, (s.advance capacity u).code t = pre ++ .push q :: rest ∧
      .release l ∉ pre := by
    rw [code_advance_of_ne h.ne]
    exact h.writes
  have hfull := h.full.trans (pending_le_advance capacity u q)
  have howner := owner_advance capacity h.owner fun heq => absurd heq h.ne
  cases pre' with
  | nil =>
      have hstays : s.advance capacity u = s := by
        simp [Threads.advance, hwaits, h.owner]
      rw [hstays]
      exact h
  | cons instr pre' =>
      rcases s.advance_eq_self_or capacity u with hsame | ⟨instr', hcode, -⟩
      · rw [hsame]
        exact h
      · rw [hwaits] at hcode
        obtain ⟨rfl, hrest⟩ := List.cons_eq_cons.mp hcode
        exact ⟨h.ne, howner, hwrites, ⟨pre', rest', hrest.symm⟩, hfull⟩

theorem FullFor.step (h : FullFor capacity s t u l q) {a : Action T L Q}
    (hreader : ∀ v code, a = .start v (some q) code → v = u)
    (hkeep : ∀ code, a = .interrupt t code → .release l ∉ code) :
    FullFor capacity (s.step capacity a) t u l q := by
  obtain ⟨htne, hune⟩ := h.code_ne_nil
  obtain ⟨pre, rest, hwrites, hrelease⟩ := h.writes
  obtain ⟨pre', rest', hwaits⟩ := h.waits
  cases a with
  | start v event code =>
      simp only [Threads.step]
      refine ⟨h.ne, ?_, ⟨pre, rest, ?_, hrelease⟩, ⟨pre', rest', ?_⟩, ?_⟩
      · rw [owner_start]
        exact h.owner
      · rw [code_start_of_ne_nil htne, hwrites]
      · rw [code_start_of_ne_nil hune, hwaits]
      · -- the reader is the only one to take an entry, and it is running
        unfold Threads.start
        split
        case isTrue hidle =>
          have hother : event ≠ some q := by
            rintro rfl
            exact hune (hreader v code rfl ▸ hidle.1)
          rw [pending_setCode]
          cases event with
          | none => exact h.full
          | some r =>
              have hr : q ≠ r := fun heq => hother (by rw [heq])
              simpa [take, setPending, hr] using h.full
        case isFalse => exact h.full
  | interrupt v code =>
      simp only [Threads.step]
      refine ⟨h.ne, h.owner, ?_, ?_, h.full⟩
      · by_cases hv : t = v
        · subst hv
          refine ⟨code ++ pre, rest, ?_, ?_⟩
          · rw [code_setCode_self, hwrites, List.append_assoc]
          · exact fun hmem => (List.mem_append.mp hmem).elim (hkeep code rfl) hrelease
        · exact ⟨pre, rest, by rw [code_setCode_of_ne s hv, hwrites], hrelease⟩
      · by_cases hv : u = v
        · subst hv
          exact ⟨code ++ pre', rest', by rw [code_setCode_self, hwaits, List.append_assoc]⟩
        · exact ⟨pre', rest', by rw [code_setCode_of_ne s hv, hwaits]⟩
  | advance v =>
      simp only [Threads.step]
      by_cases hvt : t = v
      · subst hvt
        exact h.advance_writer
      by_cases hvu : u = v
      · subst hvu
        exact h.advance_reader
      refine ⟨h.ne, owner_advance capacity h.owner fun heq => absurd heq hvt,
        ⟨pre, rest, ?_, hrelease⟩, ⟨pre', rest', ?_⟩,
        h.full.trans (pending_le_advance capacity v q)⟩
      · rw [code_advance_of_ne hvt, hwrites]
      · rw [code_advance_of_ne hvu, hwaits]

/-- Neither of them ever gets to the end of its code. -/
theorem FullFor.reaches (h : FullFor capacity s t u l q)
    (hreader : ∀ s v code, allowed s (.start v (some q) code) → v = u)
    (hkeep : ∀ s code, allowed s (.interrupt t code) → .release l ∉ code)
    (hreach : Reaches capacity allowed s s') : FullFor capacity s' t u l q := by
  induction hreach with
  | refl => exact h
  | tail _ hstep ih =>
      obtain ⟨a, ha, rfl⟩ := hstep
      exact ih.step (fun v code hstart => hreader _ v code (hstart ▸ ha))
        fun code hinterrupt => hkeep _ code (hinterrupt ▸ ha)

/-! ### A full queue can be reached -/

section Solo
variable [Fintype L] {w : T} {pre post : List (Instr L Q)}

variable (capacity) in
/-- While nobody else owns a lock, a thread can only lack room. -/
theorem Orderly.solo_advance (h : Orderly rank s) (hown : ∀ l u, s.owner l = some u → u = w)
    {instr : Instr L Q} (hcode : s.code w = instr :: rest)
    (hroom : ∀ q, instr = .push q → s.pending q < capacity) :
    (s.advance capacity w).code = Function.update s.code w rest ∧
      (∀ q, (s.advance capacity w).pending q = s.pending q + [instr].count (.push q)) ∧
      (∀ l u, (s.advance capacity w).owner l = some u → u = w) ∧
      follow rank (s.heldBy w) [instr] = some ((s.advance capacity w).heldBy w) := by
  have hw := h w
  rw [hcode, follow.eq_def] at hw
  cases instr with
  | acquire l =>
      simp only at hw
      split at hw
      case isTrue hbelow =>
        have hfree : s.owner l = none := by
          refine Option.eq_none_iff_forall_ne_some.mpr fun u hu => ?_
          exact lt_irrefl _ (hbelow l (mem_heldBy.mpr (hown l u hu ▸ hu)))
        have hfree' : (s.setCode w rest).owner l = none := hfree
        simp only [Threads.advance, hcode, if_pos hfree]
        refine ⟨rfl, fun q => by simp, fun m u hm => ?_, ?_⟩
        · by_cases hml : m = l
          · subst hml
            rw [owner_setOwner_self] at hm
            exact (Option.some.inj hm).symm
          · rw [owner_setOwner_of_ne _ hml] at hm
            exact hown m u hm
        · rw [heldBy_acquire hfree', if_pos rfl, follow, if_pos hbelow]
          rfl
      case isFalse => cases hw
  | release l =>
      simp only at hw
      split at hw
      case isTrue hmem =>
        have hmine := mem_heldBy.mp hmem
        have hmine' : (s.setCode w rest).owner l = some w := hmine
        simp only [Threads.advance, hcode, if_pos hmine]
        refine ⟨rfl, fun q => by simp, fun m u hm => ?_, ?_⟩
        · by_cases hml : m = l
          · subst hml
            rw [owner_setOwner_self] at hm
            cases hm
          · rw [owner_setOwner_of_ne _ hml] at hm
            exact hown m u hm
        · rw [heldBy_release hmine', if_pos rfl, follow, if_pos hmem]
          rfl
      case isFalse => cases hw
  | push q =>
      simp only [Threads.advance, hcode, if_pos (hroom q rfl)]
      refine ⟨rfl, fun r => ?_, hown, rfl⟩
      by_cases hrq : r = q
      · subst hrq
        simp [setPending]
      · have hne : (Instr.push q : Instr L Q) ≠ .push r := by simpa using Ne.symm hrq
        simp [setPending, hrq, hne]

variable (capacity) in
/-- While nobody else owns a lock and there is room, a thread runs through its code. -/
theorem Orderly.exists_solo (h : Orderly rank s) (hown : ∀ l u, s.owner l = some u → u = w)
    (hcode : s.code w = pre ++ post)
    (hroom : ∀ q, s.pending q + pre.count (.push q) ≤ capacity)
    (hadvance : ∀ s, allowed s (.advance w)) :
    ∃ s', Reaches capacity allowed s s' ∧ Orderly rank s' ∧
      s'.code = Function.update s.code w post ∧
      (∀ q, s'.pending q = s.pending q + pre.count (.push q)) ∧
      (∀ l u, s'.owner l = some u → u = w) ∧
      follow rank (s.heldBy w) pre = some (s'.heldBy w) := by
  induction pre generalizing s with
  | nil =>
      refine ⟨s, .refl, h, ?_, by simp, hown, rfl⟩
      rw [show post = s.code w from hcode.symm, Function.update_eq_self]
  | cons instr pre ih =>
      have hcount (q : Q) : (instr :: pre).count (.push q) =
          pre.count (.push q) + [instr].count (.push q) := by
        rw [List.count_cons, List.count_singleton]
      obtain ⟨hcode₁, hpending₁, hown₁, hheld₁⟩ :=
        h.solo_advance capacity hown hcode (by
          rintro q rfl
          have hq := hroom q
          rw [hcount] at hq
          simp at hq
          omega)
      have hrest : (s.advance capacity w).code w = pre ++ post := by
        rw [hcode₁, Function.update_self]
        rfl
      obtain ⟨s', hreach, horderly, hcode', hpending', hown', hheld'⟩ :=
        ih (h.advance w) hown₁ hrest fun q => by
          have hq := hroom q
          rw [hcount] at hq
          rw [hpending₁]
          omega
      refine ⟨s', .head ⟨.advance w, hadvance s, rfl⟩ hreach, horderly, ?_, fun q => ?_, hown', ?_⟩
      · rw [hcode', hcode₁, Function.update_idem]
      · rw [hpending', hpending₁, hcount]
        omega
      · have happend : instr :: pre = [instr] ++ pre := rfl
        rw [happend, follow_append, hheld₁]
        exact hheld'

variable (capacity) in
/-- A turn of a thread while no lock is taken. -/
theorem Orderly.exists_turn (h : Orderly rank s) (hidle : s.code w = [])
    (hfree : ∀ l, s.owner l = none) (hcode : Balanced rank ∅ code)
    (hroom : ∀ q, s.pending q + code.count (.push q) ≤ capacity)
    (hstart : ∀ s, allowed s (.start w none code)) (hadvance : ∀ s, allowed s (.advance w)) :
    ∃ s', Reaches capacity allowed s s' ∧ Orderly rank s' ∧ s'.code = s.code ∧
      (∀ l, s'.owner l = none) ∧ ∀ q, s'.pending q = s.pending q + code.count (.push q) := by
  have hstarted : s.start w none code = s.setCode w code := by
    simp [Threads.start, hidle, take]
  have hempty : s.heldBy w = ∅ := h.heldBy_eq_empty hidle
  have horderly : Orderly rank (s.setCode w code) := hstarted ▸ h.start w none hcode
  have hfree' (l : L) (u : T) (hu : (s.setCode w code).owner l = some u) : u = w := by
    rw [owner_setCode, hfree l] at hu
    cases hu
  have hrun : (s.setCode w code).code w = code ++ [] := by simp
  obtain ⟨s', hreach, horderly', hcode', hpending, hown, hheld⟩ :=
    horderly.exists_solo capacity hfree' hrun hroom hadvance
  refine ⟨s', .head ⟨.start w none code, hstart s, hstarted⟩ hreach, horderly', ?_, fun l => ?_,
    hpending⟩
  · have hsame : (s.setCode w code).code = Function.update s.code w code := rfl
    rw [hcode', hsame, Function.update_idem, ← hidle, Function.update_eq_self]
  · -- the code gave back everything it took
    refine Option.eq_none_iff_forall_ne_some.mpr fun u hu => ?_
    have hmem : l ∈ s'.heldBy w := mem_heldBy.mpr (hown l u hu ▸ hu)
    have hsame : (s.setCode w code).heldBy w = ∅ := hempty
    rw [hsame, hcode, Option.some.injEq] at hheld
    rw [← hheld] at hmem
    cases hmem

/-- A thread that writes to a queue under a lock and the reader of the queue, which takes the same
lock first, can block each other for ever, whatever the capacity is. -/
theorem exists_fullFor {r : T} {l : L} {q : Q} {before after taken : List (Instr L Q)}
    {held : Finset L} (hne : w ≠ r) (hcapacity : 0 < capacity)
    (hwriter : Balanced rank ∅ (before ++ .push q :: after))
    (honce : ∀ p, (before ++ .push q :: after).count (.push p) = if p = q then 1 else 0)
    (hbefore : follow rank ∅ before = some held) (hl : l ∈ held)
    (hreader : Balanced rank ∅ (.acquire l :: taken))
    (hwrites : ∀ s, allowed s (.start w none (before ++ .push q :: after)))
    (hreads : ∀ s, allowed s (.start r (some q) (.acquire l :: taken)))
    (hadvance : ∀ s t, allowed s (.advance t)) :
    ∃ s, Reaches capacity allowed idle s ∧ FullFor capacity s w r l q := by
  -- turns of the writer fill the queue
  have hfill (k : Nat) (hk : k ≤ capacity) : ∃ s : Threads T L Q,
      Reaches capacity allowed idle s ∧ Orderly rank s ∧ (∀ t, s.code t = []) ∧
      (∀ l, s.owner l = none) ∧
      ∀ p, s.pending p = if p = q then k else 0 := by
    induction k with
    | zero => exact ⟨idle, .refl, orderly_idle, fun _ => rfl, fun _ => rfl, by simp [idle]⟩
    | succ k ih =>
        obtain ⟨s, hreach, horderly, hcode, hfree, hpending⟩ := ih (by omega)
        obtain ⟨s', hturn, horderly', hcode', hfree', hpending'⟩ :=
          horderly.exists_turn capacity (hcode w) hfree hwriter (fun p => by
            rw [hpending, honce]
            split
            · omega
            · omega) hwrites fun s => hadvance s w
        refine ⟨s', hreach.trans hturn, horderly', fun t => by rw [hcode', hcode], hfree', ?_⟩
        intro p
        rw [hpending', hpending, honce]
        split
        · rfl
        · rfl
  obtain ⟨s₁, hreach₁, horderly₁, hcode₁, hfree₁, hpending₁⟩ := hfill capacity (le_refl _)
  have hfull : s₁.pending q = capacity := by rw [hpending₁, if_pos rfl]
  -- the reader takes an entry and is about to take the lock
  have hstarted : s₁.start r (some q) (.acquire l :: taken) =
      (s₁.setPending q (capacity - 1)).setCode r (.acquire l :: taken) := by
    have hentry : 0 < s₁.pending q := hfull ▸ hcapacity
    simp only [Threads.start, take]
    rw [if_pos ⟨hcode₁ r, by simpa using hentry⟩, hfull]
  have horderly₂ := hstarted ▸ horderly₁.start r (some q) hreader
  generalize hs₂ : (s₁.setPending q (capacity - 1)).setCode r (.acquire l :: taken) = s₂ at *
  have hidle₂ : s₂.code w = [] := by
    rw [← hs₂, code_setCode_of_ne _ hne, code_setPending, hcode₁]
  have hfree₂ (m : L) : s₂.owner m = none := by
    rw [← hs₂]
    exact hfree₁ m
  have hpending₂ (p : Q) : s₂.pending p = if p = q then capacity - 1 else 0 := by
    rw [← hs₂, pending_setCode]
    by_cases hp : p = q
    · simp [setPending, hp]
    · simp [setPending, hp, hpending₁]
  -- one turn of the writer fills the queue again, the next one stops in the middle
  obtain ⟨s₃, hreach₃, horderly₃, hcode₃, hfree₃, hpending₃⟩ :=
    horderly₂.exists_turn capacity hidle₂ hfree₂ hwriter (fun p => by
      rw [hpending₂, honce]
      split
      · omega
      · omega) hwrites fun s => hadvance s w
  have hidle₃ : s₃.code w = [] := by rw [hcode₃, hidle₂]
  have hpending₃' (p : Q) : s₃.pending p = if p = q then capacity else 0 := by
    rw [hpending₃, hpending₂, honce]
    split
    · omega
    · rfl
  have hstarted₃ : s₃.start w none (before ++ .push q :: after) =
      s₃.setCode w (before ++ .push q :: after) := by
    simp [Threads.start, hidle₃, take]
  have horderly₄ := hstarted₃ ▸ horderly₃.start w none hwriter
  have hempty : (s₃.setCode w (before ++ .push q :: after)).heldBy w = ∅ :=
    horderly₃.heldBy_eq_empty hidle₃
  have hcount (p : Q) : before.count (.push p) = 0 := by
    have hp := honce p
    rw [List.count_append, List.count_cons] at hp
    by_cases hpq : p = q
    · subst hpq
      simp at hp
      omega
    · rw [if_neg hpq] at hp
      omega
  have hrun : (s₃.setCode w (before ++ .push q :: after)).code w = before ++ .push q :: after :=
    code_setCode_self ..
  obtain ⟨s₅, hreach₅, -, hcode₅, hpending₅, -, hheld₅⟩ :=
    horderly₄.exists_solo capacity (fun m u hm => by rw [owner_setCode, hfree₃ m] at hm; cases hm)
      hrun (fun p => by
        rw [hcount, pending_setCode, hpending₃']
        split
        · omega
        · omega) fun s => hadvance s w
  rw [hempty, hbefore, Option.some.injEq] at hheld₅
  refine ⟨s₅, hreach₁.trans (.head ⟨_, hreads s₁, hstarted⟩
    (hreach₃.trans (.head ⟨_, hwrites s₃, hstarted₃⟩ hreach₅))), ?_⟩
  refine ⟨hne, mem_heldBy.mp (hheld₅ ▸ hl), ⟨[], after, ?_, by simp⟩, ⟨[], taken, ?_⟩, ?_⟩
  · rw [hcode₅, Function.update_self]
    rfl
  · rw [hcode₅, Function.update_of_ne hne.symm, code_setCode_of_ne _ hne.symm, hcode₃, ← hs₂,
      code_setCode_self]
    rfl
  · rw [hpending₅, pending_setCode, hpending₃', if_pos rfl]
    exact Nat.le_add_right _ _

end Solo

end Jams

end Threads

end SikRadio.Foundations.LockOrder
