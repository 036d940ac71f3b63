import Mathlib.Algebra.BigOperators.Group.Finset.Basic
import Mathlib.Data.Fintype.Basic
import Mathlib.Logic.Relation
import Mathlib.Tactic

/-!
# Threads that take locks in order

Threads run pieces of code that take and release locks and write to bounded
queues. When every lock is taken behind those of smaller rank, a thread that
cannot go on waits, through others, for one that can or for room in a queue.
Two things defeat the order: a full queue whose reader waits for a lock that the
writer holds, and code that is run on top of a thread which holds a lock that
the code takes.

## Implementation notes

A thread that reads a queue takes one entry when it starts a piece of code. A
step that cannot be taken leaves the state unchanged. A release of a lock by a
thread that does not own it leaves the lock alone.
-/

namespace SikRadio.Foundations.LockOrder

/-- What a piece of code does to locks and queues. -/
inductive Instr (L Q : Type) where
  | acquire (l : L)
  | release (l : L)
  | push (q : Q)
  deriving DecidableEq

/-! ## Code -/

section Code
variable {L Q : Type}

/-- The body runs under the lock. -/
def locked (l : L) (body : List (Instr L Q)) : List (Instr L Q) :=
  .acquire l :: (body ++ [.release l])

variable [DecidableEq L] (rank : L → Nat)

/-- The locks held behind the code, when `held` are held before it: nothing, if it takes a lock
out of order or releases one that is not held. -/
def follow (held : Finset L) : List (Instr L Q) → Option (Finset L)
  | [] => some held
  | .acquire l :: code =>
      if ∀ h ∈ held, rank h < rank l then follow (insert l held) code else none
  | .release l :: code => if l ∈ held then follow (held.erase l) code else none
  | .push _ :: code => follow held code

/-- The code takes locks in order, all of them above `held`, and gives them back. -/
def Balanced (held : Finset L) (code : List (Instr L Q)) : Prop :=
  follow rank held code = some held

variable {rank} {held : Finset L} {code code' : List (Instr L Q)} {l : L} {q : Q}

theorem follow_append : follow rank held (code ++ code') =
    (follow rank held code).bind fun held' => follow rank held' code' := by
  induction code generalizing held with
  | nil => rfl
  | cons instr code ih =>
      cases instr with
      | acquire l =>
          simp only [List.cons_append, follow]
          split
          · exact ih
          · rfl
      | release l =>
          simp only [List.cons_append, follow]
          split
          · exact ih
          · rfl
      | push q => exact ih

/-- The code takes the lock before it releases it. -/
def AcquiresFirst (l : L) (code : List (Instr L Q)) : Prop :=
  ∀ pre post, code = pre ++ .release l :: post → .acquire l ∈ pre

omit [DecidableEq L] in
theorem AcquiresFirst.append (h : AcquiresFirst l code) (h' : AcquiresFirst l code') :
    AcquiresFirst l (code ++ code') := by
  intro pre post hsplit
  rcases List.append_eq_append_iff.mp hsplit with ⟨mid, rfl, hcode'⟩ | ⟨mid, rfl, hcode⟩
  · exact List.mem_append_right _ (h' mid post hcode')
  · cases mid with
    | nil => exact absurd (h' [] post (by simpa using hcode.symm)) (by simp)
    | cons instr mid =>
        obtain ⟨rfl, rfl⟩ := List.cons_eq_cons.mp hcode
        exact h pre mid rfl

omit [DecidableEq L] in
theorem AcquiresFirst.tail {instr : Instr L Q} (h : AcquiresFirst l (instr :: code))
    (hne : instr ≠ .acquire l) : AcquiresFirst l code := by
  intro pre post hsplit
  have hmem := h (instr :: pre) post (by rw [hsplit]; rfl)
  exact (List.mem_cons.mp hmem).resolve_left (Ne.symm hne)

omit [DecidableEq L] in
theorem AcquiresFirst.head_ne {instr : Instr L Q} (h : AcquiresFirst l (instr :: code)) :
    instr ≠ .release l := by
  rintro rfl
  simpa using h [] code rfl

/-- Code that takes its locks in order does not release a lock that was not held before. -/
theorem acquiresFirst_of_follow (hfollow : (follow rank held code).isSome) (hl : l ∉ held) :
    AcquiresFirst l code := by
  induction code generalizing held with
  | nil => intro pre post hsplit; simp at hsplit
  | cons instr code ih =>
      intro pre post hsplit
      cases pre with
      | nil =>
          -- the lock would be held before the code
          obtain ⟨rfl, -⟩ := List.cons_eq_cons.mp hsplit
          rw [follow, if_neg hl] at hfollow
          cases hfollow
      | cons instr' pre =>
          obtain ⟨rfl, hcode⟩ := List.cons_eq_cons.mp hsplit
          cases instr with
          | acquire m =>
              by_cases hm : m = l
              · rw [hm]
                exact List.mem_cons_self
              · rw [follow] at hfollow
                split at hfollow
                · exact List.mem_cons_of_mem _
                    (ih hfollow (by simp [hl, Ne.symm hm]) pre post hcode)
                · cases hfollow
          | release m =>
              rw [follow] at hfollow
              split at hfollow
              · exact List.mem_cons_of_mem _ (ih hfollow (by simp [hl]) pre post hcode)
              · cases hfollow
          | push q => exact List.mem_cons_of_mem _ (ih hfollow hl pre post hcode)

theorem balanced_nil (held : Finset L) : Balanced (Q := Q) rank held [] := rfl

theorem Balanced.append (h : Balanced rank held code) (h' : Balanced rank held code') :
    Balanced rank held (code ++ code') := by
  rw [Balanced, follow_append, h]
  exact h'

theorem Balanced.push (q : Q) (h : Balanced rank held code) :
    Balanced rank held (.push q :: code) := h

theorem Balanced.locked (hl : ∀ h ∈ held, rank h < rank l)
    (h : Balanced rank (insert l held) code) : Balanced rank held (locked l code) := by
  have hnot : l ∉ held := fun hmem => lt_irrefl _ (hl l hmem)
  rw [Balanced, LockOrder.locked, follow, if_pos hl, follow_append, h]
  simp [follow, hnot]

@[simp] theorem count_push_locked [DecidableEq Q] (l : L) (body : List (Instr L Q)) (q : Q) :
    (locked l body).count (.push q) = body.count (.push q) := by
  simp [LockOrder.locked]

theorem Balanced.flatMap {ι : Type} {f : ι → List (Instr L Q)} {is : List ι}
    (h : ∀ i ∈ is, Balanced rank held (f i)) : Balanced rank held (is.flatMap f) := by
  induction is with
  | nil => exact balanced_nil held
  | cons i is ih =>
      rw [List.flatMap_cons]
      exact (h i (by simp)).append (ih fun j hj => h j (by simp [hj]))

end Code

/-! ## Threads -/

/-- What is left of the code that each thread runs, who owns each lock and how many entries wait
in each queue. -/
structure Threads (T L Q : Type) where
  code : T → List (Instr L Q)
  owner : L → Option T
  pending : Q → Nat

/-- A thread without code starts a piece of code, for which it may take an entry of a queue; a
piece of code is run on top of what a thread is doing; a thread goes on by one instruction. -/
inductive Action (T L Q : Type) where
  | start (t : T) (event : Option Q) (code : List (Instr L Q))
  | interrupt (t : T) (code : List (Instr L Q))
  | advance (t : T)

namespace Threads

section Steps
variable {T L Q : Type}

/-- No thread runs, no lock is taken and no queue has an entry. -/
def idle : Threads T L Q where
  code := fun _ => []
  owner := fun _ => none
  pending := fun _ => 0

variable (s : Threads T L Q)

def setCode [DecidableEq T] (t : T) (code : List (Instr L Q)) : Threads T L Q :=
  { s with code := Function.update s.code t code }

def setOwner [DecidableEq L] (l : L) (t : Option T) : Threads T L Q :=
  { s with owner := Function.update s.owner l t }

def setPending [DecidableEq Q] (q : Q) (n : Nat) : Threads T L Q :=
  { s with pending := Function.update s.pending q n }

@[simp] theorem code_setCode_self [DecidableEq T] (t : T) (code : List (Instr L Q)) :
    (s.setCode t code).code t = code := Function.update_self ..

theorem code_setCode_of_ne [DecidableEq T] {t u : T} (hu : u ≠ t) (code : List (Instr L Q)) :
    (s.setCode t code).code u = s.code u := Function.update_of_ne hu _ _

@[simp] theorem owner_setCode [DecidableEq T] (t : T) (code : List (Instr L Q)) :
    (s.setCode t code).owner = s.owner := rfl

@[simp] theorem pending_setCode [DecidableEq T] (t : T) (code : List (Instr L Q)) :
    (s.setCode t code).pending = s.pending := rfl

@[simp] theorem owner_setOwner_self [DecidableEq L] (l : L) (t : Option T) :
    (s.setOwner l t).owner l = t := Function.update_self ..

theorem owner_setOwner_of_ne [DecidableEq L] {l m : L} (hm : m ≠ l) (t : Option T) :
    (s.setOwner l t).owner m = s.owner m := Function.update_of_ne hm _ _

@[simp] theorem code_setOwner [DecidableEq L] (l : L) (t : Option T) :
    (s.setOwner l t).code = s.code := rfl

@[simp] theorem pending_setOwner [DecidableEq L] (l : L) (t : Option T) :
    (s.setOwner l t).pending = s.pending := rfl

@[simp] theorem code_setPending [DecidableEq Q] (q : Q) (n : Nat) :
    (s.setPending q n).code = s.code := rfl

@[simp] theorem owner_setPending [DecidableEq Q] (q : Q) (n : Nat) :
    (s.setPending q n).owner = s.owner := rfl

variable [DecidableEq T] [DecidableEq L] [DecidableEq Q] (capacity : Nat)

/-- An entry is taken from a queue, if one is asked for. -/
def take (event : Option Q) : Threads T L Q :=
  match event with
  | none => s
  | some q => s.setPending q (s.pending q - 1)

def start (t : T) (event : Option Q) (code : List (Instr L Q)) : Threads T L Q :=
  if s.code t = [] ∧ ∀ q ∈ event, 0 < s.pending q then (s.take event).setCode t code else s

/-- The next instruction of a thread, when it can be carried out. -/
def advance (t : T) : Threads T L Q :=
  match s.code t with
  | [] => s
  | .acquire l :: rest =>
      if s.owner l = none then (s.setCode t rest).setOwner l (some t) else s
  | .release l :: rest =>
      if s.owner l = some t then (s.setCode t rest).setOwner l none else s.setCode t rest
  | .push q :: rest =>
      if s.pending q < capacity then (s.setCode t rest).setPending q (s.pending q + 1) else s

def step : Action T L Q → Threads T L Q
  | .start t event code => s.start t event code
  | .interrupt t code => s.setCode t (code ++ s.code t)
  | .advance t => s.advance capacity t

/-! ### What a step leaves alone -/

section Frames
variable {s capacity} {t u : T} {l : L} {q : Q}

theorem code_advance_of_ne (hu : u ≠ t) : (s.advance capacity t).code u = s.code u := by
  unfold advance
  split
  · rfl
  · split
    · exact s.code_setCode_of_ne hu _
    · rfl
  · split
    · exact s.code_setCode_of_ne hu _
    · exact s.code_setCode_of_ne hu _
  · split
    · exact s.code_setCode_of_ne hu _
    · rfl

variable (capacity) in
/-- A thread that goes on has one instruction less. -/
theorem advance_eq_self_or (t : T) : s.advance capacity t = s ∨
    ∃ instr, s.code t = instr :: (s.advance capacity t).code t ∧
      ∀ l, instr = .acquire l → s.owner l = none := by
  unfold advance
  split
  case h_1 => exact .inl rfl
  case h_2 m rest hcode =>
    split
    case isTrue hfree => exact .inr ⟨_, by simpa using hcode, fun l hl => by cases hl; exact hfree⟩
    case isFalse => exact .inl rfl
  case h_3 m rest hcode =>
    split
    · exact .inr ⟨_, by simpa using hcode, fun l hl => by cases hl⟩
    · exact .inr ⟨_, by simpa using hcode, fun l hl => by cases hl⟩
  case h_4 r rest hcode =>
    split
    · exact .inr ⟨_, by simpa using hcode, fun l hl => by cases hl⟩
    · exact .inl rfl

variable (capacity) in
/-- Nobody but its owner gives a lock back. -/
theorem owner_advance (hown : s.owner l = some u)
    (hkeep : u = t → (s.code t).head? ≠ some (.release l)) :
    (s.advance capacity t).owner l = some u := by
  unfold advance
  split
  case h_1 => exact hown
  case h_2 m rest hcode =>
    split
    case isTrue hfree =>
      have hne : l ≠ m := fun heq => by rw [← heq, hown] at hfree; cases hfree
      rw [owner_setOwner_of_ne _ hne]
      exact hown
    case isFalse => exact hown
  case h_3 m rest hcode =>
    split
    case isTrue hmine =>
      have hne : l ≠ m := by
        rintro rfl
        exact hkeep (Option.some.inj (hown.symm.trans hmine)) (by rw [hcode, List.head?_cons])
      rw [owner_setOwner_of_ne _ hne]
      exact hown
    case isFalse => exact hown
  case h_4 =>
    split
    · exact hown
    · exact hown

variable (capacity) in
/-- Queues only get longer when a thread goes on. -/
theorem pending_le_advance (t : T) (q : Q) : s.pending q ≤ (s.advance capacity t).pending q := by
  unfold advance
  split
  · exact le_refl _
  · split
    · exact le_refl _
    · exact le_refl _
  · split
    · exact le_refl _
    · exact le_refl _
  case h_4 r rest hcode =>
    split
    · by_cases hq : q = r
      · subst hq
        simp [setPending]
      · simp [setPending, hq]
    · exact le_refl _

omit [DecidableEq L] in
theorem owner_start (t : T) (event : Option Q) (code : List (Instr L Q)) :
    (s.start t event code).owner = s.owner := by
  unfold start take
  split
  · cases event with
    | none => rfl
    | some q => rfl
  · rfl

omit [DecidableEq L] in
/-- A thread that is running does not start anything. -/
theorem code_start_of_ne_nil (hcode : s.code u ≠ []) (t : T) (event : Option Q)
    (code : List (Instr L Q)) : (s.start t event code).code u = s.code u := by
  unfold start
  split
  case isTrue hidle =>
    have hu : u ≠ t := fun heq => hcode (heq ▸ hidle.1)
    rw [code_setCode_of_ne _ hu]
    cases event with
    | none => rfl
    | some q => rfl
  case isFalse => rfl

end Frames

/-- The thread can go on. -/
def CanAdvance (t : T) : Prop :=
  match s.code t with
  | [] => False
  | .acquire l :: _ => s.owner l = none
  | .release _ :: _ => True
  | .push q :: _ => s.pending q < capacity

/-- The thread is about to write to a queue that is full. -/
def LacksRoom (t : T) : Prop :=
  ∃ q rest, s.code t = .push q :: rest ∧ capacity ≤ s.pending q

/-- The first thread is about to take a lock that the second one owns. -/
def Waits (t u : T) : Prop := ∃ l rest, s.code t = .acquire l :: rest ∧ s.owner l = some u

/-- The state `s'` is reached from `s` by actions that are allowed. -/
def Reaches (allowed : Threads T L Q → Action T L Q → Prop) :
    Threads T L Q → Threads T L Q → Prop :=
  Relation.ReflTransGen fun s s' => ∃ a, allowed s a ∧ s.step capacity a = s'

end Steps

/-! ## The order is kept -/

section Order
variable {T L Q : Type} [DecidableEq T] [Fintype L]

/-- The locks that a thread owns. -/
def heldBy (s : Threads T L Q) (t : T) : Finset L := Finset.univ.filter fun l => s.owner l = some t

variable {s s' : Threads T L Q} {t u : T} {l : L} {q : Q} {rest code : List (Instr L Q)}

theorem mem_heldBy : l ∈ s.heldBy t ↔ s.owner l = some t := by
  simp [heldBy]

variable [DecidableEq L]

/-- A lock that is taken was free, so nobody else loses it. -/
theorem heldBy_acquire (hfree : s.owner l = none) (t u : T) :
    (s.setOwner l (some t)).heldBy u =
      if u = t then insert l (s.heldBy t) else s.heldBy u := by
  ext m
  rw [mem_heldBy]
  by_cases hm : m = l
  · subst hm
    rw [owner_setOwner_self]
    split
    case isTrue hu => simp [hu]
    case isFalse hu => simp [mem_heldBy, hfree, Ne.symm hu]
  · rw [owner_setOwner_of_ne s hm]
    split
    case isTrue hu => simp [hu, hm, mem_heldBy]
    case isFalse => rw [mem_heldBy]

theorem heldBy_release (hown : s.owner l = some t) (u : T) :
    (s.setOwner l none).heldBy u = if u = t then (s.heldBy t).erase l else s.heldBy u := by
  ext m
  rw [mem_heldBy]
  by_cases hm : m = l
  · subst hm
    rw [owner_setOwner_self]
    split
    case isTrue hu => simp
    case isFalse hu => simp [mem_heldBy, hown, Ne.symm hu]
  · rw [owner_setOwner_of_ne s hm]
    split
    case isTrue hu => simp [hu, hm, mem_heldBy]
    case isFalse => rw [mem_heldBy]

variable (rank : L → Nat)

/-- Every thread takes its locks in order and will have given them all back. -/
def Orderly (s : Threads T L Q) : Prop := ∀ t, follow rank (s.heldBy t) (s.code t) = some ∅

/-- New code takes its locks in order, above those that the thread has. -/
def Disciplined (s : Threads T L Q) : Action T L Q → Prop
  | .start _ _ code => Balanced rank ∅ code
  | .interrupt t code => Balanced rank (s.heldBy t) code
  | .advance _ => True

variable {rank}

/-- A thread without code holds no lock. -/
theorem Orderly.heldBy_eq_empty (h : Orderly rank s) (ht : s.code t = []) : s.heldBy t = ∅ := by
  have hfollow := h t
  rw [ht, follow] at hfollow
  exact Option.some.inj hfollow

/-- What one thread does, while the others keep what they have. -/
theorem Orderly.of_thread (h : Orderly rank s)
    (hothers : ∀ u, u ≠ t → s'.code u = s.code u ∧ s'.heldBy u = s.heldBy u)
    (ht : follow rank (s'.heldBy t) (s'.code t) = some ∅) : Orderly rank s' := by
  intro u
  by_cases hu : u = t
  · rw [hu]
    exact ht
  · obtain ⟨hcode, hheld⟩ := hothers u hu
    rw [hcode, hheld]
    exact h u

theorem Orderly.setCode (h : Orderly rank s) (hcode : follow rank (s.heldBy t) code = some ∅) :
    Orderly rank (s.setCode t code) := by
  refine h.of_thread (t := t) (fun u hu => ⟨s.code_setCode_of_ne hu code, rfl⟩) ?_
  rw [code_setCode_self]
  exact hcode

theorem orderly_idle : Orderly rank (idle : Threads T L Q) := by
  intro t
  simp [idle, heldBy, follow]

/-- A thread that owns a lock has code left, and takes only locks above it. -/
theorem Orderly.rank_lt (h : Orderly rank s) (hown : s.owner l = some u) :
    s.code u ≠ [] ∧ ∀ m rest, s.code u = .acquire m :: rest → rank l < rank m := by
  have hmem : l ∈ s.heldBy u := mem_heldBy.mpr hown
  refine ⟨fun hnil => ?_, fun m rest hcode => ?_⟩
  · rw [h.heldBy_eq_empty hnil] at hmem
    cases hmem
  · have hu := h u
    rw [hcode, follow] at hu
    split at hu
    case isTrue hbelow => exact hbelow l hmem
    case isFalse => cases hu

variable [DecidableEq Q] {capacity : Nat}

theorem Orderly.start (h : Orderly rank s) (t : T) (event : Option Q)
    (hcode : Balanced rank ∅ code) : Orderly rank (s.start t event code) := by
  unfold Threads.start
  split
  case isTrue hidle =>
    have htaken : Orderly rank (s.take event) ∧ (s.take event).code t = [] := by
      cases event with
      | none => exact ⟨h, hidle.1⟩
      | some q => exact ⟨h, hidle.1⟩
    refine htaken.1.setCode ?_
    rw [htaken.1.heldBy_eq_empty htaken.2]
    exact hcode
  case isFalse => exact h

theorem Orderly.advance (h : Orderly rank s) (t : T) : Orderly rank (s.advance capacity t) := by
  have ht := h t
  unfold Threads.advance
  split
  case h_1 => exact h
  case h_2 l rest hcode =>
    rw [hcode, follow] at ht
    split
    case isTrue hfree =>
      have hfree' : (s.setCode t rest).owner l = none := hfree
      split at ht
      case isTrue =>
        refine h.of_thread (t := t) (fun u hu => ⟨s.code_setCode_of_ne hu rest, ?_⟩) ?_
        · rw [heldBy_acquire hfree', if_neg hu]
          rfl
        · rw [heldBy_acquire hfree', if_pos rfl, code_setOwner, code_setCode_self]
          exact ht
      case isFalse => cases ht
    case isFalse => exact h
  case h_3 l rest hcode =>
    rw [hcode, follow] at ht
    split at ht
    case isTrue hmem =>
      have hown := mem_heldBy.mp hmem
      have hown' : (s.setCode t rest).owner l = some t := hown
      rw [if_pos hown]
      refine h.of_thread (t := t) (fun u hu => ⟨s.code_setCode_of_ne hu rest, ?_⟩) ?_
      · rw [heldBy_release hown', if_neg hu]
        rfl
      · rw [heldBy_release hown', if_pos rfl, code_setOwner, code_setCode_self]
        exact ht
    case isFalse => cases ht
  case h_4 q rest hcode =>
    rw [hcode, follow] at ht
    split
    case isTrue =>
      have hset : Orderly rank (s.setCode t rest) := h.setCode ht
      exact hset
    case isFalse => exact h

/-- Disciplined actions keep the threads in order. -/
theorem Orderly.step (h : Orderly rank s) {a : Action T L Q} (ha : Disciplined rank s a) :
    Orderly rank (s.step capacity a) := by
  cases a with
  | start t event code => exact h.start t event ha
  | interrupt t code =>
      refine h.setCode ?_
      rw [follow_append, ha]
      exact h t
  | advance t => exact h.advance t

theorem Orderly.reaches {allowed : Threads T L Q → Action T L Q → Prop}
    (hallowed : ∀ s a, allowed s a → Disciplined rank s a) (h : Orderly rank s)
    (hreach : Reaches capacity allowed s s') : Orderly rank s' := by
  induction hreach with
  | refl => exact h
  | tail _ hstep ih =>
      obtain ⟨a, ha, rfl⟩ := hstep
      exact ih.step (hallowed _ a ha)

/-! ## Nobody waits in a circle -/

omit [DecidableEq Q] in
/-- Whoever runs a piece of code can go on, or waits through others for a thread that can or that
lacks room in a queue: a lock that is waited for has a greater rank than the one before it. -/
theorem Orderly.exists_chain (h : Orderly rank s) (ht : s.code t ≠ []) :
    ∃ u, Relation.ReflTransGen s.Waits t u ∧
      (s.CanAdvance capacity u ∨ s.LacksRoom capacity u) := by
  -- from the lock that the thread is about to take, by induction on the ranks above it
  have hlock (n : Nat) : ∀ t l rest, s.code t = .acquire l :: rest →
      (Finset.univ.sup rank) - rank l < n → ∃ u, Relation.ReflTransGen s.Waits t u ∧
        (s.CanAdvance capacity u ∨ s.LacksRoom capacity u) := by
    induction n with
    | zero => exact fun t l rest _ hlt => absurd hlt (Nat.not_lt_zero _)
    | succ n ih =>
        intro t l rest hcode hn
        cases hown : s.owner l with
        | none => exact ⟨t, .refl, .inl (by simp [CanAdvance, hcode, hown])⟩
        | some v =>
            have hwaits : s.Waits t v := ⟨l, rest, hcode, hown⟩
            obtain ⟨hne, habove⟩ := h.rank_lt hown
            cases hv : s.code v with
            | nil => exact absurd hv hne
            | cons instr rest' =>
                cases instr with
                | acquire m =>
                    have hlt := habove m rest' hv
                    have hle : rank m ≤ Finset.univ.sup rank := Finset.le_sup (Finset.mem_univ m)
                    obtain ⟨u, hchain, hu⟩ := ih v m rest' hv (by omega)
                    exact ⟨u, hchain.head hwaits, hu⟩
                | release m =>
                    exact ⟨v, .single hwaits, .inl (by simp [CanAdvance, hv])⟩
                | push q =>
                    refine ⟨v, .single hwaits, ?_⟩
                    rcases Nat.lt_or_ge (s.pending q) capacity with hroom | hfull
                    · exact .inl (by simpa [CanAdvance, hv] using hroom)
                    · exact .inr ⟨q, rest', hv, hfull⟩
  cases hcode : s.code t with
  | nil => exact absurd hcode ht
  | cons instr rest =>
      cases instr with
      | acquire l => exact hlock _ t l rest hcode (Nat.lt_succ_self _)
      | release l => exact ⟨t, .refl, .inl (by simp [CanAdvance, hcode])⟩
      | push q =>
          refine ⟨t, .refl, ?_⟩
          rcases Nat.lt_or_ge (s.pending q) capacity with hroom | hfull
          · exact .inl (by simpa [CanAdvance, hcode] using hroom)
          · exact .inr ⟨q, rest, hcode, hfull⟩

/-- What is written to a queue when all threads have run to the end of their code. -/
def toWrite [Fintype T] (s : Threads T L Q) (q : Q) : Nat :=
  s.pending q + ∑ t, (s.code t).count (.push q)

def work [Fintype T] (s : Threads T L Q) : Nat := ∑ t, (s.code t).length

omit [Fintype L] [DecidableEq L] [DecidableEq Q] in
/-- A quantity to which the first instruction of one thread adds `n`. -/
theorem sum_setCode [Fintype T] (f : List (Instr L Q) → Nat) {n : Nat}
    (hf : f (s.code t) = f rest + n) :
    ∑ u, f (s.code u) = ∑ u, f ((s.setCode t rest).code u) + n := by
  have hpoint (u : T) :
      f (s.code u) = f ((s.setCode t rest).code u) + if u = t then n else 0 := by
    split
    case isTrue hu => rw [hu, code_setCode_self, hf]
    case isFalse hu => rw [code_setCode_of_ne s hu, Nat.add_zero]
  rw [Finset.sum_congr rfl fun u _ => hpoint u, Finset.sum_add_distrib]
  simp

omit [Fintype L] in
/-- An instruction that can be carried out is taken off the code and written where it says. -/
theorem work_advance [Fintype T] (ht : s.CanAdvance capacity t) :
    (s.advance capacity t).work < s.work ∧
      ∀ q, (s.advance capacity t).toWrite q = s.toWrite q := by
  cases hcode : s.code t with
  | nil => simp [CanAdvance, hcode] at ht
  | cons instr rest =>
      have hwork : (s.setCode t rest).work + 1 = s.work :=
        (sum_setCode List.length (by rw [hcode, List.length_cons])).symm
      have hwrite (q : Q) : (s.setCode t rest).toWrite q + [instr].count (.push q) =
          s.toWrite q := by
        have hcount : (s.code t).count (.push q) =
            rest.count (.push q) + [instr].count (.push q) := by
          rw [hcode, List.count_cons, List.count_singleton]
        have hsum := sum_setCode (s := s) (t := t) (fun code => code.count (.push q)) hcount
        rw [toWrite, toWrite, hsum, pending_setCode, Nat.add_assoc]
      have hless : (s.setCode t rest).work < s.work := by omega
      cases instr with
      | acquire l =>
          have hfree : s.owner l = none := by simpa [CanAdvance, hcode] using ht
          simp only [Threads.advance, hcode, if_pos hfree]
          exact ⟨hless, hwrite⟩
      | release l =>
          simp only [Threads.advance, hcode]
          split
          · exact ⟨hless, hwrite⟩
          · exact ⟨hless, hwrite⟩
      | push q =>
          have hroom : s.pending q < capacity := by simpa [CanAdvance, hcode] using ht
          simp only [Threads.advance, hcode, if_pos hroom]
          refine ⟨hless, fun r => ?_⟩
          have hr := hwrite r
          rw [toWrite, code_setPending]
          rw [toWrite, pending_setCode] at hr
          by_cases hrq : r = q
          · subst hrq
            simp only [setPending, Function.update_self]
            simp at hr
            omega
          · have hne : (Instr.push q : Instr L Q) ≠ .push r := by simpa using Ne.symm hrq
            simp only [setPending, pending_setCode, Function.update_of_ne hrq]
            simpa [List.count_singleton, hne] using hr

/-- With room for what is still to be written, the threads can run to the end of their code. -/
theorem Orderly.exists_drain [Fintype T] (h : Orderly rank s)
    (hroom : ∀ q, s.toWrite q ≤ capacity) :
    ∃ ts : List T, ∀ t, (ts.foldl (fun s t => s.advance capacity t) s).code t = [] := by
  induction hwork : s.work using Nat.strong_induction_on generalizing s with
  | _ n ih =>
    subst hwork
    by_cases hdone : ∀ t, s.code t = []
    · exact ⟨[], hdone⟩
    · obtain ⟨t, ht⟩ := not_forall.mp hdone
      have hchain : ∃ u, Relation.ReflTransGen s.Waits t u ∧
          (s.CanAdvance capacity u ∨ s.LacksRoom capacity u) := h.exists_chain ht
      obtain ⟨u, -, hu⟩ := hchain
      have hadvance : s.CanAdvance capacity u := by
        refine hu.resolve_right ?_
        rintro ⟨q, rest, hcode, hfull⟩
        have hcount : 0 < (s.code u).count (.push q) := by simp [hcode]
        have hle : (s.code u).count (.push q) ≤ ∑ t, (s.code t).count (.push q) :=
          Finset.single_le_sum (f := fun t => (s.code t).count (.push q))
            (fun _ _ => Nat.zero_le _) (Finset.mem_univ u)
        have hroomq := hroom q
        rw [toWrite] at hroomq
        omega
      obtain ⟨hless, hsame⟩ := work_advance hadvance
      obtain ⟨ts, hts⟩ := ih _ hless (h.advance u) (fun q => hsame q ▸ hroom q) rfl
      exact ⟨u :: ts, hts⟩

end Order

end Threads

end SikRadio.Foundations.LockOrder
