import Mathlib.Tactic

/-!
# Ordered sets of nodes

An ordered set whose elements live in nodes. A node keeps its id from the
insertion of its element to its erasure, and no id is used twice, so an id is
an iterator: it stays valid while other elements come and go, and it never
designates an element again after its own was erased. `none` is the iterator
past the end.

## Implementation notes

The set is ordered by a key. Mutable parts of an element are those the key does
not depend on.
-/

namespace SikRadio.Foundations.OrderedNodes

structure Node (α : Type) where
  id : Nat
  value : α

structure NodeSet {α κ : Type} [LinearOrder κ] (key : α → κ) where
  nodes : List (Node α)
  nextId : Nat
  sorted : nodes.Pairwise fun m n => key m.value < key n.value
  fresh : ∀ n ∈ nodes, n.id < nextId
  distinct : (nodes.map Node.id).Nodup

namespace NodeSet

variable {α κ : Type} [LinearOrder κ] {key : α → κ}

def empty : NodeSet key where
  nodes := []
  nextId := 0
  sorted := .nil
  fresh := by simp
  distinct := .nil

def ids (s : NodeSet key) : List Nat := s.nodes.map Node.id

/-- The iterator of the element with the same key. -/
def find? (s : NodeSet key) (x : α) : Option Nat :=
  (s.nodes.find? fun n => key n.value = key x).map Node.id

def value? (s : NodeSet key) (i : Nat) : Option α :=
  (s.nodes.find? fun n => n.id = i).map Node.value

/-- What an iterator designates: nothing past the end or after an erasure. -/
def deref (s : NodeSet key) (it : Option Nat) : Option α := it.bind s.value?

def begin (s : NodeSet key) : Option Nat := s.nodes.head?.map Node.id

/-- The iterator before the end. -/
def last (s : NodeSet key) : Option Nat := s.nodes.getLast?.map Node.id

/-- The next iterator; there is none after the end or after an erased element. -/
def next (s : NodeSet key) (it : Option Nat) : Option (Option Nat) :=
  it.bind fun i =>
    match s.nodes.dropWhile fun n => n.id ≠ i with
    | [] => none
    | _ :: rest => some (rest.head?.map Node.id)

/-- The previous iterator; there is none before the first or before an erased element. -/
def prev (s : NodeSet key) (it : Option Nat) : Option (Option Nat) :=
  match it with
  | none => s.last.map some
  | some i =>
      if i ∈ s.ids then
        ((s.nodes.takeWhile fun n => n.id ≠ i).getLast?.map Node.id).map some
      else none

theorem eq_of_nodes_eq {s t : NodeSet key} (hnodes : s.nodes = t.nodes)
    (hnext : s.nextId = t.nextId) : s = t := by
  cases s
  cases t
  cases hnodes
  cases hnext
  rfl

/-! ## Elements and iterators -/

section Elements

variable (s : NodeSet key)

theorem mem_ids_iff {i : Nat} : i ∈ s.ids ↔ ∃ a, ⟨i, a⟩ ∈ s.nodes := by
  simp only [ids, List.mem_map]
  constructor
  · rintro ⟨n, hn, rfl⟩
    exact ⟨n.value, hn⟩
  · rintro ⟨a, ha⟩
    exact ⟨⟨i, a⟩, ha, rfl⟩

/-- A node is found by its id. -/
theorem value?_eq_some_iff {i : Nat} {a : α} : s.value? i = some a ↔ ⟨i, a⟩ ∈ s.nodes := by
  constructor
  · intro h
    obtain ⟨n, hn, rfl⟩ := Option.map_eq_some_iff.mp h
    obtain rfl : n.id = i := by simpa using List.find?_some hn
    exact List.mem_of_find?_eq_some hn
  · intro h
    cases hf : s.nodes.find? fun n => n.id = i with
    | none => simpa using List.find?_eq_none.mp hf ⟨i, a⟩ h
    | some n =>
        have hid : n.id = i := by simpa using List.find?_some hf
        have hn := List.mem_of_find?_eq_some hf
        obtain rfl := List.inj_on_of_nodup_map s.distinct hn h hid
        simp [value?, hf]

theorem exists_value?_iff {i : Nat} : (∃ a, s.value? i = some a) ↔ i ∈ s.ids := by
  simp only [value?_eq_some_iff, mem_ids_iff]

theorem find?_eq_none_iff {x : α} :
    s.find? x = none ↔ ∀ n ∈ s.nodes, key n.value ≠ key x := by
  simp [find?]

/-- The nodes before and after the one that an iterator designates. -/
theorem exists_split {i : Nat} (h : i ∈ s.ids) :
    ∃ l n r, s.nodes = l ++ n :: r ∧ n.id = i ∧ ∀ m ∈ l, m.id ≠ i := by
  obtain ⟨n, hn, rfl⟩ := List.mem_map.mp h
  obtain ⟨l, r, hsplit⟩ := List.append_of_mem hn
  refine ⟨l, n, r, hsplit, rfl, fun m hm hid => ?_⟩
  have hd := s.distinct
  rw [hsplit, List.map_append, List.nodup_append] at hd
  exact hd.2.2 _ (List.mem_map_of_mem hm) _ (by simp) hid

/-- An iterator that is not the first can be decremented and stays in the set. -/
theorem exists_prev {i : Nat} (h : i ∈ s.ids) (hbegin : s.begin ≠ some i) :
    ∃ j ∈ s.ids, s.prev (some i) = some (some j) := by
  obtain ⟨l, n, r, hsplit, rfl, hl⟩ := s.exists_split h
  have htake : (s.nodes.takeWhile fun m => m.id ≠ n.id) = l := by
    rw [hsplit, List.takeWhile_append_of_pos (by simpa using hl)]
    simp
  rcases List.eq_nil_or_concat l with rfl | ⟨l, m, rfl⟩
  · simp [begin, hsplit] at hbegin
  · refine ⟨m.id, by simp [ids, hsplit], ?_⟩
    simp only [prev, if_pos h, htake]
    simp

/-- The iterator that is found designates an element with the same key. -/
theorem exists_mem_of_find? {x : α} {i : Nat} (h : s.find? x = some i) :
    ∃ n ∈ s.nodes, n.id = i ∧ key n.value = key x := by
  obtain ⟨n, hn, rfl⟩ := Option.map_eq_some_iff.mp h
  exact ⟨n, List.mem_of_find?_eq_some hn, rfl, by simpa using List.find?_some hn⟩

theorem eq_of_id_eq {m n : Node α} (hm : m ∈ s.nodes) (hn : n ∈ s.nodes) (h : m.id = n.id) :
    m = n :=
  List.inj_on_of_nodup_map s.distinct hm hn h

theorem nodup_keys : (s.nodes.map fun n => key n.value).Nodup :=
  List.pairwise_map.mpr (s.sorted.imp fun h => h.ne)

theorem eq_of_key_eq {m n : Node α} (hm : m ∈ s.nodes) (hn : n ∈ s.nodes)
    (h : key m.value = key n.value) : m = n :=
  List.inj_on_of_nodup_map s.nodup_keys hm hn h

theorem begin_eq_none_iff : s.begin = none ↔ s.nodes = [] := by
  simp [begin]

theorem begin_mem_ids {i : Nat} (h : s.begin = some i) : i ∈ s.ids := by
  obtain ⟨n, hn, rfl⟩ := Option.map_eq_some_iff.mp h
  exact List.mem_map_of_mem (List.mem_of_head? hn)

theorem ids_ne_nil {i : Nat} (h : i ∈ s.ids) : s.nodes ≠ [] := by
  rintro hnil
  simp [ids, hnil] at h

end Elements

section Split

variable {s : NodeSet key} {before after : List (Node α)} {n : Node α}
  (hsplit : s.nodes = before ++ n :: after)
include hsplit

/-- No other node has the id of the node at a split. -/
theorem id_ne_of_split : (∀ m ∈ before, m.id ≠ n.id) ∧ ∀ m ∈ after, m.id ≠ n.id := by
  have hdistinct := s.distinct
  rw [hsplit, List.map_append, List.map_cons, List.nodup_append, List.nodup_cons] at hdistinct
  obtain ⟨-, ⟨hafter, -⟩, hdisjoint⟩ := hdistinct
  constructor
  · intro m hm
    exact hdisjoint _ (List.mem_map_of_mem hm) _ List.mem_cons_self
  · intro m hm hid
    exact hafter (hid ▸ List.mem_map_of_mem hm)

theorem value?_of_split : s.value? n.id = some n.value := by
  rw [value?_eq_some_iff, hsplit]
  exact List.mem_append_right _ List.mem_cons_self

theorem next_of_split : s.next (some n.id) = some (after.head?.map Node.id) := by
  have hbefore := (id_ne_of_split hsplit).1
  have hdrop : (s.nodes.dropWhile fun m => m.id ≠ n.id) = n :: after := by
    rw [hsplit, List.dropWhile_append_of_pos (by simpa using hbefore)]
    simp
  simp only [next, Option.bind_some, hdrop]

end Split

/-- An iterator that is not the last can be incremented and stays in the set. -/
theorem exists_next (s : NodeSet key) {i : Nat} (h : i ∈ s.ids) (hlast : s.last ≠ some i) :
    ∃ j ∈ s.ids, s.next (some i) = some (some j) := by
  obtain ⟨l, n, r, hsplit, rfl, -⟩ := s.exists_split h
  cases r with
  | nil => simp [last, hsplit] at hlast
  | cons m r => exact ⟨m.id, by simp [ids, hsplit], next_of_split hsplit⟩

/-! ## Insertion -/

/-- The set with a new node for `x`; an element with its key stays instead. -/
def insert (s : NodeSet key) (x : α) : NodeSet key :=
  if h : s.find? x = none then
    { nodes := s.nodes.orderedInsert (fun m n => key m.value ≤ key n.value) ⟨s.nextId, x⟩
      nextId := s.nextId + 1
      sorted := by
        have hperm := s.nodes.perm_orderedInsert (fun m n => key m.value ≤ key n.value)
          ⟨s.nextId, x⟩
        have : Std.Total fun m n : Node α => key m.value ≤ key n.value :=
          ⟨fun m n => le_total _ _⟩
        have : IsTrans (Node α) fun m n => key m.value ≤ key n.value :=
          ⟨fun _ _ _ => le_trans⟩
        have hle := (s.sorted.imp fun h => h.le).orderedInsert ⟨s.nextId, x⟩
        have hne : (⟨s.nextId, x⟩ :: s.nodes : List (Node α)).Pairwise
            fun m n => key m.value ≠ key n.value :=
          .cons (fun n hn => ((find?_eq_none_iff s).mp h n hn).symm) (s.sorted.imp fun h => h.ne)
        have hne' := (hperm.pairwise_iff fun h => Ne.symm h).mpr hne
        exact (hle.and hne').imp fun h => lt_of_le_of_ne h.1 h.2
      fresh := by
        intro n hn
        rcases List.mem_orderedInsert _ |>.mp hn with rfl | hn
        · exact Nat.lt_succ_self _
        · exact Nat.lt_succ_of_lt (s.fresh n hn)
      distinct := by
        apply (((s.nodes.perm_orderedInsert _ _).map Node.id).nodup_iff).mpr
        refine List.nodup_cons.mpr ⟨fun hmem => ?_, s.distinct⟩
        obtain ⟨n, hn, hid⟩ := List.mem_map.mp hmem
        exact absurd (s.fresh n hn) (by simp [hid]) }
  else s

section Insert

variable {s : NodeSet key} {x : α} (h : s.find? x = none)
include h

theorem mem_nodes_insert {n : Node α} :
    n ∈ (s.insert x).nodes ↔ n = ⟨s.nextId, x⟩ ∨ n ∈ s.nodes := by
  simp [insert, h]

theorem length_insert : (s.insert x).nodes.length = s.nodes.length + 1 := by
  simp [insert, h, List.orderedInsert_length]

theorem nextId_mem_ids_insert : s.nextId ∈ (s.insert x).ids :=
  (mem_ids_iff _).mpr ⟨x, (mem_nodes_insert h).mpr (.inl rfl)⟩

theorem value?_insert {i : Nat} (hi : i ∈ s.ids) : (s.insert x).value? i = s.value? i := by
  obtain ⟨a, ha⟩ := (exists_value?_iff s).mpr hi
  rw [ha, value?_eq_some_iff, mem_nodes_insert h]
  exact .inr ((value?_eq_some_iff s).mp ha)

theorem mem_ids_insert {i : Nat} (hi : i ∈ s.ids) : i ∈ (s.insert x).ids := by
  obtain ⟨a, ha⟩ := (mem_ids_iff s).mp hi
  exact (mem_ids_iff _).mpr ⟨a, (mem_nodes_insert h).mpr (.inr ha)⟩

end Insert

/-! ## Changes that keep the keys -/

/-- Change the element at an iterator in a way its key does not see. -/
def update (s : NodeSet key) (i : Nat) (f : α → α) (hf : ∀ a, key (f a) = key a) :
    NodeSet key where
  nodes := s.nodes.map fun n => if n.id = i then ⟨n.id, f n.value⟩ else n
  nextId := s.nextId
  sorted := by
    refine List.pairwise_map.mpr (s.sorted.imp fun {m n} h => ?_)
    split <;> split <;> simpa [hf] using h
  fresh := by
    intro n hn
    obtain ⟨m, hm, rfl⟩ := List.mem_map.mp hn
    split <;> exact s.fresh m hm
  distinct := by
    rw [List.map_map]
    convert s.distinct using 2
    funext n
    simp only [Function.comp_apply]
    split <;> rfl

section Update

variable (s : NodeSet key) (i : Nat) (f : α → α) (hf : ∀ a, key (f a) = key a)

@[simp] theorem ids_update : (s.update i f hf).ids = s.ids := by
  simp only [ids, update, List.map_map]
  congr 1
  funext n
  simp only [Function.comp_apply]
  split <;> rfl

theorem mem_nodes_update {n : Node α} :
    n ∈ (s.update i f hf).nodes ↔
      ∃ m ∈ s.nodes, (if m.id = i then ⟨m.id, f m.value⟩ else m) = n := by
  simp [update]

@[simp] theorem nodes_update_eq_nil_iff : (s.update i f hf).nodes = [] ↔ s.nodes = [] := by
  simp [update]

theorem value?_update {j : Nat} {a : α} (h : s.value? j = some a) :
    (s.update i f hf).value? j = some (if j = i then f a else a) := by
  rw [value?_eq_some_iff] at h ⊢
  refine List.mem_map.mpr ⟨⟨j, a⟩, h, ?_⟩
  by_cases hij : j = i <;> simp [hij]

end Update

/-! ## Erasure -/

/-- The nodes a loop keeps and those it erases; `keep` may depend on how many nodes the
loop has examined. -/
def sweep (keep : Nat → α → Bool) : Nat → List (Node α) → List (Node α) × List (Node α)
  | _, [] => ([], [])
  | i, n :: ns =>
      let (kept, erased) := sweep keep (i + 1) ns
      if keep i n.value then (n :: kept, erased) else (kept, n :: erased)

theorem sweep_sublist (keep : Nat → α → Bool) (i : Nat) (ns : List (Node α)) :
    (sweep keep i ns).1.Sublist ns := by
  induction ns generalizing i with
  | nil => simp [sweep]
  | cons n ns ih =>
      simp only [sweep]
      split
      · exact (ih (i + 1)).cons_cons n
      · exact (ih (i + 1)).cons n

theorem mem_sweep_iff (keep : Nat → α → Bool) (i : Nat) {ns : List (Node α)} {n : Node α} :
    n ∈ ns ↔ n ∈ (sweep keep i ns).1 ∨ n ∈ (sweep keep i ns).2 := by
  induction ns generalizing i with
  | nil => simp [sweep]
  | cons m ns ih =>
      simp only [sweep, List.mem_cons, ih (i + 1)]
      split <;> simp only [List.mem_cons] <;> tauto

/-- A loop keeps a node when it keeps it at the position where it examines it. -/
theorem mem_kept_iff (keep : Nat → α → Bool) (i : Nat) {ns : List (Node α)} {n : Node α} :
    n ∈ (sweep keep i ns).1 ↔ ∃ j, ns[j]? = some n ∧ keep (i + j) n.value = true := by
  induction ns generalizing i with
  | nil => simp [sweep]
  | cons m ns ih =>
      have hrest : (∃ j, (m :: ns)[j]? = some n ∧ keep (i + j) n.value = true) ↔
          (m = n ∧ keep i n.value = true) ∨ n ∈ (sweep keep (i + 1) ns).1 := by
        rw [ih (i + 1), ← Nat.or_exists_add_one]
        simp [Nat.add_right_comm, Nat.add_assoc]
      rw [hrest]
      simp only [sweep]
      split
      case isTrue hkeep =>
        rw [List.mem_cons]
        refine or_congr_left ⟨?_, fun h => h.1.symm⟩
        rintro rfl
        exact ⟨rfl, hkeep⟩
      case isFalse hkeep =>
        refine ⟨.inr, fun h => h.resolve_left ?_⟩
        rintro ⟨rfl, h⟩
        exact hkeep h

/-- The set without the nodes that a sweep erases. -/
def eraseUnless (s : NodeSet key) (keep : Nat → α → Bool) : NodeSet key where
  nodes := (sweep keep 0 s.nodes).1
  nextId := s.nextId
  sorted := s.sorted.sublist (sweep_sublist keep 0 s.nodes)
  fresh := fun n hn => s.fresh n ((sweep_sublist keep 0 s.nodes).subset hn)
  distinct := s.distinct.sublist ((sweep_sublist keep 0 s.nodes).map Node.id)

/-- The nodes that the sweep erases. -/
def erased (s : NodeSet key) (keep : Nat → α → Bool) : List (Node α) :=
  (sweep keep 0 s.nodes).2

section Erase

variable (s : NodeSet key) (keep : Nat → α → Bool)

theorem mem_nodes_eraseUnless {n : Node α} :
    n ∈ (s.eraseUnless keep).nodes ↔ ∃ j, s.nodes[j]? = some n ∧ keep j n.value = true := by
  simpa [eraseUnless] using mem_kept_iff keep 0

/-- What a sweep does not erase stays where it is. -/
theorem value?_eraseUnless {i : Nat} {a : α} (h : s.value? i = some a)
    (hi : ∀ n ∈ s.erased keep, n.id ≠ i) : (s.eraseUnless keep).value? i = some a := by
  rw [value?_eq_some_iff] at h ⊢
  rcases (mem_sweep_iff keep 0).mp h with hkept | herased
  · exact hkept
  · exact absurd rfl (hi _ herased)

theorem eraseUnless_eq_nil (h : s.nodes = []) : (s.eraseUnless keep).nodes = [] := by
  simp [eraseUnless, h, sweep]

/-- A sweep that erases nothing changes nothing. -/
theorem eraseUnless_eq_self (h : s.erased keep = []) : s.eraseUnless keep = s := by
  have hkept (i : Nat) (ns : List (Node α)) (herased : (sweep keep i ns).2 = []) :
      (sweep keep i ns).1 = ns := by
    induction ns generalizing i with
    | nil => rfl
    | cons n ns ih =>
        simp only [sweep] at herased ⊢
        split at herased
        case isTrue hkeep => rw [if_pos hkeep, ih (i + 1) herased]
        case isFalse => cases herased
  exact eq_of_nodes_eq (hkept 0 s.nodes h) rfl

/-- Every node that is examined is kept or erased, as `keep` says at its position. -/
theorem mem_erased_iff (i : Nat) {ns : List (Node α)} {n : Node α} :
    n ∈ (sweep keep i ns).2 ↔ ∃ j, ns[j]? = some n ∧ keep (i + j) n.value = false := by
  induction ns generalizing i with
  | nil => simp [sweep]
  | cons m ns ih =>
      have hrest : (∃ j, (m :: ns)[j]? = some n ∧ keep (i + j) n.value = false) ↔
          (m = n ∧ keep i n.value = false) ∨ n ∈ (sweep keep (i + 1) ns).2 := by
        rw [ih (i + 1), ← Nat.or_exists_add_one]
        simp [Nat.add_right_comm, Nat.add_assoc]
      rw [hrest]
      simp only [sweep]
      split
      case isTrue hkeep =>
        refine ⟨.inr, fun h => h.resolve_left ?_⟩
        rintro ⟨rfl, h⟩
        exact absurd hkeep (Bool.eq_false_iff.mp h)
      case isFalse hkeep =>
        rw [List.mem_cons]
        refine or_congr_left ⟨?_, fun h => h.1.symm⟩
        rintro rfl
        exact ⟨rfl, Bool.eq_false_iff.mpr hkeep⟩

/-- Erase the element at one iterator. -/
def erase (s : NodeSet key) (i : Nat) : NodeSet key where
  nodes := s.nodes.filter fun n => n.id ≠ i
  nextId := s.nextId
  sorted := s.sorted.filter _
  fresh := fun n hn => s.fresh n (List.mem_of_mem_filter hn)
  distinct := s.distinct.sublist (List.filter_sublist.map Node.id)

section Split

variable {s : NodeSet key} {before after : List (Node α)} {n : Node α}
  (hsplit : s.nodes = before ++ n :: after)
include hsplit

theorem nodes_erase_of_split : (s.erase n.id).nodes = before ++ after := by
  obtain ⟨hbefore, hafter⟩ := id_ne_of_split hsplit
  have hkeepBefore : before.filter (fun m => m.id ≠ n.id) = before := by
    apply List.filter_eq_self.mpr
    simpa using hbefore
  have hkeepAfter : after.filter (fun m => m.id ≠ n.id) = after := by
    apply List.filter_eq_self.mpr
    simpa using hafter
  simp only [erase, hsplit, List.filter_append, hkeepBefore]
  rw [List.filter_cons_of_neg (by simp), hkeepAfter]

end Split

end Erase

end NodeSet

end SikRadio.Foundations.OrderedNodes
