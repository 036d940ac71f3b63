import Mathlib.Data.Finset.Max
import Mathlib.Data.Finset.Sort
import SikRadio.Foundations.OrderedNodes

/-!
# Cursors

A cursor is a finite set of keys together with one chosen key, unless the set is
empty. Keys come and go; the choice moves to its neighbours in the order of the
keys. An ordered set of nodes with an iterator shows a cursor: the keys of its
elements and the key of the element that the iterator designates.
-/

namespace SikRadio.Foundations.Cursors

open OrderedNodes

section Order
variable {κ : Type} [LinearOrder κ] (keys : Finset κ)

/-- How many keys are smaller. -/
def rank (k : κ) : Nat := (keys.filter (· < k)).card

/-- The greatest smaller key, or the key itself when there is none. -/
def below (k : κ) : κ :=
  if h : (keys.filter (· < k)).Nonempty then (keys.filter (· < k)).max' h else k

/-- The least greater key, or the key itself when there is none. -/
def above (k : κ) : κ :=
  if h : (keys.filter (k < ·)).Nonempty then (keys.filter (k < ·)).min' h else k

def least : Option κ := if h : keys.Nonempty then some (keys.min' h) else none

/-- The least preferred key, or the least key when none is preferred. -/
def favourite (prefer : κ → Prop) [DecidablePred prefer] : Option κ :=
  if (keys.filter prefer).Nonempty then least (keys.filter prefer) else least keys

variable {keys} {k l : κ}

theorem least_mem (h : least keys = some k) : k ∈ keys := by
  unfold least at h
  split at h
  case isTrue hne =>
    obtain rfl := Option.some.inj h
    exact keys.min'_mem hne
  case isFalse => cases h

theorem least_eq_none_iff : least keys = none ↔ keys = ∅ := by
  unfold least
  split
  case isTrue hne => simp [hne.ne_empty]
  case isFalse hempty => simpa using hempty

theorem favourite_mem {prefer : κ → Prop} [DecidablePred prefer]
    (h : favourite keys prefer = some k) : k ∈ keys := by
  unfold favourite at h
  split at h
  · exact Finset.mem_of_mem_filter k (least_mem h)
  · exact least_mem h

theorem favourite_eq_none_iff {prefer : κ → Prop} [DecidablePred prefer] :
    favourite keys prefer = none ↔ keys = ∅ := by
  unfold favourite
  split
  case isTrue hne =>
    have hkeys : keys.Nonempty := hne.mono (Finset.filter_subset prefer keys)
    simp [least_eq_none_iff, hne.ne_empty, hkeys.ne_empty]
  case isFalse => exact least_eq_none_iff

theorem below_mem (hk : k ∈ keys) : below keys k ∈ keys := by
  unfold below
  split
  case isTrue hne => exact Finset.mem_of_mem_filter _ (Finset.max'_mem _ hne)
  case isFalse => exact hk

theorem above_mem (hk : k ∈ keys) : above keys k ∈ keys := by
  unfold above
  split
  case isTrue hne => exact Finset.mem_of_mem_filter _ (Finset.min'_mem _ hne)
  case isFalse => exact hk

/-! ## Positions in the order -/

theorem rank_lt_card (hk : k ∈ keys) : rank keys k < keys.card := by
  refine Finset.card_lt_card (Finset.filter_ssubset.mpr ⟨k, hk, lt_irrefl k⟩)

/-- No key lies between a key and its neighbour, so the positions are consecutive. -/
theorem rank_eq_add_one (hk : k ∈ keys) (hlt : k < l)
    (hbetween : ∀ m ∈ keys, k < m → l ≤ m) : rank keys l = rank keys k + 1 := by
  have hinsert : keys.filter (· < l) = insert k (keys.filter (· < k)) := by
    ext m
    simp only [Finset.mem_insert, Finset.mem_filter]
    constructor
    · rintro ⟨hm, hml⟩
      rcases lt_trichotomy m k with hmk | rfl | hkm
      · exact .inr ⟨hm, hmk⟩
      · exact .inl rfl
      · exact absurd hml (hbetween m hm hkm).not_gt
    · rintro (rfl | ⟨hm, hmk⟩)
      · exact ⟨hk, hlt⟩
      · exact ⟨hm, hmk.trans hlt⟩
  rw [rank, hinsert, Finset.card_insert_of_notMem (by simp), rank]

theorem rank_below (k : κ) : rank keys (below keys k) = rank keys k - 1 := by
  unfold below
  split
  case isTrue hne =>
    have hmax := Finset.max'_mem _ hne
    rw [Finset.mem_filter] at hmax
    have hsucc : rank keys k = rank keys ((keys.filter (· < k)).max' hne) + 1 := by
      refine rank_eq_add_one hmax.1 hmax.2 fun m hm hlt => not_lt.mp fun hmk => ?_
      exact absurd hlt (Finset.le_max' _ m (Finset.mem_filter.mpr ⟨hm, hmk⟩)).not_gt
    rw [hsucc, Nat.add_sub_cancel]
  case isFalse hempty =>
    have hzero : rank keys k = 0 := by
      rw [rank, Finset.card_eq_zero]
      exact Finset.not_nonempty_iff_eq_empty.mp hempty
    rw [hzero]

theorem rank_above (hk : k ∈ keys) :
    rank keys (above keys k) = min (rank keys k + 1) (keys.card - 1) := by
  unfold above
  split
  case isTrue hne =>
    have hmin := Finset.min'_mem _ hne
    rw [Finset.mem_filter] at hmin
    have hsucc : rank keys ((keys.filter (k < ·)).min' hne) = rank keys k + 1 := by
      refine rank_eq_add_one hk hmin.2 fun m hm hlt => ?_
      exact Finset.min'_le _ m (Finset.mem_filter.mpr ⟨hm, hlt⟩)
    have hlt := rank_lt_card hmin.1
    omega
  case isFalse hempty =>
    -- every other key is smaller
    have herase : keys.filter (· < k) = keys.erase k := by
      ext m
      simp only [Finset.mem_filter, Finset.mem_erase]
      constructor
      · exact fun hm => ⟨hm.2.ne, hm.1⟩
      · intro hm
        refine ⟨hm.2, lt_of_le_of_ne (not_lt.mp fun hlt => hempty ⟨m, ?_⟩) hm.1⟩
        exact Finset.mem_filter.mpr ⟨hm.2, hlt⟩
    have hrank : rank keys k = keys.card - 1 := by
      rw [rank, herase, Finset.card_erase_of_mem hk]
    omega

end Order

/-! ## Cursors -/

/-- A set of keys of which one is chosen, unless there is none. -/
structure Cursor (κ : Type) [LinearOrder κ] where
  keys : Finset κ
  chosen : Option κ
  chosen_mem : ∀ k, chosen = some k → k ∈ keys
  chosen_none : chosen = none → keys = ∅

namespace Cursor
variable {κ : Type} [LinearOrder κ]

def empty : Cursor κ where
  keys := ∅
  chosen := none
  chosen_mem := by simp
  chosen_none := fun _ => rfl

/-- A key is added; it is chosen when it is the only one or preferred. -/
def add (c : Cursor κ) (prefer : κ → Prop) [DecidablePred prefer] (k : κ) : Cursor κ where
  keys := insert k c.keys
  chosen := if c.keys = ∅ ∨ prefer k then some k else c.chosen
  chosen_mem := by
    intro l hl
    split at hl
    · obtain rfl := Option.some.inj hl
      exact Finset.mem_insert_self k c.keys
    · exact Finset.mem_insert_of_mem (c.chosen_mem l hl)
  chosen_none := by
    intro hnone
    split at hnone
    case isTrue => cases hnone
    case isFalse h => exact absurd (c.chosen_none hnone) fun hempty => h (.inl hempty)

/-- Only the keys with `keep` stay. A choice that goes falls to the favourite of the rest. -/
def retain (c : Cursor κ) (keep prefer : κ → Prop) [DecidablePred keep] [DecidablePred prefer] :
    Cursor κ where
  keys := c.keys.filter keep
  chosen := if ∃ k ∈ c.chosen, keep k then c.chosen else favourite (c.keys.filter keep) prefer
  chosen_mem := by
    intro l hl
    split at hl
    case isTrue h =>
      obtain ⟨k, hk, hkeep⟩ := h
      rw [Option.mem_def, hl] at hk
      obtain rfl := Option.some.inj hk
      exact Finset.mem_filter.mpr ⟨c.chosen_mem l hl, hkeep⟩
    case isFalse => exact favourite_mem hl
  chosen_none := by
    intro hnone
    split at hnone
    case isTrue h =>
      obtain ⟨k, hk, -⟩ := h
      rw [Option.mem_def, hnone] at hk
      cases hk
    case isFalse => exact favourite_eq_none_iff.mp hnone

/-- When every key stays, so does the choice. -/
theorem chosen_retain_of_keys (c : Cursor κ) {keep prefer : κ → Prop} [DecidablePred keep]
    [DecidablePred prefer] (h : (c.retain keep prefer).keys = c.keys) :
    (c.retain keep prefer).chosen = c.chosen := by
  have hall : ∀ k ∈ c.keys, keep k := Finset.filter_eq_self.mp h
  simp only [retain]
  split
  case isTrue => rfl
  case isFalse hgone =>
    have hnone : c.chosen = none := by
      by_contra hne
      obtain ⟨k, hk⟩ := Option.ne_none_iff_exists'.mp hne
      exact hgone ⟨k, hk, hall k (c.chosen_mem k hk)⟩
    rw [hnone]
    exact favourite_eq_none_iff.mpr (h.trans (c.chosen_none hnone))

/-- The choice moves to its neighbour below. -/
def up (c : Cursor κ) : Cursor κ where
  keys := c.keys
  chosen := c.chosen.map (below c.keys)
  chosen_mem := by
    intro l hl
    obtain ⟨k, hk, rfl⟩ := Option.map_eq_some_iff.mp hl
    exact below_mem (c.chosen_mem k hk)
  chosen_none := fun h => c.chosen_none (Option.map_eq_none_iff.mp h)

/-- The choice moves to its neighbour above. -/
def down (c : Cursor κ) : Cursor κ where
  keys := c.keys
  chosen := c.chosen.map (above c.keys)
  chosen_mem := by
    intro l hl
    obtain ⟨k, hk, rfl⟩ := Option.map_eq_some_iff.mp hl
    exact above_mem (c.chosen_mem k hk)
  chosen_none := fun h => c.chosen_none (Option.map_eq_none_iff.mp h)

end Cursor

/-! ## The cursor that an iterator shows -/

section Nodes
variable {α κ : Type} [LinearOrder κ] {key : α → κ}

def keysOf (s : NodeSet key) : Finset κ := (s.nodes.map fun n => key n.value).toFinset

/-- The key of what an iterator designates. -/
def keyAt (s : NodeSet key) (it : Option Nat) : Option κ := (s.deref it).map key

variable {s : NodeSet key} {n : Node α} {k : κ}

theorem mem_keysOf : k ∈ keysOf s ↔ ∃ n ∈ s.nodes, key n.value = k := by
  simp [keysOf]

theorem keysOf_eq_empty_iff : keysOf s = ∅ ↔ s.nodes = [] := by
  simp [keysOf]

theorem keyAt_of_mem (hn : n ∈ s.nodes) : keyAt s (some n.id) = some (key n.value) := by
  have hvalue : s.value? n.id = some n.value := s.value?_eq_some_iff.mpr hn
  simp [keyAt, NodeSet.deref, hvalue]

theorem exists_of_keyAt {it : Option Nat} (h : keyAt s it = some k) :
    ∃ n ∈ s.nodes, it = some n.id ∧ key n.value = k := by
  obtain ⟨a, ha, rfl⟩ := Option.map_eq_some_iff.mp h
  obtain ⟨i, rfl, hi⟩ := Option.bind_eq_some_iff.mp ha
  exact ⟨⟨i, a⟩, s.value?_eq_some_iff.mp hi, rfl, rfl⟩

section Split
variable {before after : List (Node α)} (hsplit : s.nodes = before ++ n :: after)
include hsplit

/-- The nodes before and after a node have the smaller and the greater keys. -/
theorem keys_of_split : (∀ m ∈ before, key m.value < key n.value) ∧
    ∀ m ∈ after, key n.value < key m.value := by
  have hsorted := s.sorted
  rw [hsplit, List.pairwise_append, List.pairwise_cons] at hsorted
  obtain ⟨-, ⟨hafter, -⟩, hbefore⟩ := hsorted
  exact ⟨fun m hm => hbefore m hm n List.mem_cons_self, hafter⟩

theorem smaller_of_split :
    (keysOf s).filter (· < key n.value) = (before.map fun m => key m.value).toFinset := by
  obtain ⟨hbefore, hafter⟩ := keys_of_split hsplit
  ext l
  simp only [keysOf, hsplit, Finset.mem_filter, List.mem_toFinset, List.mem_map,
    List.mem_append, List.mem_cons]
  constructor
  · rintro ⟨⟨m, hm | rfl | hm, rfl⟩, hlt⟩
    · exact ⟨m, hm, rfl⟩
    · exact absurd hlt (lt_irrefl _)
    · exact absurd hlt (hafter m hm).not_gt
  · rintro ⟨m, hm, rfl⟩
    exact ⟨⟨m, .inl hm, rfl⟩, hbefore m hm⟩

theorem greater_of_split :
    (keysOf s).filter (key n.value < ·) = (after.map fun m => key m.value).toFinset := by
  obtain ⟨hbefore, hafter⟩ := keys_of_split hsplit
  ext l
  simp only [keysOf, hsplit, Finset.mem_filter, List.mem_toFinset, List.mem_map,
    List.mem_append, List.mem_cons]
  constructor
  · rintro ⟨⟨m, hm | rfl | hm, rfl⟩, hlt⟩
    · exact absurd hlt (hbefore m hm).not_gt
    · exact absurd hlt (lt_irrefl _)
    · exact ⟨m, hm, rfl⟩
  · rintro ⟨m, hm, rfl⟩
    exact ⟨⟨m, .inr (.inr hm), rfl⟩, hafter m hm⟩

theorem rank_of_split : rank (keysOf s) (key n.value) = before.length := by
  have hnodup : (before.map fun m => key m.value).Nodup := by
    have hall := s.nodup_keys
    rw [hsplit, List.map_append] at hall
    exact hall.of_append_left
  rw [rank, smaller_of_split hsplit, List.toFinset_card_of_nodup hnodup, List.length_map]

end Split

/-- The position of a node is the position of its key. -/
theorem rank_of_getElem? {j : Nat} (hj : s.nodes[j]? = some n) :
    rank (keysOf s) (key n.value) = j := by
  obtain ⟨hlt, hget⟩ := List.getElem?_eq_some_iff.mp hj
  have hsplit : s.nodes = s.nodes.take j ++ n :: s.nodes.drop (j + 1) := by
    rw [← hget, List.cons_getElem_drop_succ, List.take_append_drop]
  rw [rank_of_split hsplit, List.length_take, Nat.min_eq_left hlt.le]

/-- The first node with the property has the least key with it. -/
theorem least_filter {p : κ → Prop} [DecidablePred p] :
    least ((keysOf s).filter p) =
      keyAt s ((s.nodes.find? fun n => p (key n.value)).map Node.id) := by
  cases hfind : s.nodes.find? fun n => p (key n.value) with
  | none =>
      have hnone : (keysOf s).filter p = ∅ := by
        refine Finset.filter_eq_empty_iff.mpr fun k hk => ?_
        obtain ⟨n, hn, rfl⟩ := mem_keysOf.mp hk
        simpa using List.find?_eq_none.mp hfind n hn
      exact least_eq_none_iff.mpr hnone
  | some n =>
      obtain ⟨hp, before, after, hsplit, hbefore⟩ := List.find?_eq_some_iff_append.mp hfind
      have hn : n ∈ s.nodes := by simp [hsplit]
      have hmem : key n.value ∈ (keysOf s).filter p :=
        Finset.mem_filter.mpr ⟨mem_keysOf.mpr ⟨n, hn, rfl⟩, by simpa using hp⟩
      rw [Option.map_some, keyAt_of_mem hn, least, dif_pos ⟨_, hmem⟩]
      refine congrArg some (le_antisymm (Finset.min'_le _ _ hmem) ?_)
      refine Finset.le_min' _ _ _ fun k hk => ?_
      obtain ⟨hkeys, hpk⟩ := Finset.mem_filter.mp hk
      obtain ⟨m, hm, rfl⟩ := mem_keysOf.mp hkeys
      rw [hsplit, List.mem_append, List.mem_cons] at hm
      rcases hm with hm | rfl | hm
      · exact absurd hpk (by simpa using hbefore m hm)
      · exact le_refl _
      · exact ((keys_of_split hsplit).2 m hm).le

theorem least_keysOf : least (keysOf s) = keyAt s s.begin := by
  have h := least_filter (s := s) (p := fun _ => True)
  rw [Finset.filter_true] at h
  rw [h, NodeSet.begin]
  cases s.nodes with
  | nil => rfl
  | cons n ns => simp

/-! ### Moves -/

section Moves
variable {before after : List (Node α)} {m : Node α}

theorem below_of_split (hsplit : s.nodes = before ++ m :: n :: after) :
    below (keysOf s) (key n.value) = key m.value := by
  have hsplit' : s.nodes = (before ++ [m]) ++ n :: after := by simpa using hsplit
  have hsmaller := smaller_of_split hsplit'
  have hmem : key m.value ∈ (keysOf s).filter (· < key n.value) := by simp [hsmaller]
  rw [below, dif_pos ⟨_, hmem⟩]
  refine le_antisymm (Finset.max'_le _ _ _ fun k hk => ?_) (Finset.le_max' _ _ hmem)
  rw [hsmaller, List.mem_toFinset, List.mem_map] at hk
  obtain ⟨l, hl, rfl⟩ := hk
  rcases List.mem_append.mp hl with hl | hl
  · exact ((keys_of_split hsplit).1 l hl).le
  · exact (congrArg (fun n => key n.value) (List.mem_singleton.mp hl)).le

theorem above_of_split (hsplit : s.nodes = before ++ n :: m :: after) :
    above (keysOf s) (key n.value) = key m.value := by
  have hgreater := greater_of_split hsplit
  have hmem : key m.value ∈ (keysOf s).filter (key n.value < ·) := by simp [hgreater]
  have hsplit' : s.nodes = (before ++ [n]) ++ m :: after := by simpa using hsplit
  rw [above, dif_pos ⟨_, hmem⟩]
  refine le_antisymm (Finset.min'_le _ _ hmem) (Finset.le_min' _ _ _ fun k hk => ?_)
  rw [hgreater, List.mem_toFinset, List.mem_map] at hk
  obtain ⟨l, hl, rfl⟩ := hk
  rcases List.mem_cons.mp hl with rfl | hl
  · exact le_refl _
  · exact ((keys_of_split hsplit').2 l hl).le

end Moves

variable {i : Nat}

/-- Nothing lies below the first key. -/
theorem below_begin (hbegin : s.begin = some i) :
    (keyAt s (some i)).map (below (keysOf s)) = keyAt s (some i) := by
  obtain ⟨n, hhead, rfl⟩ := Option.map_eq_some_iff.mp hbegin
  obtain ⟨after, hsplit⟩ := List.head?_eq_some_iff.mp hhead
  have hn : n ∈ s.nodes := by simp [hsplit]
  have hfirst : s.nodes = [] ++ n :: after := hsplit
  have hsmaller : (keysOf s).filter (· < key n.value) = ∅ := by
    simpa using smaller_of_split hfirst
  rw [keyAt_of_mem hn, Option.map_some, below, dif_neg (by simp [hsmaller])]

theorem above_last (hlast : s.last = some i) :
    (keyAt s (some i)).map (above (keysOf s)) = keyAt s (some i) := by
  obtain ⟨n, hget, rfl⟩ := Option.map_eq_some_iff.mp hlast
  obtain ⟨before, hsplit⟩ := List.getLast?_eq_some_iff.mp hget
  have hn : n ∈ s.nodes := by simp [hsplit]
  have hgreater : (keysOf s).filter (key n.value < ·) = ∅ := by
    simpa using greater_of_split hsplit
  rw [keyAt_of_mem hn, Option.map_some, above, dif_neg (by simp [hgreater])]

/-- An iterator that is decremented shows the neighbour below. -/
theorem exists_prev_below (hi : i ∈ s.ids) (hbegin : s.begin ≠ some i) :
    ∃ j, s.prev (some i) = some (some j) ∧
      keyAt s (some j) = (keyAt s (some i)).map (below (keysOf s)) := by
  obtain ⟨before, n, after, hsplit, rfl, hne⟩ := s.exists_split hi
  obtain ⟨j, -, hprev⟩ := s.exists_prev hi hbegin
  refine ⟨j, hprev, ?_⟩
  have htake : (s.nodes.takeWhile fun m => m.id ≠ n.id) = before := by
    rw [hsplit, List.takeWhile_append_of_pos (by simpa using hne)]
    simp
  simp only [NodeSet.prev, if_pos hi, htake] at hprev
  rcases List.eq_nil_or_concat before with rfl | ⟨before, m, rfl⟩
  · cases hprev
  · obtain rfl : m.id = j := by simpa using hprev
    have hsplit' : s.nodes = before ++ m :: n :: after := by simpa using hsplit
    have hm : m ∈ s.nodes := by simp [hsplit']
    have hn : n ∈ s.nodes := by simp [hsplit']
    rw [keyAt_of_mem hm, keyAt_of_mem hn, Option.map_some, below_of_split hsplit']

theorem exists_next_above (hi : i ∈ s.ids) (hlast : s.last ≠ some i) :
    ∃ j, s.next (some i) = some (some j) ∧
      keyAt s (some j) = (keyAt s (some i)).map (above (keysOf s)) := by
  obtain ⟨before, n, after, hsplit, rfl, -⟩ := s.exists_split hi
  cases after with
  | nil => exact absurd (by simp [NodeSet.last, hsplit]) hlast
  | cons m after =>
      refine ⟨m.id, NodeSet.next_of_split hsplit, ?_⟩
      have hm : m ∈ s.nodes := by simp [hsplit]
      have hn : n ∈ s.nodes := by simp [hsplit]
      rw [keyAt_of_mem hm, keyAt_of_mem hn, Option.map_some, above_of_split hsplit]

/-! ### Changes of the set -/

theorem keysOf_insert {x : α} (h : s.find? x = none) :
    keysOf (s.insert x) = insert (key x) (keysOf s) := by
  ext k
  simp only [mem_keysOf, NodeSet.mem_nodes_insert h, Finset.mem_insert]
  constructor
  · rintro ⟨n, rfl | hn, rfl⟩
    · exact .inl rfl
    · exact .inr ⟨n, hn, rfl⟩
  · rintro (rfl | ⟨n, hn, rfl⟩)
    · exact ⟨⟨s.nextId, x⟩, .inl rfl, rfl⟩
    · exact ⟨n, .inr hn, rfl⟩

theorem keyAt_insert_new {x : α} (h : s.find? x = none) :
    keyAt (s.insert x) (some s.nextId) = some (key x) :=
  keyAt_of_mem (n := ⟨s.nextId, x⟩) ((NodeSet.mem_nodes_insert h).mpr (.inl rfl))

/-- An iterator shows the same key as long as its element stays. -/
theorem keyAt_of_subset {t : NodeSet key} {it : Option Nat} (hk : keyAt s it = some k)
    (hsubset : ∀ n ∈ s.nodes, it = some n.id → n ∈ t.nodes) : keyAt t it = some k := by
  obtain ⟨n, hn, rfl, rfl⟩ := exists_of_keyAt hk
  exact keyAt_of_mem (hsubset n hn rfl)

section Update
variable (s) (i : Nat) (f : α → α) (hf : ∀ a, key (f a) = key a)

theorem keysOf_update : keysOf (s.update i f hf) = keysOf s := by
  have hkey (n : Node α) : key (if n.id = i then ⟨n.id, f n.value⟩ else n : Node α).value =
      key n.value := by
    split
    · exact hf n.value
    · rfl
  simp only [keysOf, NodeSet.update, List.map_map, Function.comp_def, hkey]

theorem keyAt_update (it : Option Nat) : keyAt (s.update i f hf) it = keyAt s it := by
  cases hk : keyAt s it with
  | some k =>
      obtain ⟨n, hn, rfl, rfl⟩ := exists_of_keyAt hk
      have hvalue := s.value?_update i f hf (s.value?_eq_some_iff.mpr hn)
      simp only [keyAt, NodeSet.deref, Option.bind_some, hvalue, Option.map_some]
      split
      · exact congrArg some (hf n.value)
      · rfl
  | none =>
      refine Option.eq_none_iff_forall_ne_some.mpr fun k hnew => ?_
      obtain ⟨n, hn, rfl, -⟩ := exists_of_keyAt hnew
      -- the iterators are the same before and after
      have hid : n.id ∈ s.ids := by
        rw [← s.ids_update i f hf]
        exact (NodeSet.mem_ids_iff _).mpr ⟨n.value, hn⟩
      obtain ⟨a, ha⟩ := s.mem_ids_iff.mp hid
      rw [keyAt_of_mem ha] at hk
      cases hk

end Update

/-- A sweep that keeps a node as its key says keeps the keys that stay. -/
theorem keysOf_eraseUnless {keep : Nat → α → Bool} {p : κ → Prop} [DecidablePred p]
    (h : ∀ j n, s.nodes[j]? = some n → (keep j n.value = true ↔ p (key n.value))) :
    keysOf (s.eraseUnless keep) = (keysOf s).filter p := by
  ext k
  simp only [mem_keysOf, s.mem_nodes_eraseUnless, Finset.mem_filter]
  constructor
  · rintro ⟨n, ⟨j, hj, hkeep⟩, rfl⟩
    exact ⟨⟨n, List.mem_of_getElem? hj, rfl⟩, (h j n hj).mp hkeep⟩
  · rintro ⟨⟨n, hn, rfl⟩, hp⟩
    obtain ⟨j, hj⟩ := List.mem_iff_getElem?.mp hn
    exact ⟨n, ⟨j, hj, (h j n hj).mpr hp⟩, rfl⟩

end Nodes

end SikRadio.Foundations.Cursors
