import SikRadio.Common.RingWindow

/-!
# What the slots hold

`Provenance P` says of a buffer that the payload in every occupied slot
satisfies `P` and that every byte outside the occupied slots is zero. A reset
establishes it for every `P`, a put keeps it when the new payload satisfies
`P`, wherever in the arrays the put stores it, and a dump keeps it.
-/

namespace SikRadio.Common.CircularBuffer

open Foundations Foundations.CheckedRuns Foundations.MemoryCells Foundations.RingOffsets
  Foundations.Word64

variable {α : Type} [Zero α] {b : CircularBuffer α} {packet : AudioPacket α}
  {P : List α → Prop}

structure Provenance (P : List α → Prop) (b : CircularBuffer α) : Prop where
  dvd : ∀ i < b.capacity, b.occupied i = true → b.psize ∣ i
  payload : ∀ i < b.capacity, b.occupied i = true → P (slice b.data i b.psize)
  silent : ∀ i < b.capacity,
    (∀ j < b.capacity, b.occupied j = true → i < j ∨ j + b.psize ≤ i) → b.data i = 0

theorem Provenance.mono {Q : List α → Prop} (h : Provenance P b) (himp : ∀ xs, P xs → Q xs) :
    Provenance Q b :=
  { h with payload := fun i hi hocc => himp _ (h.payload i hi hocc) }

theorem occupied_resetAt (b : CircularBuffer α) (psize absHead : Nat) {i : Nat}
    (hi : i < b.capacity) : (b.resetAt psize absHead).occupied i = false :=
  fill_of_mem b.occupied false ⟨Nat.zero_le i, (Nat.zero_add b.capacity).symm ▸ hi⟩

theorem data_resetAt (b : CircularBuffer α) (psize absHead : Nat) {i : Nat}
    (hi : i < b.capacity) : (b.resetAt psize absHead).data i = 0 :=
  fill_of_mem b.data 0 ⟨Nat.zero_le i, (Nat.zero_add b.capacity).symm ▸ hi⟩

theorem provenance_resetAt (b : CircularBuffer α) (psize absHead : Nat) :
    Provenance P (b.resetAt psize absHead) where
  dvd _ hi hocc := absurd hocc (by simp [occupied_resetAt b psize absHead hi])
  payload _ hi hocc := absurd hocc (by simp [occupied_resetAt b psize absHead hi])
  silent _ hi _ := data_resetAt b psize absHead hi

/-- A store of one payload, after a cleared block that is empty or a whole slot. -/
theorem Provenance.store {b' : CircularBuffer α} {from' n pos : Nat} {xs : List α}
    (h : Provenance P b) (hpos : 0 < b.psize) (hpsize : b'.psize = b.psize)
    (hcap : b'.capacity = b.capacity) (hfrom : b.psize ∣ from') (hn : n = 0 ∨ n = b.psize)
    (hdvd : b.psize ∣ pos) (hle : pos + b.psize ≤ b.capacity) (hlen : xs.length = b.psize)
    (hP : P xs) (hdata : b'.data = blit (fill b.data from' n 0) pos xs)
    (hocc : b'.occupied = fun i => if i = pos then true else fill b.occupied from' n false i) :
    Provenance P b' := by
  -- an occupied slot other than the new one was occupied before, outside the cleared block
  have hold : ∀ i < b.capacity, b'.occupied i = true → i = pos ∨
      (i ≠ pos ∧ b.occupied i = true ∧ b.psize ∣ i ∧ (i + b.psize ≤ from' ∨ from' + n ≤ i)) := by
    intro i hi hocc'
    rcases eq_or_ne i pos with heq | hne
    · exact Or.inl heq
    · rw [hocc] at hocc'
      simp only [if_neg hne] at hocc'
      have hout : i < from' ∨ from' + n ≤ i := by
        by_contra hin
        rw [fill_of_mem b.occupied false (by omega)] at hocc'
        cases hocc'
      rw [fill_of_not_mem b.occupied false hout] at hocc'
      have hi' := h.dvd i hi hocc'
      refine Or.inr ⟨hne, hocc', hi', hout.imp (fun hlt => ?_) id⟩
      exact add_le_of_lt hi' hfrom hlt
  constructor <;> simp only [hpsize, hcap]
  · intro i hi hocc'
    rcases hold i hi hocc' with rfl | ⟨_, _, hi', _⟩
    · exact hdvd
    · exact hi'
  · intro i hi hocc'
    rcases hold i hi hocc' with rfl | ⟨hne, hocc₀, hi', hout⟩
    · rw [hdata, slice_blit _ _ hlen]
      exact hP
    · have hslots := slots_disjoint hi' hdvd hne
      rw [hdata, slice_blit_of_disjoint _ (by omega), slice_fill_of_disjoint _ _ hout]
      exact h.payload i hi hocc₀
  · intro i hi hsilent
    have hnew : b'.occupied pos = true := by simp [hocc]
    have hi' := hsilent pos (by omega) hnew
    rw [hdata, blit_of_not_mem _ (by omega)]
    by_cases hcleared : from' ≤ i ∧ i < from' + n
    · exact fill_of_mem _ _ hcleared
    · rw [fill_of_not_mem _ _ (by omega)]
      apply h.silent i hi
      intro j hj hoccj
      rcases eq_or_ne j pos with rfl | hne
      · exact hi'
      · by_cases hjin : from' ≤ j ∧ j < from' + n
        · have hjfrom : j = from' := eq_of_mem_block (h.dvd j hj hoccj) hfrom (by omega) hjin
          omega
        · have hj' : b'.occupied j = true := by
            rw [hocc]
            simp only [if_neg hne]
            rw [fill_of_not_mem _ _ (by omega)]
            exact hoccj
          exact hsilent j hj hj'

theorem provenance_pushed (h : Provenance P b) (hring : Ring b)
    (hdvd : b.psize ∣ b.headOffset packet) (hnear : b.headOffset packet ≤ b.psize)
    (hlen : b.psize ≤ packet.psize) (hP : P (packet.audioData.take b.psize)) :
    Provenance P (b.pushed packet) := by
  have hw : b.psize ∣ (b.head + b.headOffset packet) % b.roundedCap :=
    dvd_mod (dvd_roundedCap b) (Nat.dvd_add hring.head_dvd hdvd)
  have hlt : (b.head + b.headOffset packet) % b.roundedCap < b.roundedCap :=
    Nat.mod_lt _ (lt_of_le_of_lt (Nat.zero_le _) hring.tail_lt)
  exact h.store hring.psize_pos (pushed_psize _ _) (pushed_capacity _ _) hring.head_dvd
    (offset_cases hdvd hnear) hw ((add_le_of_lt hw (dvd_roundedCap b) hlt).trans (roundedCap_le b))
    (List.length_take_of_le hlen) hP (pushed_data _ _) (pushed_occupied _ _)

theorem provenance_restarted (hring : Ring b) (hlen : b.psize ≤ packet.psize)
    (hP : P (packet.audioData.take b.psize)) : Provenance P (b.restarted packet) := by
  have hreset : Provenance P (b.resetAt b.psize b.absHead) := provenance_resetAt b _ _
  refine hreset.store hring.psize_pos (restarted_psize _ _) (restarted_capacity _ _)
    (Nat.dvd_zero _) (Or.inl rfl) (Nat.dvd_zero _) ?_ (List.length_take_of_le hlen) hP ?_ ?_
  · have := hring.psize_le
    simpa [resetAt, reset] using this
  · simp [restarted_data, resetAt, reset]
  · simp [restarted_occupied, resetAt, reset]

theorem provenance_gapFilled (h : Provenance P b) (hring : Ring b)
    (hmax : b.capacity ≤ ptrdiffMax) (hdvd : b.psize ∣ b.tailOffset packet)
    (hrange : b.tailOffset packet < b.range) (hlen : b.psize ≤ packet.psize)
    (hfit : b.gapIndex (b.tailOffset packet) + b.psize ≤ b.capacity)
    (hP : P (packet.audioData.take b.psize)) : Provenance P (b.gapFilled packet) := by
  refine h.store hring.psize_pos (gapFilled_psize _ _) (gapFilled_capacity _ _) (Nat.dvd_zero _)
    (Or.inl rfl) (dvd_gapIndex hring hmax hdvd hrange hfit) hfit (List.length_take_of_le hlen)
    hP ?_ ?_
  · rw [fill_zero]
    exact gapFilled_data _ _
  · rw [fill_zero]
    exact gapFilled_occupied _ _

/-- A put of a packet keeps the provenance when the stored payload has it. -/
theorem provenance_tryPut (h : Provenance P b) (hring : Ring b) (hmax : b.capacity ≤ ptrdiffMax)
    (habs : b.absHead < 2 ^ 64) (hP : P (packet.audioData.take b.psize))
    {b' : CircularBuffer α} (hput : b.tryPut packet = .ok b') : Provenance P b' := by
  rcases tryPut_cases hring hput with
    ⟨_, rfl⟩ | ⟨_, _, _, _, hlen, rfl⟩ | ⟨_, hdvd, hnear, _, hlen, rfl⟩ |
    ⟨hlo, hhi, hdvd, _, hlen, hfit, rfl⟩
  · exact h
  · exact provenance_restarted hring hlen hP
  · exact provenance_pushed h hring hdvd hnear hlen hP
  · exact provenance_gapFilled h hring hmax hdvd (tailOffset_lt_range hring hmax hlo hhi habs)
      hlen hfit hP

/-- A dump clears whole slots only. -/
theorem provenance_dumped (h : Provenance P b) (hring : Ring b) : Provenance P b.dumped := by
  have hpos := hring.psize_pos
  have hold : ∀ i < b.capacity, b.dumped.occupied i = true →
      b.occupied i = true ∧ (i + b.psize ≤ b.tail ∨ b.tail + b.psize ≤ i) := by
    intro i hi hocc
    rw [dumped_occupied] at hocc
    have hout : i < b.tail ∨ b.tail + b.psize ≤ i := by
      by_contra hin
      rw [fill_of_mem b.occupied false (by omega)] at hocc
      cases hocc
    rw [fill_of_not_mem b.occupied false hout] at hocc
    exact ⟨hocc, hout.imp (add_le_of_lt (h.dvd i hi hocc) hring.tail_dvd) id⟩
  constructor <;> simp only [dumped_psize, dumped_capacity]
  · exact fun i hi hocc => h.dvd i hi (hold i hi hocc).1
  · intro i hi hocc
    obtain ⟨hocc₀, hout⟩ := hold i hi hocc
    rw [dumped_data, slice_fill_of_disjoint _ _ hout]
    exact h.payload i hi hocc₀
  · intro i hi hsilent
    rw [dumped_data]
    by_cases hcleared : b.tail ≤ i ∧ i < b.tail + b.psize
    · exact fill_of_mem _ _ hcleared
    · rw [fill_of_not_mem _ _ (by omega)]
      apply h.silent i hi
      intro j hj hoccj
      by_cases hjin : b.tail ≤ j ∧ j < b.tail + b.psize
      · have hjtail := eq_of_mem_block (h.dvd j hj hoccj) hring.tail_dvd (le_refl _) hjin
        omega
      · apply hsilent j hj
        rw [dumped_occupied, fill_of_not_mem _ _ (by omega)]
        exact hoccj

end SikRadio.Common.CircularBuffer
