import SikRadio.Common.RexmitGrammar
import SikRadio.Receiver.MissingScan

/-!
# The numbers in a request

A missing packet is identified by its position in the stream. The scan walks
indices and adds the position of the tail to the index where it should add it to
the distance from the tail, so a request carries the right numbers only while
the tail is at index zero.

## Implementation notes

The window is as the buffer itself sees it: a packet is there when its slot is
occupied. The condition is exact in every state that the workers reach, so it
also speaks of the states after an underrun or after position `2 ^ 64`.
-/

namespace SikRadio.Receiver

open SikRadio.Common SikRadio.Common.CircularBuffer
open Foundations Foundations.CheckedRuns Foundations.RingOffsets Foundations.Word64

variable {α : Type} {b : CircularBuffer α}

/-- The slot of position `p` is occupied. -/
def HasPacket (b : CircularBuffer α) (p : Nat) : Prop :=
  b.psize ∣ p - b.absTail ∧ b.occupied (b.slot (p - b.absTail)) = true

/-- The positions of packets in the window that are not in the buffer. -/
def Missing (b : CircularBuffer α) (p : Nat) : Prop :=
  b.absTail ≤ p ∧ p < b.absHead ∧ p ≡ b.byte0 [MOD b.psize] ∧ ¬HasPacket b p

/-- The numbers are those of the missing packets, each once and in increasing order, and none
lies before the start of the playback. -/
structure AsksForMissing (b : CircularBuffer α) (packetIds : List Nat) : Prop where
  increasing : packetIds.Pairwise (· < ·)
  mem_iff : ∀ p, p ∈ packetIds ↔ Missing b p
  not_before : ∀ p ∈ packetIds, b.byte0 ≤ p

/-- What `order_retransmission` sends to `station` for these numbers. -/
def request (station : RadioStation) (packetIds : List Nat) : Option (SockAddr × List Char) :=
  if packetIds = [] then none
  else some (station.ctrlAddr, RexmitRequest.toStr ⟨⟨0, 0⟩, packetIds⟩)

/-- `order_retransmission` asks the current station for exactly the missing packets. -/
def RequestsMissing (stations : Stations) (station : RadioStation) (b : CircularBuffer α) :
    Prop :=
  ∃ packetIds, AsksForMissing b packetIds ∧ ∀ fuel, b.windowLen < fuel →
    orderRetransmission fuel stations b = .ok (request station packetIds)

/-- The loop finds nothing to ask for. -/
def FindsNothing (b : CircularBuffer α) : Prop :=
  b.empty = true ∨ ∀ k < b.windowLen, b.occupied (b.windowSlot k) = true

/-- The index of a slot is its distance from the tail, and the window lies at positions of the
playback. -/
structure IndexIsDistance (b : CircularBuffer α) : Prop where
  tail_eq : b.tail = 0
  notEmpty : b.empty = false
  range_le : b.range ≤ b.absHead
  aligned : b.absHead ≡ b.byte0 [MOD b.psize]
  after : ∀ p, Missing b p → b.byte0 ≤ p

/-! ## The numbers that are sent -/

/-- What the scan collects. -/
def collected (b : CircularBuffer α) : List Nat :=
  if b.empty then [] else missingIds b 0 b.windowLen

theorem orderRetransmission_eq (h : Ring b) (hlt : b.head < b.roundedCap) {stations : Stations}
    {station : RadioStation} (hcurrent : stations.current = .ok station) {fuel : Nat}
    (hfuel : b.windowLen < fuel) :
    orderRetransmission fuel stations b = .ok (request station (collected b)) := by
  have hne : stations.currentStation ≠ none := by
    intro hnone
    simp [Stations.current, hnone, Foundations.OrderedNodes.NodeSet.deref] at hcurrent
  unfold orderRetransmission collected request
  rw [if_neg hne, missingFrom_tail h hlt, if_pos hfuel, hcurrent]
  cases b.empty with
  | true => rfl
  | false =>
      by_cases hnil : missingIds b 0 b.windowLen = []
      · simp [hnil, pure, Except.pure, bind, Except.bind]
      · simp [hnil, pure, Except.pure, bind, Except.bind]

theorem mem_missingIds_iff {p : Nat} :
    p ∈ missingIds b 0 b.windowLen ↔
      ∃ k < b.windowLen, b.occupied (b.windowSlot k) = false ∧
        wadd (b.windowSlot k) b.absTail = p := by
  simp [missingIds, and_assoc]

theorem collected_lt {p : Nat} (hp : p ∈ collected b) : p < 2 ^ 64 := by
  unfold collected at hp
  split at hp
  · cases hp
  · obtain ⟨k, -, -, rfl⟩ := mem_missingIds_iff.mp hp
    exact wadd_lt _ _

theorem collected_eq_nil_iff : collected b = [] ↔ FindsNothing b := by
  have hids : missingIds b 0 b.windowLen = [] ↔
      ∀ k < b.windowLen, b.occupied (b.windowSlot k) = true := by
    simp [missingIds]
  unfold collected FindsNothing
  cases b.empty with
  | true => simp
  | false => simpa using hids

/-- The text of a request determines its numbers. -/
theorem eq_of_toStr_eq {receiverAddr : SockAddr} {packetIds packetIds' : List Nat}
    (h : ∀ p ∈ packetIds, p < 2 ^ 64) (h' : ∀ p ∈ packetIds', p < 2 ^ 64)
    (heq : RexmitRequest.toStr ⟨receiverAddr, packetIds⟩ =
      RexmitRequest.toStr ⟨receiverAddr, packetIds'⟩) : packetIds = packetIds' := by
  have hread (ids : List Nat) (hids : ∀ p ∈ ids, p < 2 ^ 64) :
      RexmitRequest.ofString receiverAddr (RexmitRequest.toStr ⟨receiverAddr, ids⟩) =
        .ok (some ⟨receiverAddr, ids⟩) := by
    apply RexmitRequest.ofString_of_isRexmit
    exact ⟨ids.map toDecimal, forall₂_isNumber_toDecimal hids, .inr (by
      simp [RexmitRequest.toStr, rexmitLine])⟩
  have hsame := hread packetIds h
  rw [heq, hread packetIds' h'] at hsame
  exact (congrArg RexmitRequest.packetIds (Option.some.inj (Except.ok.inj hsame))).symm

theorem eq_of_request_eq {station : RadioStation} {packetIds packetIds' : List Nat}
    (h : ∀ p ∈ packetIds, p < 2 ^ 64) (h' : ∀ p ∈ packetIds', p < 2 ^ 64)
    (heq : request station packetIds = request station packetIds') : packetIds = packetIds' := by
  unfold request at heq
  split at heq
  case isTrue hnil =>
    split at heq
    case isTrue hnil' => rw [hnil, hnil']
    case isFalse => cases heq
  case isFalse =>
    split at heq
    case isTrue => cases heq
    case isFalse => exact eq_of_toStr_eq h h' (Prod.mk.inj (Option.some.inj heq)).2

/-! ## The positions that are missing -/

/-- The positions of the unoccupied slots. -/
def missingPositions (b : CircularBuffer α) : List Nat :=
  ((List.range' 0 b.windowLen).filter fun k => !b.occupied (b.windowSlot k)).map fun k =>
    b.absTail + k * b.psize

theorem pairwise_missingPositions (hpos : 0 < b.psize) :
    (missingPositions b).Pairwise (· < ·) := by
  unfold missingPositions
  rw [List.pairwise_map]
  have hrange : (List.range' 0 b.windowLen).Pairwise (· < ·) := List.pairwise_lt_range'
  apply (hrange.filter _).imp
  intro k l hkl
  have := Nat.mul_lt_mul_of_pos_right hkl hpos
  omega

/-- With the window at aligned positions of the stream these are the missing positions. -/
theorem mem_missingPositions_iff (h : Ring b) (habs : b.absTail + b.range = b.absHead)
    (halign : b.absHead ≡ b.byte0 [MOD b.psize]) {p : Nat} :
    p ∈ missingPositions b ↔ Missing b p := by
  have htail : b.absTail ≡ b.byte0 [MOD b.psize] := by
    refine Nat.ModEq.trans ?_ halign
    rw [← habs]
    exact (Nat.modEq_iff_dvd' (Nat.le_add_right _ _)).mpr (by simpa using h.dvd_range)
  unfold missingPositions Missing HasPacket
  rw [List.mem_map]
  constructor
  · rintro ⟨k, hk, rfl⟩
    obtain ⟨hk, hocc⟩ := List.mem_filter.mp hk
    have hrange := mul_psize_lt_range h (show k < b.windowLen by simpa using hk)
    have hmod : b.absTail + k * b.psize ≡ b.absTail [MOD b.psize] := by simp [Nat.ModEq]
    refine ⟨Nat.le_add_right _ _, by omega, hmod.trans htail, ?_⟩
    rintro ⟨-, hheld⟩
    rw [Nat.add_sub_cancel_left] at hheld
    rw [windowSlot, hheld] at hocc
    cases hocc
  · rintro ⟨hlo, hhi, hmod, hmissing⟩
    have hdvd : b.psize ∣ p - b.absTail :=
      (Nat.modEq_iff_dvd' hlo).mp (htail.trans hmod.symm)
    have hmul : (p - b.absTail) / b.psize * b.psize = p - b.absTail := Nat.div_mul_cancel hdvd
    refine ⟨(p - b.absTail) / b.psize, List.mem_filter.mpr ⟨?_, ?_⟩, by omega⟩
    · have hlt : (p - b.absTail) / b.psize < b.windowLen :=
        Nat.div_lt_div_of_lt_of_dvd h.dvd_range (by omega)
      simpa using hlt
    · rw [windowSlot, hmul]
      simpa [hdvd] using hmissing

/-- The numbers that are sent are the positions when the tail is at index zero. -/
theorem missingIds_eq_missingPositions (h : Ring b) (htail : b.tail = 0)
    (habs : b.absTail + b.range = b.absHead) (hword : b.absHead < 2 ^ 64) :
    missingIds b 0 b.windowLen = missingPositions b := by
  apply List.map_congr_left
  intro k hk
  have hlen : k < b.windowLen := by simpa using (List.mem_filter.mp hk).1
  have hrange := mul_psize_lt_range h hlen
  have hcap := h.range_le
  have hslot : b.windowSlot k = k * b.psize := by
    rw [windowSlot, slot, htail, Nat.zero_add, Nat.mod_eq_of_lt (by omega)]
  rw [hslot, wadd_of_lt (by omega), Nat.add_comm]

/-- A slot at its distance from the tail means that the tail is at index zero. -/
theorem tail_eq_zero_of_windowSlot (h : Ring b) {k : Nat} (hk : k < b.windowLen)
    (hslot : b.windowSlot k = k * b.psize) : b.tail = 0 := by
  have htail := h.tail_lt
  have hrange := mul_psize_lt_range h hk
  have hcap := h.range_le
  rw [windowSlot, slot] at hslot
  rcases mod_cases (show b.tail + k * b.psize < 2 * b.roundedCap by omega) with
    ⟨-, hsame⟩ | ⟨hwrap, hback⟩
  · rw [hsame] at hslot
    omega
  · rw [hback] at hslot
    omega

/-- When the numbers are right and some packet is asked for, index and distance agree. -/
theorem indexIsDistance_of_asks (h : Ring b) (hmax : b.capacity ≤ ptrdiffMax)
    (hword : b.absHead < 2 ^ 64) (hempty : b.empty = false)
    (hasks : AsksForMissing b (missingIds b 0 b.windowLen)) {k : Nat} (hk : k < b.windowLen)
    (hocc : b.occupied (b.windowSlot k) = false) : IndexIsDistance b := by
  have hcap := roundedCap_le b
  have hmax' : b.capacity < 2 ^ 63 := Nat.lt_of_le_of_lt hmax (by decide)
  have hr := h.range_le
  have hslot := windowSlot_lt h k
  have hasked : wadd (b.windowSlot k) b.absTail ∈ missingIds b 0 b.windowLen :=
    mem_missingIds_iff.mpr ⟨k, hk, hocc, rfl⟩
  obtain ⟨hlo, hhi, hmod, -⟩ := (hasks.mem_iff _).mp hasked
  -- the number is not below the tail's position, so neither the sum nor the window wraps around
  have hrange : b.range ≤ b.absHead := by
    by_contra hunder
    rw [absTail, wsub_of_lt (not_le.mp hunder)] at hlo hhi
    omega
  have habsTail : b.absTail = b.absHead - b.range := wsub_of_le hrange hword
  have hsum : wadd (b.windowSlot k) b.absTail = b.windowSlot k + b.absTail := by
    unfold wadd at hlo ⊢
    omega
  have halign : b.absHead ≡ b.byte0 [MOD b.psize] := by
    refine Nat.ModEq.trans ?_ hmod
    rw [hsum]
    have htail : b.absTail ≡ b.absHead [MOD b.psize] :=
      (Nat.modEq_iff_dvd' (by omega)).mpr (by
        rw [habsTail, Nat.sub_sub_self hrange]
        exact h.dvd_range)
    have hdvd : b.psize ∣ b.windowSlot k := dvd_slot h (Nat.dvd_mul_left _ _)
    have hzero : b.windowSlot k + b.absTail ≡ 0 + b.absTail [MOD b.psize] :=
      Nat.ModEq.add_right _ (Nat.modEq_zero_iff_dvd.mpr hdvd)
    rw [Nat.zero_add] at hzero
    exact (hzero.trans htail).symm
  have habs : b.absTail + b.range = b.absHead := by omega
  have hsame : missingIds b 0 b.windowLen = missingPositions b := by
    apply hasks.increasing.eq_of_mem_iff (pairwise_missingPositions h.psize_pos)
    intro p
    rw [hasks.mem_iff, mem_missingPositions_iff h habs halign]
  have hpoint : wadd (b.windowSlot k) b.absTail = b.absTail + k * b.psize := by
    apply List.map_inj_left.mp hsame k
    rw [List.mem_filter]
    simpa [hocc] using hk
  refine ⟨tail_eq_zero_of_windowSlot h hk (by omega), hempty, hrange, halign, fun p hp => ?_⟩
  exact hasks.not_before p ((hasks.mem_iff p).mpr hp)

/-- When index and distance agree, the numbers are right. -/
theorem IndexIsDistance.asksForMissing (h : Ring b) (hword : b.absHead < 2 ^ 64)
    (hindex : IndexIsDistance b) : AsksForMissing b (collected b) := by
  have hrange := hindex.range_le
  have habsTail : b.absTail = b.absHead - b.range := wsub_of_le hrange hword
  have habs : b.absTail + b.range = b.absHead := by omega
  have hmem (p : Nat) : p ∈ missingPositions b ↔ Missing b p :=
    mem_missingPositions_iff h habs hindex.aligned
  rw [collected, hindex.notEmpty, if_neg Bool.false_ne_true,
    missingIds_eq_missingPositions h hindex.tail_eq habs hword]
  refine ⟨pairwise_missingPositions h.psize_pos, hmem, fun p hp => ?_⟩
  exact hindex.after p ((hmem p).mp hp)

/-- The request says what the scan collects. -/
theorem requestsMissing_iff_asks (h : Ring b) (hlt : b.head < b.roundedCap)
    (hword : b.absHead < 2 ^ 64) {stations : Stations} {station : RadioStation}
    (hcurrent : stations.current = .ok station) :
    RequestsMissing stations station b ↔ AsksForMissing b (collected b) := by
  have hsent {fuel : Nat} (hfuel : b.windowLen < fuel) :=
    orderRetransmission_eq h hlt hcurrent hfuel
  constructor
  · rintro ⟨packetIds, hasks, hrequest⟩
    have heq := (hrequest _ (Nat.lt_succ_self b.windowLen)).symm.trans
      (hsent (Nat.lt_succ_self b.windowLen))
    have hids : packetIds = collected b := by
      apply eq_of_request_eq _ (fun p => collected_lt) (Except.ok.inj heq)
      intro p hp
      exact ((hasks.mem_iff p).mp hp).2.1.trans hword
    exact hids ▸ hasks
  · intro hasks
    exact ⟨collected b, hasks, fun fuel => hsent⟩

/-- The request is right exactly when there is nothing to ask for, and nothing is missing, or
the index of a slot is its distance from the tail. -/
theorem requestsMissing_iff_of_ring (h : Ring b) (hlt : b.head < b.roundedCap)
    (hmax : b.capacity ≤ ptrdiffMax) (hword : b.absHead < 2 ^ 64) {stations : Stations}
    {station : RadioStation} (hcurrent : stations.current = .ok station) :
    RequestsMissing stations station b ↔
      (FindsNothing b ∧ ∀ p, ¬Missing b p) ∨ IndexIsDistance b := by
  rw [requestsMissing_iff_asks h hlt hword hcurrent]
  constructor
  · intro hasks
    by_cases hnothing : FindsNothing b
    · rw [collected_eq_nil_iff.mpr hnothing] at hasks
      exact .inl ⟨hnothing, fun p hp => List.not_mem_nil ((hasks.mem_iff p).mpr hp)⟩
    · obtain ⟨hempty, hwhole⟩ := not_or.mp hnothing
      push Not at hwhole
      obtain ⟨k, hk, hocc⟩ := hwhole
      rw [collected, if_neg hempty] at hasks
      exact .inr (indexIsDistance_of_asks h hmax hword (Bool.eq_false_iff.mpr hempty) hasks hk
        (Bool.eq_false_iff.mpr hocc))
  · rintro (⟨hnothing, hmissing⟩ | hindex)
    · rw [collected_eq_nil_iff.mpr hnothing]
      exact ⟨.nil, fun p => iff_of_false List.not_mem_nil (hmissing p), by simp⟩
    · exact hindex.asksForMissing h hword

namespace Playback

variable [Zero α] {s s' : Playback α}

/-- Stream positions stay words. -/
theorem absHead_lt_step {action : Action α} (h : Reached s) (habs : s.buffer.absHead < 2 ^ 64)
    (hs : s.step action = .ok s') : s'.buffer.absHead < 2 ^ 64 := by
  rcases buffer_step_cases h hs with e | ⟨packet, -, e⟩ | ⟨packet, -, hring, hput⟩ | ⟨-, -, e⟩
  · rwa [e]
  · rw [e]
    exact packet.firstByteNum_lt
  · exact tryPut_absHead_lt hring habs hput
  · rwa [e, dumped_absHead]

theorem absHead_lt_run {bsize : Nat} {buffer : CircularBuffer α}
    (hnew : CircularBuffer.new bsize = some buffer) {actions : List (Action α)}
    (hrun : run (init buffer) actions = .ok s) : s.buffer.absHead < 2 ^ 64 := by
  have hinit : Reached (init buffer) ∧ (init buffer).buffer.absHead < 2 ^ 64 := by
    constructor
    · exact (reached_run hnew (show run (init buffer) [] = .ok _ from rfl)).1
    · exact (receiving_init hnew).absHead_lt
  refine (inv_of_run (I := fun s => Reached s ∧ s.buffer.absHead < 2 ^ 64)
    (fun s action s' hs hstep => ?_) hinit hrun).2
  exact ⟨reached_step hs.1 hstep, absHead_lt_step hs.1 hs.2 hstep⟩

/-- In every state that the workers reach, with room for two packets and a current station, the
missing packets are asked for exactly when there is nothing to ask for, and nothing is missing,
or the index of a slot is its distance from the tail. -/
theorem requests_missing_iff {bsize : Nat} {buffer : CircularBuffer α}
    (hnew : CircularBuffer.new bsize = some buffer) {actions : List (Action α)}
    (hrun : run (init buffer) actions = .ok s) (htwo : 2 ≤ bsize / s.buffer.psize)
    {stations : Stations} {station : RadioStation} (hcurrent : stations.current = .ok station) :
    RequestsMissing stations station s.buffer ↔
      (FindsNothing s.buffer ∧ ∀ p, ¬Missing s.buffer p) ∨ IndexIsDistance s.buffer := by
  obtain ⟨hreached, hcap⟩ := reached_run hnew hrun
  have hpos : 0 < s.buffer.psize := by
    by_contra hzero
    rw [Nat.eq_zero_of_not_pos hzero, Nat.div_zero] at htwo
    omega
  have hfits : 2 * s.buffer.psize ≤ s.buffer.capacity := by
    rw [hcap]
    exact (Nat.le_div_iff_mul_le hpos).mp htwo
  have hmax : s.buffer.capacity ≤ ptrdiffMax := by
    rw [hcap, ← (new_fields hnew).2.1]
    exact (new_fields hnew).2.2
  cases hreached with
  | unused h => exact absurd h.psize_eq hpos.ne'
  | ring h =>
      exact requestsMissing_iff_of_ring h (h.head_lt_of_two hfits) hmax (absHead_lt_run hnew hrun)
        hcurrent
  | stuck h =>
      obtain ⟨before, packet, -, hbuffer, hfit⟩ := h
      simp only [hbuffer, resetAt, reset] at hpos hfits
      exact absurd ⟨hpos, by omega⟩ hfit

section Example

def exampleStation : RadioStation where
  dataAddr := ⟨1, 2⟩
  ctrlAddr := ⟨1, 3⟩
  mcastAddr := ⟨4, 2⟩
  name := ['R']
  lastReply := 0
  validName := by decide

def oneStation : Stations := Stations.init.addStation none exampleStation

/-- The packets of a session with these numbers, each put as it arrives. -/
def arrivals (numbers : List Nat) : List (Action UInt8) :=
  numbers.flatMap fun n => arrival (AudioPacket.oneByte 7 n)

theorem requests_missing_iff_one_lost :
    ∃ buffer, CircularBuffer.new 4 = some buffer ∧
      ∃ s, run (init buffer) (arrivals [0, 2]) = .ok s ∧
        (RequestsMissing oneStation exampleStation s.buffer ↔
          (FindsNothing s.buffer ∧ ∀ p, ¬Missing s.buffer p) ∨ IndexIsDistance s.buffer) := by
  refine ⟨_, rfl, exists_ok_and (by decide) fun s hrun => ?_⟩
  have hpsize := eq_of_toOption_map (v := 1) (fun s => s.buffer.psize) (by decide) hrun
  have htwo : 2 ≤ 4 / s.buffer.psize := by
    rw [hpsize]
    decide
  exact requests_missing_iff rfl hrun htwo rfl

/-- Packet 3 is missing from the window of the packets 2 to 4, and packet 5, which was not sent
yet, is asked for. -/
theorem asks_beyond_head :
    ∃ buffer, CircularBuffer.new 4 = some buffer ∧
      ∃ s, run (init buffer) (arrivals [0, 1, 2, 4]) = .ok s ∧
        2 ≤ 4 / s.buffer.psize ∧ oneStation.current = .ok exampleStation ∧
        Missing s.buffer 3 ∧ s.buffer.absHead = 5 ∧
        orderRetransmission 4 oneStation s.buffer = .ok (request exampleStation [5]) ∧
        ¬RequestsMissing oneStation exampleStation s.buffer := by
  refine ⟨_, rfl, exists_ok_and (by decide) fun s hrun => ?_⟩
  have hfields := eq_of_toOption_map (v := (1, 2, 5, 2, 0, false))
    (fun s => (s.buffer.psize, s.buffer.tail, s.buffer.absHead, s.buffer.absTail, s.buffer.byte0,
      s.buffer.occupied (s.buffer.slot 1))) (by decide) hrun
  obtain ⟨hpsize, htail, hhead, habs, hbyte0, hocc⟩ : s.buffer.psize = 1 ∧ s.buffer.tail = 2 ∧
      s.buffer.absHead = 5 ∧ s.buffer.absTail = 2 ∧ s.buffer.byte0 = 0 ∧
      s.buffer.occupied (s.buffer.slot 1) = false := by simpa using hfields
  have hsent := eq_of_toOption_map (v := .ok (request exampleStation [5]))
    (fun s => orderRetransmission 4 oneStation s.buffer) rfl hrun
  have hmissing : Missing s.buffer 3 := by
    refine ⟨by omega, by omega, by rw [hpsize]; exact Nat.modEq_one, fun hheld => ?_⟩
    have hthere := hheld.2
    rw [habs, hocc] at hthere
    cases hthere
  refine ⟨by rw [hpsize]; decide, rfl, hmissing, hhead, hsent, ?_⟩
  rintro ⟨packetIds, hasks, hrequest⟩
  have hlen := eq_of_toOption_map (v := 3) (fun s => s.buffer.windowLen) (by decide) hrun
  have hids : packetIds = [5] := by
    apply eq_of_request_eq (fun p hp => ?_) (by decide)
      (Except.ok.inj ((hrequest 4 (by omega)).symm.trans hsent))
    have hlt := ((hasks.mem_iff p).mp hp).2.1
    omega
  have hasked := (hasks.mem_iff 3).mpr hmissing
  rw [hids] at hasked
  exact absurd hasked (by decide)

end Example

end Playback

end SikRadio.Receiver
