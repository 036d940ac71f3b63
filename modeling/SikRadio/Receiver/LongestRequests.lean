import SikRadio.Receiver.RequestLength
import SikRadio.Receiver.SessionRuns

/-!
# The longest requests

Two sessions leave as much missing as can be. In the first every second packet
is lost, and half of the window is missing. In the second two packets far ahead
are dismissed but queue a print job each, so that the printer takes one packet
more than there is, and the whole window is missing. At positions with twenty
digits, or in a large buffer, neither request fits a datagram.
-/

namespace SikRadio.Receiver

open SikRadio.Common SikRadio.Common.CircularBuffer
open Foundations Foundations.CheckedRuns Foundations.MemoryCells Foundations.RingOffsets
  Foundations.Word64 Foundations.SeparatedText Foundations.Spacing

/-! ## How much is too much -/

section Buffer

variable {α : Type} {b : CircularBuffer α} {base count : Nat}

/-- The buffer asks for at least `count` packets and for none before `base`. -/
structure AsksFor (base count : Nat) (b : CircularBuffer α) : Prop where
  ring : Ring b
  head_lt : b.head < b.roundedCap
  notEmpty : b.empty = false
  count_le : count ≤ (missingIds b 0 b.windowLen).length
  base_le : ∀ id ∈ missingIds b 0 b.windowLen, base ≤ id

/-- What a station is sent when the buffer asks for something. -/
theorem AsksFor.exists_text (h : AsksFor base count b) (hcount : 0 < count) {digits : Nat}
    (hdigits : ∀ id, base ≤ id → digits ≤ (toDecimal id).length) :
    ∃ text, 14 + count * (digits + 1) ≤ text.length ∧
      ∀ stations station, stations.current = .ok station → ∀ fuel, b.windowLen < fuel →
        orderRetransmission fuel stations b = .ok (some (station.ctrlAddr, text)) := by
  have hne : missingIds b 0 b.windowLen ≠ [] := fun hnil => by
    have hle := h.count_le
    rw [hnil, List.length_nil] at hle
    omega
  refine ⟨RexmitRequest.toStr ⟨⟨0, 0⟩, missingIds b 0 b.windowLen⟩, ?_, ?_⟩
  · have hlen := le_length_toStr ⟨0, 0⟩ hne fun id hid => hdigits id (h.base_le id hid)
    exact (Nat.add_le_add_left (Nat.mul_le_mul_right _ h.count_le) 14).trans hlen
  · intro stations station hcurrent fuel hfuel
    rw [orderRetransmission_eq h.ring h.head_lt hcurrent hfuel, collected, h.notEmpty,
      if_neg Bool.false_ne_true, request, if_neg hne]

theorem AsksFor.not_requestFits (h : AsksFor base count b) {digits : Nat}
    (hdigits : ∀ id, base ≤ id → digits ≤ (toDecimal id).length)
    (hlong : udpMaxDataSize < 14 + count * (digits + 1)) : ¬RequestFits b := by
  have hcount : 0 < count := by
    by_contra hzero
    rw [Nat.eq_zero_of_not_pos hzero, Nat.zero_mul] at hlong
    exact absurd hlong (by decide)
  obtain ⟨text, hlen, hsent⟩ := h.exists_text hcount hdigits
  intro hfits
  have hle := hfits _ _ _ _
    (hsent Playback.oneStation Playback.exampleStation rfl _ (Nat.lt_succ_self _))
  omega

theorem one_le_length_toDecimal (x : Nat) : 1 ≤ (toDecimal x).length :=
  Nat.length_toDigits_pos

/-- From ten to the nineteenth on, a number has twenty digits. -/
theorem twenty_le_length_toDecimal {x : Nat} (h : 10 ^ 19 ≤ x) : 20 ≤ (toDecimal x).length := by
  by_contra hshort
  have hlt := (Nat.length_toDigits_le_iff (k := 19) (by decide) (by decide)).mp
    (Nat.lt_succ_iff.mp (not_le.mp hshort))
  exact absurd h (Nat.not_le.mpr hlt)

/-- As long as positions do not wrap around, nothing before the window is asked for. -/
theorem absTail_le_of_mem_missingIds (h : Ring b) (hword : b.absTail + b.roundedCap ≤ 2 ^ 64)
    {n id : Nat} (hid : id ∈ missingIds b 0 n) : b.absTail ≤ id := by
  obtain ⟨k, -, rfl⟩ := List.mem_map.mp hid
  have hslot := windowSlot_lt h k
  rw [wadd_of_lt (by omega)]
  exact Nat.le_add_left _ _

/-- Where a stream has to be for so many numbers to be too many. -/
theorem exists_base (count : Nat) {bsize m : Nat} (hm : m ≤ AudioPacket.maxPsize)
    (hmax : bsize ≤ ptrdiffMax) (hcount : 3121 ≤ count) (hhalf : bsize / m ≤ 2 * count + 2) :
    ∃ base, base + 2 * (bsize / m * m) ≤ 2 ^ 64 ∧
      ∀ b : CircularBuffer UInt8, AsksFor base count b → ¬RequestFits b := by
  have hround : bsize / m * m ≤ bsize := Nat.div_mul_le_self _ _
  have hudp : udpMaxDataSize = 65535 := rfl
  have hpsize : AudioPacket.maxPsize = 65519 := rfl
  rcases Nat.lt_or_ge 65522 (bsize / m) with hlarge | hsmall
  · -- there are so many numbers that a digit each is enough
    refine ⟨0, ?_, fun b h => ?_⟩
    · rw [ptrdiffMax] at hmax
      omega
    · exact h.not_requestFits (fun id _ => one_le_length_toDecimal id) (by omega)
  · -- the buffer is small enough for a stream at twenty digits
    refine ⟨10 ^ 19, ?_, fun b h => ?_⟩
    · have hle : bsize / m * m ≤ 65522 * 65519 := Nat.mul_le_mul hsmall (hpsize ▸ hm)
      omega
    · exact h.not_requestFits (fun id => twenty_le_length_toDecimal) (by omega)

end Buffer

namespace Playback

/-! ## Every second packet is lost -/

section Alternating

variable {α : Type} {b : CircularBuffer α} {packet : AudioPacket α}

/-- Every second packet of the window is missing, and the last one is there. -/
def Alternates (b : CircularBuffer α) : Prop :=
  ∀ k < b.windowLen, b.occupied (b.windowSlot k) = decide ((b.windowLen - 1 - k) % 2 = 0)

/-- A push that skips a packet keeps on alternating. -/
theorem alternates_pushed [Zero α] (h : Ring b) (h2 : 2 * b.psize ≤ b.capacity)
    (hskip : b.headOffset packet = b.psize) (halt : Alternates b) :
    Alternates (b.pushed packet) := by
  have hpos := h.psize_pos
  have hroom := windowLen_lt h (h.head_lt_of_two h2)
  have hdvd : b.psize ∣ b.headOffset packet := dvd_of_eq hskip.symm
  have hone : b.headOffset packet / b.psize = 1 := by rw [hskip, Nat.div_self hpos]
  have hwindow := windowLen_pushed h hdvd h2 hskip.le
  have hslot := windowSlot_pushed h hdvd h2 hskip.le
  have hflag := fun j => occupied_pushed h hdvd h2 hskip.le (j := j)
  rw [hone] at hwindow
  simp only [hone] at hslot hflag
  generalize b.capacity / b.psize = n at *
  intro k hk
  rw [hwindow] at hk ⊢
  rw [hslot, hflag _ (by omega) (by omega)]
  -- the distance from the end of the window, by the slots counted from the old tail
  have hdistance : min (b.windowLen + 1 + 1) (n - 1) - 1 - k =
      b.windowLen + 1 - (b.windowLen + 1 + 1 - (n - 1) + k) := by omega
  have hle : b.windowLen + 1 + 1 - (n - 1) + k ≤ b.windowLen + 1 := by omega
  rw [hdistance]
  generalize b.windowLen + 1 + 1 - (n - 1) + k = j at *
  rcases Nat.lt_trichotomy j b.windowLen with hold | heq | hnew
  · rw [if_neg (by omega), if_pos hold, halt j hold]
    congr 1
    apply propext
    omega
  · rw [if_neg (by omega), if_neg (by omega), heq, Nat.add_sub_cancel_left]
    rfl
  · rw [if_pos (by omega), show j = b.windowLen + 1 by omega, Nat.sub_self]
    rfl

/-- Half of an alternating window is missing. -/
theorem Alternates.half_le (halt : Alternates b) :
    b.windowLen / 2 ≤ (missingIds b 0 b.windowLen).length := by
  have hpresent := two_mul_countP_le (p := fun k => b.occupied (b.windowSlot k))
    (n := b.windowLen) fun k hk hocc => by
      rw [halt k (by omega), decide_eq_true_eq] at hocc
      rw [halt (k + 1) hk, decide_eq_false_iff_not]
      omega
  have hlast : (if b.occupied (b.windowSlot (b.windowLen - 1)) = true then 1 else 0) ≤ 1 := by
    split <;> omega
  have hcount := List.length_eq_countP_add_countP (fun k => b.occupied (b.windowSlot k))
    (l := List.range b.windowLen)
  rw [List.length_range] at hcount
  rw [length_missingIds]
  simp only [Bool.not_eq_true, Bool.decide_eq_false] at hcount
  omega

end Alternating

section HalfLost

variable {bsize first m j : Nat} {s : Playback UInt8}

/-- Of the packets up to number `2 * j` those with even numbers have arrived. -/
structure HalfLost (bsize first m j : Nat) (s : Playback UInt8) : Prop where
  session : InSession 1 s
  psize_eq : s.buffer.psize = m
  capacity_eq : s.buffer.capacity = bsize
  byte0_eq : s.buffer.byte0 = first
  notEmpty : s.buffer.empty = false
  window : ∃ w, Represents s.buffer w ∧ w.hi = first + (2 * j + 1) * m
  windowLen_eq : s.buffer.windowLen = min (2 * j + 1) (bsize / m - 1)
  alternates : Alternates s.buffer

theorem HoldsFirst.halfLost (h : HoldsFirst bsize first m s.buffer) (hsession : InSession 1 s) :
    HalfLost bsize first m 0 s := by
  obtain ⟨w, hrep, hhi⟩ := h.window
  have hpos := hrep.ring.psize_pos
  have hlen : s.buffer.windowLen = 1 := by
    rw [windowLen, h.range_eq, h.psize_eq, Nat.div_self (h.psize_eq ▸ hpos)]
  have hfit : 2 ≤ bsize / m := by
    rw [← h.capacity_eq, ← h.psize_eq]
    exact (Nat.le_div_iff_mul_le hpos).mpr hrep.two_fit
  refine ⟨hsession, h.psize_eq, h.capacity_eq, h.byte0_eq, h.notEmpty,
    ⟨w, hrep, by rw [hhi]; ring⟩, ?_, fun k hk => ?_⟩
  · rw [hlen]
    exact (Nat.min_eq_left (by omega)).symm
  · have hcap := hrep.ring.psize_le
    rw [h.capacity_eq] at hcap
    rw [hlen] at hk ⊢
    rw [Nat.lt_one_iff.mp hk, windowSlot_zero hrep.ring, h.tail_eq, h.occupied_eq 0 (by omega)]

/-- The next packet that is not lost. -/
theorem HalfLost.next (h : HalfLost bsize first m j s)
    (hword : first + (2 * (j + 1) + 1) * m < 2 ^ 64) :
    ∃ s', run s (arrival (silence first m (2 * (j + 1)))) = .ok s' ∧
      HalfLost bsize first m (j + 1) s' := by
  obtain ⟨w, hrep, hhi⟩ := h.window
  have hring := h.session.ring
  have h2 := hrep.two_fit
  have hlast : first + (2 * (j + 1) + 1) * m = first + 2 * (j + 1) * m + m := by ring
  have hskipped : first + 2 * (j + 1) * m = w.hi + m := by
    rw [hhi]
    ring
  have hfbn : (silence first m (2 * (j + 1))).firstByteNum = w.hi + m :=
    (silence_firstByteNum (by omega)).trans hskipped
  have hahead : w.hi ≤ (silence first m (2 * (j + 1))).firstByteNum := by omega
  have hskip : s.buffer.headOffset (silence first m (2 * (j + 1))) = s.buffer.psize := by
    rw [headOffset_eq (hrep.hi_eq ▸ hahead), hrep.hi_eq, hfbn, Nat.add_sub_cancel_left, h.psize_eq]
  have hdvd : s.buffer.psize ∣ s.buffer.headOffset (silence first m (2 * (j + 1))) :=
    dvd_of_eq hskip.symm
  have hlen : s.buffer.psize ≤ (silence first m (2 * (j + 1))).psize := by
    rw [silence_psize, h.psize_eq]
  have halign : (silence first m (2 * (j + 1))).firstByteNum ≡ w.lo [MOD s.buffer.psize] := by
    rw [hfbn, ← h.psize_eq]
    exact Nat.add_modEq_right.trans hrep.lo_modEq_hi.symm
  have hword' : (silence first m (2 * (j + 1))).firstByteNum + s.buffer.psize < 2 ^ 64 := by
    rw [h.psize_eq]
    omega
  have hin : s.buffer.byte0 ≤ (silence first m (2 * (j + 1))).firstByteNum := by
    rw [h.byte0_eq]
    omega
  obtain ⟨s', hs, hsession, hbuffer, -, -⟩ := InSession.exists_next
    (silence first m (2 * (j + 1))) h.session hin
    (hrep.tryPut_of_ahead halign hahead hskip.le hlen)
  have hpushed := hrep.pushed hahead hdvd hskip.le hlen hword'
  have hwindow := windowLen_pushed hring hdvd h2 hskip.le
  have hend : (silence first m (2 * (j + 1))).firstByteNum + s.buffer.psize =
      first + (2 * (j + 1) + 1) * m := by
    rw [h.psize_eq]
    omega
  refine ⟨s', hs, hsession, ?_, ?_, ?_, ?_, ?_, ?_, ?_⟩
  all_goals rw [hbuffer]
  · exact (pushed_psize _ _).trans h.psize_eq
  · exact (pushed_capacity _ _).trans h.capacity_eq
  · exact (pushed_byte0 _ _).trans h.byte0_eq
  · exact pushed_empty _ _
  · exact ⟨_, hpushed, hend⟩
  · rw [hwindow, hskip, Nat.div_self hring.psize_pos, h.windowLen_eq, h.capacity_eq, h.psize_eq]
    generalize bsize / m = n
    omega
  · exact alternates_pushed hring h2 hskip h.alternates

/-- The run in which the first `n` packets with odd numbers are lost. -/
theorem exists_halfLost (first n : Nat) {buffer : CircularBuffer UInt8}
    (hnew : CircularBuffer.new bsize = some buffer) (hpos : 0 < m) (h2 : 2 * m ≤ bsize)
    (hword : first + (2 * n + 1) * m < 2 ^ 64) :
    ∃ s, run (init buffer) (silences first m ((List.range (n + 1)).map (2 * ·))) = .ok s ∧
      HalfLost bsize first m n s := by
  induction n with
  | zero =>
      obtain ⟨s, hs, hsession, hfirst, -⟩ := exists_first first hnew hpos h2 (by omega)
      exact ⟨s, hs, hfirst.halfLost hsession⟩
  | succ n ih =>
      have hlt : (2 * n + 1) * m ≤ (2 * (n + 1) + 1) * m := Nat.mul_le_mul_right m (by omega)
      obtain ⟨s, hs, hlost⟩ := ih (by omega)
      obtain ⟨s', hs', hlost'⟩ := hlost.next hword
      refine ⟨s', ?_, hlost'⟩
      rw [List.range_succ, List.map_append, silences, List.flatMap_append, run_append]
      exact bind_eq_ok_iff.mpr ⟨s, hs, hs'⟩

theorem print_not_mem_silences (first m : Nat) (numbers : List Nat) :
    .print ∉ silences first m numbers := by
  simp [silences, arrival]

/-- When the window is full, half of its slots are missing. -/
theorem HalfLost.asksFor (h : HalfLost bsize first m j s) (hj : 2 * j ≤ bsize / m)
    (hfull : bsize / m - 1 ≤ 2 * j + 1) (hword : first + 2 * (bsize / m * m) ≤ 2 ^ 64) :
    AsksFor first ((bsize / m - 1) / 2) s.buffer := by
  obtain ⟨w, hrep, hhi⟩ := h.window
  have hring := h.session.ring
  have hpos := hring.psize_pos
  have hround : s.buffer.roundedCap = bsize / m * m := by
    rw [roundedCap, h.capacity_eq, h.psize_eq]
  have hlen : s.buffer.windowLen = bsize / m - 1 := by
    rw [h.windowLen_eq, Nat.min_eq_right hfull]
  have hrange : (bsize / m - 1) * m = s.buffer.range := by
    rw [← hlen, ← h.psize_eq]
    exact windowLen_mul hring
  have hend : w.lo + (bsize / m - 1) * m = first + (2 * j + 1) * m := by
    rw [hrange, hrep.length_eq, hhi]
  have hfit : 2 ≤ bsize / m := by
    rw [← h.capacity_eq, ← h.psize_eq]
    exact (Nat.le_div_iff_mul_le hpos).mpr hrep.two_fit
  have hone := pred_mul_add (show 0 < bsize / m by omega) m
  have hbefore : (bsize / m - 1) * m ≤ (2 * j + 1) * m := Nat.mul_le_mul_right m hfull
  have hbehind := odd_mul_add_le (show j < bsize / m by omega) m
  refine ⟨hring, hrep.head_lt, h.notEmpty, ?_, fun id hid => ?_⟩
  · rw [← hlen]
    exact h.alternates.half_le
  · have hword' : s.buffer.absTail + s.buffer.roundedCap ≤ 2 ^ 64 := by
      rw [hrep.absTail_eq, hround]
      omega
    have hle := absTail_le_of_mem_missingIds hring hword' hid
    rw [hrep.absTail_eq] at hle
    omega

/-- Without a print half of the window can be missing. -/
theorem exists_asksFor_half {buffer : CircularBuffer UInt8}
    (hnew : CircularBuffer.new bsize = some buffer) (hpos : 0 < m)
    (hm : m ≤ AudioPacket.maxPsize) (hfit : 2 ≤ bsize / m)
    (hword : first + 2 * (bsize / m * m) ≤ 2 ^ 64) :
    ∃ actions s, OfSession m actions ∧ .print ∉ actions ∧ run (init buffer) actions = .ok s ∧
      AsksFor first ((bsize / m - 1) / 2) s.buffer := by
  have h2 : 2 * m ≤ bsize := (Nat.le_div_iff_mul_le hpos).mp hfit
  have hlast := odd_mul_add_le (show bsize / m / 2 < bsize / m by omega) m
  obtain ⟨s, hs, hlost⟩ := exists_halfLost first (bsize / m / 2) hnew hpos h2 (by omega)
  refine ⟨_, s, ?_, print_not_mem_silences first m _, hs,
    hlost.asksFor (by omega) (by omega) hword⟩
  apply ofSession_of_received first (n := 2 * (bsize / m / 2) + 1) hpos hm (by omega) _
    (received_silences first m _)
  intro k hk
  obtain ⟨i, hi, rfl⟩ := List.mem_map.mp hk
  have hi := List.mem_range.mp hi
  omega

end HalfLost

/-! ## More is printed than there is -/

section Overprinted

variable {bsize base m : Nat}

/-- Where the stream starts when its first packet ends the window behind `base`. -/
def lateStart (bsize base m : Nat) : Nat := base + (bsize / m - 2) * m

section Dumped

variable {first : Nat} {b : CircularBuffer UInt8} (h : HoldsFirst bsize first m b)

include h

theorem HoldsFirst.roundedCap_eq : b.roundedCap = bsize / m * m := by
  rw [roundedCap, h.capacity_eq, h.psize_eq]

/-- Nothing is left after a dump. -/
theorem HoldsFirst.occupied_dumped {i : Nat} (hi : i < bsize) :
    b.dumped.dumped.occupied i = false := by
  rw [dumped_occupied, dumped_occupied, h.tail_eq, dumped_psize, h.psize_eq]
  simp only [fill, h.occupied_eq i hi]
  split
  case isTrue => rfl
  case isFalse =>
    split
    case isTrue => rfl
    case isFalse hout =>
      obtain ⟨w, hrep, -⟩ := h.window
      have hpos := h.psize_eq ▸ hrep.ring.psize_pos
      exact decide_eq_false (by omega)

/-- The second dump takes the tail past the head, and the window is as long as it can be. -/
theorem HoldsFirst.range_dumped (hfit : 3 ≤ bsize / m) :
    b.dumped.dumped.range = (bsize / m - 1) * m := by
  obtain ⟨w, hrep, -⟩ := h.window
  have hpos := h.psize_eq ▸ hrep.ring.psize_pos
  have hround := h.roundedCap_eq
  have hthree : 3 * m ≤ bsize / m * m := Nat.mul_le_mul_right m hfit
  have hone := pred_mul_add (show 0 < bsize / m by omega) m
  have htail : b.dumped.tail = m := by
    rw [dumped_tail, h.tail_eq, h.psize_eq, Nat.zero_add, hround, Nat.mod_eq_of_lt (by omega)]
  have htail' : b.dumped.dumped.tail = 2 * m := by
    rw [dumped_tail, htail, roundedCap_dumped, dumped_psize, h.psize_eq, hround,
      Nat.mod_eq_of_lt (by omega), Nat.two_mul]
  have hhead : b.dumped.dumped.head = m := by rw [dumped_head, dumped_head, h.head_eq]
  rw [range, htail', hhead, if_neg (by omega), roundedCap_dumped, roundedCap_dumped, hround]
  omega

end Dumped

/-- Once two packets are printed where one is there, the whole window is missing. -/
theorem HoldsFirst.asksFor_dumped {b : CircularBuffer UInt8}
    (h : HoldsFirst bsize (lateStart bsize base m) m b) (hfit : 3 ≤ bsize / m)
    (hword : base + 2 * (bsize / m * m) ≤ 2 ^ 64) :
    AsksFor base (bsize / m - 1) b.dumped.dumped := by
  obtain ⟨w, hrep, hhi⟩ := h.window
  have hpos : 0 < m := h.psize_eq ▸ hrep.ring.psize_pos
  have hring : Ring b.dumped.dumped := ring_dumped (ring_dumped hrep.ring)
  have hround : b.dumped.dumped.roundedCap = bsize / m * m := by
    rw [roundedCap_dumped, roundedCap_dumped, h.roundedCap_eq]
  have hcap : bsize / m * m ≤ bsize := Nat.div_mul_le_self _ _
  have hlast : (bsize / m - 1) * m + m = bsize / m * m := pred_mul_add (by omega) m
  have hbefore : (bsize / m - 2) * m + m = (bsize / m - 1) * m :=
    pred_mul_add (show 0 < bsize / m - 1 by omega) m
  have hrange := h.range_dumped hfit
  have hlen : b.dumped.dumped.windowLen = bsize / m - 1 := by
    rw [windowLen, hrange, dumped_psize, dumped_psize, h.psize_eq, Nat.mul_div_cancel _ hpos]
  have habsTail : b.dumped.dumped.absTail = base := by
    rw [absTail, hrange, dumped_absHead, dumped_absHead, hrep.hi_eq, hhi, lateStart,
      wsub_of_le (by omega) (by omega)]
    omega
  refine ⟨hring, ?_, ?_, ?_, fun id hid => ?_⟩
  · have hthree : 3 * m ≤ bsize / m * m := Nat.mul_le_mul_right m hfit
    rw [dumped_head, dumped_head, h.head_eq, hround]
    omega
  · rw [dumped_empty, dumped_empty, h.notEmpty]
  · rw [hlen, length_missingIds_eq fun k _ => h.occupied_dumped ?_]
    have hslot := windowSlot_lt hring k
    omega
  · have hle := absTail_le_of_mem_missingIds hring (by rw [habsTail, hround]; omega) hid
    omega

/-- A packet far ahead of the head is dismissed, but it queues a job. -/
theorem HoldsFirst.exists_dismissed {first k : Nat} {s : Playback UInt8}
    (h : HoldsFirst bsize first m s.buffer) (hsession : InSession 1 s) (hk : 3 ≤ k)
    (hfar : bsize / 4 * 3 < k * m + m) (hword : first + (k * m + m) < 2 ^ 64) :
    ∃ s', run s (arrival (silence first m k)) = .ok s' ∧ InSession 1 s' ∧
      s'.buffer = s.buffer ∧ s'.printing = s.printing ∧
      s'.printerQueue = s.printerQueue ++ [.newJobs] := by
  obtain ⟨w, hrep, hhi⟩ := h.window
  have hpos : 0 < m := h.psize_eq ▸ hrep.ring.psize_pos
  have hthree : 3 * m ≤ k * m := Nat.mul_le_mul_right m hk
  have hfbn : (silence first m k).firstByteNum = first + k * m :=
    silence_firstByteNum (by omega)
  have hlo : w.lo = first := by
    have hlength := hrep.length_eq
    rw [h.range_eq] at hlength
    omega
  have halign : (silence first m k).firstByteNum ≡ w.lo [MOD s.buffer.psize] := by
    rw [hfbn, hlo, h.psize_eq]
    exact Nat.add_mul_mod_self_right first k m
  have hahead : s.buffer.absHead ≤ (silence first m k).firstByteNum := by
    rw [hrep.hi_eq]
    omega
  have hout : s.buffer.Dismisses (silence first m k) := by
    refine .inr ⟨hahead, ?_⟩
    rw [headOffset_eq hahead, hrep.hi_eq, h.psize_eq]
    omega
  have hprints : s.Prints (silence first m k) := by
    right
    rw [printingThreshold, h.byte0_eq, h.capacity_eq, h.psize_eq, hfbn, wadd_of_lt (by omega),
      wadd_of_lt (by omega), wsub_of_le (by omega) (by omega)]
    omega
  obtain ⟨s', hs, hsession', hbuffer, hprinting, hqueue⟩ := InSession.exists_next
    (silence first m k) hsession (by rw [h.byte0_eq]; omega)
    (hrep.tryPut_of_dismisses halign hout)
  exact ⟨s', hs, hsession', hbuffer, hprinting, hqueue.trans (if_pos hprints)⟩

/-- The first packet and the last two that a buffer has room for, and two prints. -/
def overprinting (bsize base m : Nat) : List (Action UInt8) :=
  arrival (silence (lateStart bsize base m) m 0) ++
    arrival (silence (lateStart bsize base m) m (bsize / m - 2)) ++
    arrival (silence (lateStart bsize base m) m (bsize / m - 1)) ++
    [.popEvent, .print] ++ [.popEvent, .print]

/-- With surplus jobs the whole window can be missing. -/
theorem exists_asksFor_whole {buffer : CircularBuffer UInt8}
    (hnew : CircularBuffer.new bsize = some buffer) (hpos : 0 < m)
    (hm : m ≤ AudioPacket.maxPsize) (hfit : 7 ≤ bsize / m)
    (hword : base + 2 * (bsize / m * m) ≤ 2 ^ 64) :
    ∃ actions s, OfSession m actions ∧ run (init buffer) actions = .ok s ∧
      AsksFor base (bsize / m - 1) s.buffer := by
  have h2 : 2 * m ≤ bsize := (Nat.le_div_iff_mul_le hpos).mp (by omega)
  have hover : bsize < bsize / m * m + m := Nat.lt_div_mul_add hpos
  have hseven : 7 * m ≤ bsize / m * m := Nat.mul_le_mul_right m hfit
  have hlast : (bsize / m - 1) * m + m = bsize / m * m := pred_mul_add (by omega) m
  have hbefore : (bsize / m - 2) * m + m = (bsize / m - 1) * m :=
    pred_mul_add (show 0 < bsize / m - 1 by omega) m
  have hstart : lateStart bsize base m + 2 * m = base + bsize / m * m := by
    rw [lateStart]
    omega
  obtain ⟨s₁, hs₁, hsession₁, hfirst, hprinting₁, hqueue₁⟩ :=
    exists_first (lateStart bsize base m) hnew hpos h2 (by omega)
  obtain ⟨s₂, hs₂, hsession₂, hbuffer₂, hprinting₂, hqueue₂⟩ :=
    hfirst.exists_dismissed (k := bsize / m - 2) hsession₁ (by omega) (by omega) (by omega)
  rw [← hbuffer₂] at hfirst
  obtain ⟨s₃, hs₃, hsession₃, hbuffer₃, hprinting₃, hqueue₃⟩ :=
    hfirst.exists_dismissed (k := bsize / m - 1) hsession₂ (by omega) (by omega) (by omega)
  rw [← hbuffer₃] at hfirst
  obtain ⟨queue, hqueue⟩ : ∃ queue, s₃.printerQueue = .newJobs :: .newJobs :: queue := by
    rw [hqueue₃, hqueue₂]
    rcases hqueue₁ with hnone | hone
    · exact ⟨_, by rw [hnone]; rfl⟩
    · exact ⟨_, by rw [hone]; rfl⟩
  obtain ⟨s₄, hs₄, hsession₄, hbuffer₄, hprinting₄, hqueue₄⟩ :=
    hsession₃.run_print (hprinting₃.trans (hprinting₂.trans hprinting₁)) hqueue
  obtain ⟨s₅, hs₅, -, hbuffer₅, -⟩ := hsession₄.run_print hprinting₄ hqueue₄
  refine ⟨overprinting bsize base m, s₅, ?_, ?_, ?_⟩
  · apply ofSession_of_received (lateStart bsize base m) (n := bsize / m) hpos hm (by omega) _
      (show _ = [0, bsize / m - 2, bsize / m - 1].map (silence (lateStart bsize base m) m) from rfl)
    simp only [List.mem_cons, List.not_mem_nil, or_false]
    omega
  · simp only [overprinting, run_append, bind_eq_ok_iff]
    exact ⟨s₄, ⟨s₃, ⟨s₂, ⟨s₁, hs₁, hs₂⟩, hs₃⟩, hs₄⟩, hs₅⟩
  · rw [hbuffer₅, hbuffer₄]
    exact hfirst.asksFor_dumped (by omega) hword

end Overprinted

/-! ## When every request fits -/

section Bound

variable {bsize m : Nat} {buffer : CircularBuffer UInt8}
  (hnew : CircularBuffer.new bsize = some buffer)

include hnew

theorem requestFits_of_maxPsize_lt (hm : AudioPacket.maxPsize < m)
    {actions : List (Action UInt8)} {s : Playback UInt8} (hsession : OfSession m actions)
    (hrun : run (init buffer) actions = .ok s) : RequestFits s.buffer := by
  have hnone := hsession.received_eq_nil hm
  apply requestFits_run (m := 0) hnew _ hrun ((Nat.div_zero bsize).trans_le (Nat.zero_le _))
  rw [hnone]
  exact fun packet hpacket => absurd hpacket List.not_mem_nil

/-- Every request of a session fits a datagram exactly when the buffer has room for at most 3121
packets, or for 6242 as long as nothing is printed, or the packets fit no datagram themselves. -/
theorem requests_fit_iff :
    ((∀ actions s, OfSession m actions → run (init buffer) actions = .ok s →
        RequestFits s.buffer) ↔
      AudioPacket.maxPsize < m ∨ bsize / m ≤ 3121) ∧
    ((∀ actions s, OfSession m actions → .print ∉ actions → run (init buffer) actions = .ok s →
        RequestFits s.buffer) ↔
      AudioPacket.maxPsize < m ∨ bsize / m ≤ 6242) := by
  have hmax : bsize ≤ ptrdiffMax := (new_fields hnew).2.1 ▸ (new_fields hnew).2.2
  have hpos (hroom : 0 < bsize / m) : 0 < m := by
    by_contra hzero
    rw [Nat.eq_zero_of_not_pos hzero, Nat.div_zero] at hroom
    exact Nat.lt_irrefl 0 hroom
  constructor
  · constructor
    · intro hfits
      by_contra hlarge
      obtain ⟨hm, hroom⟩ := not_or.mp hlarge
      obtain ⟨base, hword, hlong⟩ :=
        exists_base (bsize / m - 1) (not_lt.mp hm) hmax (by omega) (by omega)
      obtain ⟨actions, s, hsession, hrun, hasks⟩ :=
        exists_asksFor_whole hnew (hpos (by omega)) (not_lt.mp hm) (by omega) hword
      exact hlong s.buffer hasks (hfits actions s hsession hrun)
    · rintro (hm | hroom) actions s hsession hrun
      · exact requestFits_of_maxPsize_lt hnew hm hsession hrun
      · exact requestFits_run hnew hsession.psize_eq hrun hroom
  · constructor
    · intro hfits
      by_contra hlarge
      obtain ⟨hm, hroom⟩ := not_or.mp hlarge
      obtain ⟨base, hword, hlong⟩ :=
        exists_base ((bsize / m - 1) / 2) (not_lt.mp hm) hmax (by omega) (by omega)
      obtain ⟨actions, s, hsession, hprint, hrun, hasks⟩ :=
        exists_asksFor_half hnew (hpos (by omega)) (not_lt.mp hm) (by omega) hword
      exact hlong s.buffer hasks (hfits actions s hsession hprint hrun)
    · rintro (hm | hroom) actions s hsession hprint hrun
      · exact requestFits_of_maxPsize_lt hnew hm hsession hrun
      · exact requestFits_run_of_not_print hnew hsession.psize_eq hrun hprint hroom

end Bound

section Example

/-- A buffer of four bytes and packets of one. -/
theorem requests_fit_iff_four_bytes :
    ∃ buffer, CircularBuffer.new 4 = some buffer ∧
      ((∀ actions s, OfSession 1 actions → run (init buffer) actions = .ok s →
          RequestFits s.buffer) ↔
        AudioPacket.maxPsize < 1 ∨ 4 / 1 ≤ 3121) ∧
      ((∀ actions s, OfSession 1 actions → .print ∉ actions →
          run (init buffer) actions = .ok s → RequestFits s.buffer) ↔
        AudioPacket.maxPsize < 1 ∨ 4 / 1 ≤ 6242) :=
  ⟨_, rfl, requests_fit_iff rfl⟩

/-- The packets 0, 2, 4 and so on up to 65536, of one byte each. -/
def evenPackets : List (Action UInt8) :=
  silences 0 1 ((List.range 32769).map (2 * ·))

/-- In a buffer of the default size they leave a request longer than a datagram. -/
theorem request_longer_than_datagram :
    ∃ buffer, CircularBuffer.new 65536 = some buffer ∧ OfSession 1 evenPackets ∧
      .print ∉ evenPackets ∧ ∃ s, run (init buffer) evenPackets = .ok s ∧
        ∃ text, orderRetransmission 65536 oneStation s.buffer =
          .ok (some (exampleStation.ctrlAddr, text)) ∧ udpMaxDataSize < text.length := by
  obtain ⟨s, hrun, hlost⟩ := exists_halfLost 0 32768
    (show CircularBuffer.new 65536 = some _ from rfl) Nat.one_pos (by omega) (by omega)
  have hasks := hlost.asksFor (by omega) (by omega) (by omega)
  have hlen : s.buffer.windowLen < 65536 := by
    rw [hlost.windowLen_eq]
    omega
  obtain ⟨text, hlong, hsent⟩ := hasks.exists_text (by omega)
    fun id _ => one_le_length_toDecimal id
  refine ⟨_, rfl, ?_, print_not_mem_silences 0 1 _, s, hrun, text,
    hsent oneStation exampleStation rfl 65536 hlen, ?_⟩
  · apply ofSession_of_received 0 (n := 65537) Nat.one_pos (by decide) (by omega) _
      (received_silences 0 1 _)
    intro k hk
    obtain ⟨i, hi, rfl⟩ := List.mem_map.mp hk
    have hi := List.mem_range.mp hi
    omega
  · have hudp : udpMaxDataSize = 65535 := rfl
    omega

end Example

end Playback

end SikRadio.Receiver
