import SikRadio.Common.WindowWalk
import SikRadio.Receiver.LossBurst
import SikRadio.Receiver.Reached
import SikRadio.Receiver.RexmitSender

/-!
# The scan for missing packets

`order_retransmission` holds three locks while it walks from the tail to the
head, and it stops at the head only. It meets the head after one round for each
slot of the window, except in a buffer of a single packet whose head rests at
the end of the ring: there it walks on the spot for ever.
-/

namespace SikRadio.Receiver

open SikRadio.Common SikRadio.Common.CircularBuffer
open Foundations Foundations.CheckedRuns Foundations.RingOffsets Foundations.Word64

variable {α : Type} {b : CircularBuffer α}

/-- What the scan collects from slot `k` of the window on, when `n` slots follow. -/
def missingIds (b : CircularBuffer α) (k n : Nat) : List Nat :=
  ((List.range' k n).filter fun k => !b.occupied (b.windowSlot k)).map fun k =>
    wadd (b.windowSlot k) b.absTail

theorem missingIds_succ (b : CircularBuffer α) (k n : Nat) :
    missingIds b k (n + 1) =
      if b.occupied (b.windowSlot k) then missingIds b (k + 1) n
      else wadd (b.windowSlot k) b.absTail :: missingIds b (k + 1) n := by
  rw [missingIds, List.range'_succ, List.filter_cons]
  cases b.occupied (b.windowSlot k) with
  | true => rfl
  | false => rfl

/-- The scan from slot `k` on takes one round for each of the `n` slots that follow. -/
theorem missingFrom_windowSlot (h : Ring b) (hlt : b.head < b.roundedCap) {k n : Nat}
    (hkn : k + n = b.windowLen) (fuel : Nat) :
    missingFrom b fuel (b.windowSlot k) =
      if n < fuel then .ok (missingIds b k n) else .error .outOfFuel := by
  induction n generalizing k fuel with
  | zero =>
      have hhead : b.windowSlot k = b.head := by
        rw [← windowSlot_windowLen h hlt, ← hkn, Nat.add_zero]
      cases fuel with
      | zero => rfl
      | succ fuel => simp [missingFrom, hhead, missingIds]
  | succ n ih =>
      have hhead : b.windowSlot k ≠ b.head := windowSlot_ne_head h hlt (by omega)
      have hslot : b.windowSlot k < b.capacity :=
        (windowSlot_lt h k).trans_le (roundedCap_le b)
      have hpos := h.psize_pos
      have hcap := h.psize_le_roundedCap
      have hrest (fuel : Nat) := ih (k := k + 1) (by omega) fuel
      cases fuel with
      | zero => rfl
      | succ fuel =>
          rw [missingFrom, if_neg hhead, check, if_pos hslot, check, if_pos hpos.ne', check,
            if_pos (by omega), windowSlot_succ, hrest, missingIds_succ]
          simp only [Nat.add_lt_add_iff_right]
          by_cases hn : n < fuel
          · rw [if_pos hn, if_pos hn]
            cases b.occupied (b.windowSlot k) with
            | true => rfl
            | false => rfl
          · rw [if_neg hn, if_neg hn]
            rfl

/-- The whole scan. -/
theorem missingFrom_tail (h : Ring b) (hlt : b.head < b.roundedCap) (fuel : Nat) :
    missingFrom b fuel b.tail =
      if b.windowLen < fuel then .ok (missingIds b 0 b.windowLen) else .error .outOfFuel := by
  rw [← windowSlot_zero h]
  exact missingFrom_windowSlot h hlt (Nat.zero_add _) fuel

/-- With the head at the end of a ring of one slot the scan never ends. -/
theorem missingFrom_of_head_eq (h : Ring b) (hhead : b.head = b.roundedCap) (fuel : Nat) :
    missingFrom b fuel b.tail = .error .outOfFuel := by
  obtain ⟨-, htail, hone⟩ := h.head_lt.resolve_left (by omega)
  have hpos := h.psize_pos
  have hcap := h.psize_le
  induction fuel with
  | zero => rfl
  | succ fuel ih =>
      rw [htail] at ih ⊢
      rw [missingFrom, if_neg (by omega), check, if_pos (by omega), check, if_pos hpos.ne', check,
        if_pos (by omega), Nat.zero_add, hone, Nat.mod_self, ih]
      rfl

/-- The scan meets the head after `steps` rounds, fewer than `bound`, in which it passes every
slot of the window once and nothing else. -/
structure ScansWindow (bound : Nat) (b : CircularBuffer α) (steps : Nat) : Prop where
  lt : steps < bound
  ends : ∀ fuel, (∃ ids, missingFrom b fuel b.tail = .ok ids) ↔ steps < fuel
  once : (b.visited steps).Nodup
  visits : ∀ i, i ∈ b.visited steps ↔ ∃ o, b.psize ∣ o ∧ o < b.range ∧ b.slot o = i

theorem mem_map_windowSlot_iff (h : Ring b) {i : Nat} :
    i ∈ (List.range b.windowLen).map b.windowSlot ↔
      ∃ o, b.psize ∣ o ∧ o < b.range ∧ b.slot o = i := by
  rw [List.mem_map]
  constructor
  · rintro ⟨k, hk, rfl⟩
    exact ⟨k * b.psize, Nat.dvd_mul_left _ _, mul_psize_lt_range h (List.mem_range.mp hk), rfl⟩
  · rintro ⟨o, hdvd, ho, rfl⟩
    refine ⟨o / b.psize, List.mem_range.mpr ?_, ?_⟩
    · exact Nat.div_lt_div_of_lt_of_dvd h.dvd_range ho
    · rw [windowSlot, Nat.div_mul_cancel hdvd]

/-- Over a ring the scan is right exactly when the head is inside. -/
theorem scansWindow_iff (h : Ring b) :
    (∃ steps, ScansWindow (b.capacity / b.psize) b steps) ↔ b.head < b.roundedCap := by
  constructor
  · rintro ⟨steps, hscan⟩
    by_contra hout
    have hhead : b.head = b.roundedCap := le_antisymm h.head_le (not_lt.mp hout)
    obtain ⟨ids, hids⟩ := (hscan.ends (steps + 1)).mpr (Nat.lt_succ_self steps)
    rw [missingFrom_of_head_eq h hhead] at hids
    cases hids
  · intro hlt
    refine ⟨b.windowLen, windowLen_lt h hlt, fun fuel => ?_, ?_, fun i => ?_⟩
    · rw [missingFrom_tail h hlt]
      split
      case isTrue hfuel => exact ⟨fun _ => hfuel, fun _ => ⟨_, rfl⟩⟩
      case isFalse hfuel =>
        constructor
        · rintro ⟨ids, hids⟩
          cases hids
        · intro hlt
          exact absurd hlt hfuel
    · rw [visited_eq h]
      apply List.Nodup.map_on _ List.nodup_range
      intro k hk l hl heq
      exact windowSlot_injective h hlt (List.mem_range.mp hk).le (List.mem_range.mp hl).le heq
    · rw [visited_eq h]
      exact mem_map_windowSlot_iff h

/-! ## A session in order -/

namespace Playback

/-- The packets that were put and kept. -/
def keptPackets (log : List (Observation α)) : List (AudioPacket α) :=
  log.filterMap fun
    | .kept packet => some packet
    | _ => none

@[simp] theorem keptPackets_handled (log : List (Observation α)) (packet : AudioPacket α) :
    keptPackets (log ++ [.handled packet]) = keptPackets log := by
  simp [keptPackets]

@[simp] theorem keptPackets_kept (log : List (Observation α)) (packet : AudioPacket α) :
    keptPackets (log ++ [.kept packet]) = keptPackets log ++ [packet] := by
  simp [keptPackets]

@[simp] theorem keptPackets_written (log : List (Observation α)) (position byte0 absHead : Nat)
    (chunk : List α) :
    keptPackets (log ++ [.written position byte0 absHead chunk]) = keptPackets log := by
  simp [keptPackets]

/-- Exactly one packet is missing between the last two packets kept. -/
def EndsAfterLoss (m : Nat) (kept : List (AudioPacket α)) : Prop :=
  ∃ before packet next, kept = before ++ [packet, next] ∧
    next.firstByteNum = packet.firstByteNum + 2 * m

theorem endsAfterLoss_concat_iff {m : Nat} {before : List (AudioPacket α)}
    {packet next : AudioPacket α} :
    EndsAfterLoss m (before ++ [packet] ++ [next]) ↔
      next.firstByteNum = packet.firstByteNum + 2 * m := by
  constructor
  · rintro ⟨before', packet', next', hkept, hloss⟩
    rw [List.append_assoc, List.singleton_append] at hkept
    obtain ⟨-, hlast⟩ := List.append_inj' hkept rfl
    obtain ⟨rfl, hnext⟩ := List.cons.inj hlast
    obtain ⟨rfl, -⟩ := List.cons.inj hnext
    exact hloss
  · intro hloss
    exact ⟨before, packet, next, by simp, hloss⟩

theorem not_endsAfterLoss_singleton {m : Nat} {packet : AudioPacket α} :
    ¬EndsAfterLoss m [packet] := by
  rintro ⟨before, packet', next, hkept, -⟩
  have hlength := congrArg List.length hkept
  simp only [List.length_append, List.length_cons, List.length_nil] at hlength
  omega

/-- The packet in hand and the packets still to come. -/
def upcoming (s : Playback α) (rest : List (AudioPacket α)) : List (AudioPacket α) :=
  s.inHand.toList ++ rest

variable {m sid : Nat} {s s' : Playback α} {packet : AudioPacket α} {rest : List (AudioPacket α)}

/-- The buffer once a packet of the session was kept, `last` being the last one. -/
structure Keeping (m sid : Nat) (s : Playback α) (rest : List (AudioPacket α))
    (last : AudioPacket α) : Prop where
  ring : Ring s.buffer
  psize_eq : s.buffer.psize = m
  session_eq : s.curSession = sid
  absHead_eq : s.buffer.absHead = wadd last.firstByteNum m
  follow : ∀ next ∈ s.upcoming rest, Precedes m sid last next
  head_eq_iff : s.buffer.roundedCap = m →
    (s.buffer.head = m ↔ EndsAfterLoss m (keptPackets s.log))

/-- How far the session has got. -/
inductive SessionPhase (m sid : Nat) (s : Playback α) (rest : List (AudioPacket α)) : Prop where
  | idle (h : Unused s) (jobs : s.pendingJobs = 0) (kept : keptPackets s.log = [])
  | opened (packet : AudioPacket α) (hand : s.inHand = some packet) (ring : Ring s.buffer)
      (psize_eq : s.buffer.psize = m) (session_eq : s.curSession = sid)
      (tail_eq : s.buffer.tail = 0) (head_eq : s.buffer.head = 0)
      (absHead_eq : s.buffer.absHead = packet.firstByteNum) (jobs : s.pendingJobs = 0)
      (kept : keptPackets s.log = [])
  | keeping (before : List (AudioPacket α)) (last : AudioPacket α)
      (kept : keptPackets s.log = before ++ [last]) (h : Keeping m sid s rest last)

/-- The state of a session of packets of `m` bytes, with `rest` still to come. -/
structure Along (m sid : Nat) (s : Playback α) (rest : List (AudioPacket α)) : Prop where
  pos : 0 < m
  fits : m ≤ s.buffer.capacity
  ordered : (s.upcoming rest).Pairwise (Precedes m sid)
  belongs : ∀ packet ∈ s.upcoming rest, packet.sessionId = sid ∧ packet.psize = m
  phase : SessionPhase m sid s rest

/-- What is still to come gets shorter. -/
theorem Along.of_sublist {rest' : List (AudioPacket α)} (h : Along m sid s rest)
    (hcap : s'.buffer.capacity = s.buffer.capacity)
    (hsub : (s'.upcoming rest').Sublist (s.upcoming rest)) (hphase : SessionPhase m sid s' rest') :
    Along m sid s' rest' where
  pos := h.pos
  fits := hcap ▸ h.fits
  ordered := h.ordered.sublist hsub
  belongs next hnext := h.belongs next (hsub.subset hnext)
  phase := hphase

/-- A step that only takes packets away from those to come. -/
theorem Keeping.of_eq {rest' : List (AudioPacket α)} {last : AudioPacket α}
    (h : Keeping m sid s rest last) (hsub : (s'.upcoming rest').Sublist (s.upcoming rest))
    (hring : Ring s'.buffer) (hpsize : s'.buffer.psize = s.buffer.psize)
    (hround : s'.buffer.roundedCap = s.buffer.roundedCap)
    (hhead : s'.buffer.head = s.buffer.head) (habs : s'.buffer.absHead = s.buffer.absHead)
    (hsession : s'.curSession = s.curSession)
    (hkept : keptPackets s'.log = keptPackets s.log) : Keeping m sid s' rest' last where
  ring := hring
  psize_eq := hpsize.trans h.psize_eq
  session_eq := hsession.trans h.session_eq
  absHead_eq := habs.trans h.absHead_eq
  follow next hnext := h.follow next (hsub.subset hnext)
  head_eq_iff := by
    rw [hround, hhead, hkept]
    exact h.head_eq_iff

variable [Zero α]

omit [Zero α] in
theorem keptPackets_afterPut {buffer : CircularBuffer α} :
    keptPackets (s.afterPut packet buffer).log =
      if s.buffer.Dismisses packet then keptPackets s.log
      else keptPackets s.log ++ [packet] := by
  rw [afterPut_log]
  split
  · rfl
  · exact keptPackets_kept s.log packet

omit [Zero α] in
theorem upcoming_of_none (hhand : s.inHand = none) : s.upcoming rest = rest := by
  simp [upcoming, hhand]

omit [Zero α] in
theorem upcoming_of_some (hhand : s.inHand = some packet) :
    s.upcoming rest = packet :: rest := by
  simp [upcoming, hhand]

/-- In a ring of one slot a push that skips nothing leaves the head at index zero. -/
theorem head_pushed_of_one {b : CircularBuffer α} (h : Ring b) (hone : b.roundedCap = b.psize)
    (hdvd : b.psize ∣ b.headOffset packet) : (b.pushed packet).head = 0 := by
  rw [pushed_head, hone]
  apply Nat.mod_eq_zero_of_dvd
  exact Nat.dvd_add (Nat.dvd_add h.head_dvd hdvd) (Nat.dvd_refl _)

/-- A packet pushed without a restart is the last one kept. -/
theorem keeping_pushed (hring : Ring s.buffer) (hpsize : s.buffer.psize = m)
    (hsession : s.curSession = sid) (hdvd : s.buffer.psize ∣ s.buffer.headOffset packet)
    (hfollow : ∀ next ∈ rest, Precedes m sid packet next)
    (hends : s.buffer.roundedCap = m →
      ¬EndsAfterLoss m (keptPackets (s.afterPut packet (s.buffer.pushed packet)).log)) :
    Keeping m sid (s.afterPut packet (s.buffer.pushed packet)) rest packet where
  ring := by
    rw [afterPut_buffer]
    exact ring_pushed hring hdvd
  psize_eq := by rw [afterPut_buffer, pushed_psize, hpsize]
  session_eq := by rw [afterPut_curSession, hsession]
  absHead_eq := by rw [afterPut_buffer, pushed_absHead, hpsize]
  follow := by rwa [upcoming_of_none afterPut_inHand]
  head_eq_iff hone := by
    have hpos := hring.psize_pos
    rw [afterPut_buffer, roundedCap_pushed] at hone
    rw [afterPut_buffer, head_pushed_of_one hring (hone.trans hpsize.symm) hdvd]
    exact iff_of_false (by omega) (hends hone)

/-- The first packet of the session is put. -/
theorem keeping_of_opened (hring : Ring s.buffer) (hpsize : s.buffer.psize = m)
    (hsession : s.curSession = sid) (htail : s.buffer.tail = 0) (hhead : s.buffer.head = 0)
    (habs : s.buffer.absHead = packet.firstByteNum) (hkept : keptPackets s.log = [])
    (hfollow : ∀ next ∈ rest, Precedes m sid packet next)
    (hput : s.putPacket packet = .ok s') :
    keptPackets s'.log = [packet] ∧ Keeping m sid s' rest packet := by
  obtain ⟨buffer, htry, rfl⟩ := putPacket_eq_ok_iff.mp hput
  have hoffset : s.buffer.headOffset packet = 0 := by
    rw [headOffset_eq (le_of_eq habs), habs, Nat.sub_self]
  have hpos := hring.psize_pos
  have hcap := hring.psize_le_roundedCap
  have hrange : s.buffer.range = 0 := by simp [range, htail, hhead]
  have habsTail : s.buffer.absTail = packet.firstByteNum := by
    rw [absTail, hrange, habs, wsub_of_le (Nat.zero_le _) packet.firstByteNum_lt, Nat.sub_zero]
  have hstays : ¬s.buffer.Dismisses packet := by
    rintro (hbehind | ⟨-, hfar⟩)
    · omega
    · omega
  have hlog : keptPackets (s.afterPut packet buffer).log = [packet] := by
    rw [keptPackets_afterPut, if_neg hstays, hkept, List.nil_append]
  rcases tryPut_cases hring htry with
    ⟨hdismissed, -⟩ | ⟨-, -, -, hout, -, -⟩ | ⟨-, hdvd, -, -, -, rfl⟩ | ⟨-, hbehind, -⟩
  · exact absurd hdismissed hstays
  · omega
  · refine ⟨hlog, keeping_pushed hring hpsize hsession hdvd hfollow fun _ => ?_⟩
    rw [hlog]
    exact not_endsAfterLoss_singleton
  · omega

/-- A later packet of the session is put. -/
theorem Keeping.put {before : List (AudioPacket α)} {last : AudioPacket α}
    (h : Keeping m sid s rest last) (hkept : keptPackets s.log = before ++ [last])
    (hhand : s.inHand = some packet) (hfollow : ∀ next ∈ rest, Precedes m sid packet next)
    (hput : s.putPacket packet = .ok s') :
    ∃ before last, keptPackets s'.log = before ++ [last] ∧ Keeping m sid s' rest last := by
  obtain ⟨buffer, htry, rfl⟩ := putPacket_eq_ok_iff.mp hput
  have hring := h.ring
  have hpos := hring.psize_pos
  have hcap := hring.psize_le_roundedCap
  have hpsize := h.psize_eq
  have hnext : Precedes m sid last packet :=
    h.follow packet (by rw [upcoming_of_some hhand]; exact List.mem_cons_self)
  have hle := hnext.le
  have hfbn := packet.firstByteNum_lt
  have habs : s.buffer.absHead = last.firstByteNum + m := by
    rw [h.absHead_eq, wadd_of_lt (by omega)]
  have hoffset : s.buffer.headOffset packet = packet.firstByteNum - (last.firstByteNum + m) := by
    rw [headOffset_eq (by omega), habs]
  have hnone : (s.afterPut packet buffer).upcoming rest = rest := upcoming_of_none afterPut_inHand
  by_cases hdismissed : s.buffer.Dismisses packet
  · obtain rfl := eq_of_dismisses hring hdismissed htry
    have hlog : keptPackets (s.afterPut packet s.buffer).log = keptPackets s.log := by
      rw [keptPackets_afterPut, if_pos hdismissed]
    refine ⟨before, last, hlog.trans hkept, ?_⟩
    apply h.of_eq _ _ _ _ _ _ afterPut_curSession hlog
    · rw [hnone, upcoming_of_some hhand]
      exact List.sublist_cons_self packet rest
    all_goals rw [afterPut_buffer]
    exact hring
  · have hlog : keptPackets (s.afterPut packet buffer).log = before ++ [last] ++ [packet] := by
      rw [keptPackets_afterPut, if_neg hdismissed, hkept]
    refine ⟨before ++ [last], packet, hlog, ?_⟩
    rcases tryPut_cases hring htry with
      ⟨hdismissed', -⟩ | ⟨-, -, hnear, hout, -, rfl⟩ | ⟨-, hdvd, -, hin, -, rfl⟩ |
      ⟨-, hbehind, -⟩
    · exact absurd hdismissed' hdismissed
    · refine ⟨?_, ?_, afterPut_curSession.trans h.session_eq, ?_, ?_, fun _ => ?_⟩
      · rw [afterPut_buffer]
        exact ring_restarted hring hnear hout
      · rw [afterPut_buffer, restarted_psize, hpsize]
      · rw [afterPut_buffer, restarted_absHead, hpsize]
      · rwa [hnone]
      · rw [hlog, endsAfterLoss_concat_iff, afterPut_buffer, restarted_head]
        exact iff_of_true hpsize (by omega)
    · refine keeping_pushed hring hpsize h.session_eq hdvd hfollow fun hone => ?_
      rw [hlog, endsAfterLoss_concat_iff]
      omega
    · omega

/-- What the first packet of the session does to the checks. -/
theorem openSession_of_unused (h : Unused s) :
    s.openSession packet = s.restarted packet ∨
      s.openSession packet = { s with inHand := some packet } := by
  rcases openSession_cases s packet with
    ⟨hold, -⟩ | ⟨-, hbig, -⟩ | ⟨-, -, e⟩ | ⟨-, -, hlate, -⟩ | ⟨-, -, -, e⟩
  · exact absurd (h.session_eq ▸ hold) (Nat.not_lt_zero _)
  · exact absurd (h.psize_eq ▸ hbig) (Nat.not_lt_zero _)
  · exact .inl e
  · exact absurd (h.byte0_eq ▸ hlate) (Nat.not_lt_zero _)
  · exact .inr e

/-- What a packet of the current session does to the checks. -/
theorem openSession_of_same (hring : Ring s.buffer) (hid : packet.sessionId = s.curSession) :
    s.openSession packet = s ∨ s.openSession packet = { s with inHand := some packet } := by
  have hpsize := hring.psize_le
  rcases openSession_cases s packet with
    ⟨hold, -⟩ | ⟨-, hbig, -⟩ | ⟨hnew, -⟩ | ⟨-, -, -, e⟩ | ⟨-, -, -, e⟩
  · omega
  · omega
  · omega
  · exact .inl e
  · exact .inr e

/-- A packet of the session is received. -/
theorem Along.receive (h : Along m sid s (packet :: rest)) (hhand : s.inHand = none) :
    Along m sid { s.openSession packet with log := s.log ++ [.handled packet] } rest := by
  have hupcoming : s.upcoming (packet :: rest) = packet :: rest := upcoming_of_none hhand
  obtain ⟨hid, hpsize⟩ := h.belongs packet (by rw [hupcoming]; exact List.mem_cons_self)
  have hdrop (t : Playback α) (ht : t.inHand = none ∨ t.inHand = some packet) :
      (t.upcoming rest).Sublist (s.upcoming (packet :: rest)) := by
    rw [hupcoming]
    rcases ht with ht | ht
    · rw [upcoming_of_none ht]
      exact List.sublist_cons_self packet rest
    · rw [upcoming_of_some ht]
  cases h.phase with
  | idle hunused jobs kept =>
      rcases openSession_of_unused hunused with e | e <;> rw [e]
      · have hring : Ring (s.restarted packet).buffer :=
          ring_resetAt s.buffer (hpsize ▸ h.pos) (hpsize ▸ h.fits)
        refine h.of_sublist rfl (hdrop _ (.inr rfl)) (.opened packet rfl hring hpsize hid rfl rfl
          rfl jobs ?_)
        rw [keptPackets_handled, kept]
      · refine h.of_sublist rfl (hdrop _ (.inr rfl)) (.idle (hunused.of_eq rfl (.inl rfl)) jobs ?_)
        rw [keptPackets_handled, kept]
  | opened packet' hand => simp [hhand] at hand
  | keeping before last kept hkeeping =>
      have hlog : keptPackets (s.log ++ [.handled packet]) = keptPackets s.log :=
        keptPackets_handled s.log packet
      rcases openSession_of_same hkeeping.ring (hid.trans hkeeping.session_eq.symm) with e | e <;>
        rw [e]
      · have hsub := hdrop { s with log := s.log ++ [.handled packet] } (.inl hhand)
        exact h.of_sublist rfl hsub (.keeping before last (hlog.trans kept)
          (hkeeping.of_eq hsub hkeeping.ring rfl rfl rfl rfl rfl hlog))
      · have hsub := hdrop { s with inHand := some packet, log := s.log ++ [.handled packet] }
          (.inr rfl)
        exact h.of_sublist rfl hsub (.keeping before last (hlog.trans kept)
          (hkeeping.of_eq hsub hkeeping.ring rfl rfl rfl rfl rfl hlog))

/-- The packet in hand is put. -/
theorem Along.put (h : Along m sid s rest) (hhand : s.inHand = some packet)
    (hput : s.putPacket packet = .ok s') : Along m sid s' rest := by
  have hupcoming : s.upcoming rest = packet :: rest := upcoming_of_some hhand
  have hfollow : ∀ next ∈ rest, Precedes m sid packet next := by
    have hordered := h.ordered
    rw [hupcoming] at hordered
    exact (List.pairwise_cons.mp hordered).1
  have hsub : (s'.upcoming rest).Sublist (s.upcoming rest) := by
    obtain ⟨buffer, -, rfl⟩ := putPacket_eq_ok_iff.mp hput
    rw [hupcoming, upcoming_of_none afterPut_inHand]
    exact List.sublist_cons_self packet rest
  have hcapacity (hring : Ring s.buffer) : s'.buffer.capacity = s.buffer.capacity := by
    obtain ⟨buffer, htry, rfl⟩ := putPacket_eq_ok_iff.mp hput
    rw [afterPut_buffer]
    exact (tryPut_fields hring htry).2.1
  cases h.phase with
  | idle hunused => exact absurd hput hunused.not_put
  | opened packet' hand ring psize_eq session_eq tail_eq head_eq absHead_eq jobs kept =>
      obtain rfl : packet = packet' := Option.some.inj (hhand.symm.trans hand)
      obtain ⟨hlog, hkeeping⟩ := keeping_of_opened ring psize_eq session_eq tail_eq head_eq
        absHead_eq kept hfollow hput
      exact h.of_sublist (hcapacity ring) hsub (.keeping [] packet hlog hkeeping)
  | keeping before last kept hkeeping =>
      obtain ⟨before', last', hlog, hkeeping'⟩ := hkeeping.put kept hhand hfollow hput
      exact h.of_sublist (hcapacity hkeeping.ring) hsub (.keeping before' last' hlog hkeeping')

omit [Zero α] in
/-- A packet that is not received is as good as lost. -/
theorem Along.drop {lost : List (AudioPacket α)} (h : Along m sid s (lost ++ rest)) :
    Along m sid s rest := by
  have hsub : (s.upcoming rest).Sublist (s.upcoming (lost ++ rest)) :=
    (List.sublist_append_right lost rest).append_left _
  refine h.of_sublist rfl hsub ?_
  cases h.phase with
  | idle hunused jobs kept => exact .idle hunused jobs kept
  | opened packet hand ring psize_eq session_eq tail_eq head_eq absHead_eq jobs kept =>
      exact .opened packet hand ring psize_eq session_eq tail_eq head_eq absHead_eq jobs kept
  | keeping before last kept hkeeping =>
      exact .keeping before last kept
        (hkeeping.of_eq hsub hkeeping.ring rfl rfl rfl rfl rfl rfl)

omit [Zero α] in
/-- The printer takes an event from its queue. -/
theorem Along.popEvent (h : Along m sid s rest) {event : EventType} {queue : List EventType}
    (hprinting : s.printing = false) (hqueue : s.printerQueue = event :: queue) :
    Along m sid { s with printerQueue := queue, printing := event = .newJobs } rest := by
  have hjobs := pendingJobs_popEvent hprinting hqueue
  refine h.of_sublist rfl (List.Sublist.refl _) ?_
  cases h.phase with
  | idle hunused jobs kept => exact .idle (hunused.of_eq rfl (.inl rfl)) (hjobs.trans jobs) kept
  | opened packet hand ring psize_eq session_eq tail_eq head_eq absHead_eq jobs kept =>
      exact .opened packet hand ring psize_eq session_eq tail_eq head_eq absHead_eq
        (hjobs.trans jobs) kept
  | keeping before last kept hkeeping =>
      exact .keeping before last kept
        (hkeeping.of_eq (List.Sublist.refl _) hkeeping.ring rfl rfl rfl rfl rfl rfl)

/-- A job is handled. -/
theorem Along.print (h : Along m sid s rest) (hprinting : s.printing = true)
    (hprint : s.handlePrint = .ok s') : Along m sid s' rest := by
  have hjobs : s.pendingJobs ≠ 0 := by
    simp [pendingJobs, hprinting]
  cases h.phase with
  | idle hunused jobs => exact absurd jobs hjobs
  | opened packet hand ring psize_eq session_eq tail_eq head_eq absHead_eq jobs =>
      exact absurd jobs hjobs
  | keeping before last kept hkeeping =>
      have hring := hkeeping.ring
      obtain rfl := Except.ok.inj ((handlePrint_eq hring).symm.trans hprint)
      have hlog : keptPackets s.printed.log = keptPackets s.log := by
        rw [printed_log, keptPackets_written]
      have hsub : (s.printed.upcoming rest).Sublist (s.upcoming rest) := List.Sublist.refl _
      refine h.of_sublist ?_ hsub (.keeping before last (hlog.trans kept)
        (hkeeping.of_eq hsub (ring_dumped hring) ?_ ?_ ?_ ?_ rfl hlog))
      · rw [printed_buffer, dumped_capacity]
      · rw [printed_buffer, dumped_psize]
      · rw [printed_buffer, roundedCap_dumped]
      · rw [printed_buffer, dumped_head]
      · rw [printed_buffer, dumped_absHead]

/-- Every step of the session, with what it leaves to come. -/
theorem Along.step {action : Action α} (h : Along m sid s (received [action] ++ rest))
    (hstation : action ≠ .changeStation) (hs : s.step action = .ok s') :
    Along m sid s' rest := by
  rcases step_cases hs with hsame | ⟨packet, rfl, hhand, rfl⟩ | ⟨packet, rfl, hhand, hput⟩ |
    ⟨rfl, -⟩ | ⟨event, queue, rfl, hprinting, hqueue, rfl⟩ | ⟨rfl, hprinting, hprint⟩
  · rw [hsame]
    exact h.drop
  · exact h.receive hhand
  · exact h.put hhand hput
  · exact absurd rfl hstation
  · exact h.popEvent hprinting hqueue
  · exact h.print hprinting hprint

/-- The whole run. -/
theorem Along.run {actions : List (Action α)} (h : Along m sid s (received actions))
    (hstation : .changeStation ∉ actions) (hrun : Playback.run s actions = .ok s') :
    Along m sid s' [] := by
  induction actions generalizing s with
  | nil =>
      obtain rfl := Except.ok.inj hrun
      exact h
  | cons action actions ih =>
      obtain ⟨hfirst, hrest⟩ := not_or.mp (List.mem_cons.not.mp hstation)
      rw [Playback.run, List.foldlM_cons] at hrun
      obtain ⟨s₁, hs, hrun⟩ := bind_eq_ok_iff.mp hrun
      have hreceived : received (action :: actions) = received [action] ++ received actions := by
        rw [← List.singleton_append, received, List.filterMap_append]
        rfl
      rw [hreceived] at h
      exact ih (h.step (Ne.symm hfirst) hs) hrest hrun

/-- No packet of the session has arrived. -/
theorem along_init {bsize first : Nat} {buffer : CircularBuffer α} (hm : 1 ≤ m) (hfit : m ≤ bsize)
    (hnew : CircularBuffer.new bsize = some buffer) {sent arriving : List (AudioPacket α)}
    (hsent : IsStream first m sid sent) (hloss : arriving.Sublist sent) :
    Along m sid (init buffer) arriving := by
  obtain ⟨hpsize, hcap, -⟩ := new_fields hnew
  refine ⟨hm, hcap.symm ▸ hfit, hsent.pairwise.sublist hloss, fun packet hpacket => ?_, ?_⟩
  · obtain ⟨k, hk, rfl⟩ := List.mem_iff_getElem.mp (hloss.subset hpacket)
    obtain ⟨hsession, hsize, -⟩ := hsent k hk
    exact ⟨hsession, hsize⟩
  · rcases (receiving_init hnew).ring with hunused | hring
    · exact .idle hunused rfl rfl
    · exact absurd hpsize hring.psize_pos.ne'

omit [Zero α] in
/-- Before the first packet the scan has nothing to do. -/
theorem scansWindow_of_unused (h : Unused s) {bound : Nat} (hbound : 0 < bound) :
    ScansWindow bound s.buffer 0 where
  lt := hbound
  ends fuel := by
    cases fuel with
    | zero => simp [missingFrom]
    | succ fuel => simp [missingFrom, h.tail_eq]
  once := List.nodup_nil
  visits i := by
    have hrange : s.buffer.range = 0 := by simp [range, h.tail_eq]
    simp [visited, hrange]

omit [Zero α] in
/-- In a ring of one slot the head is inside unless the last packet followed a single lost one. -/
theorem Keeping.head_lt_iff {last : AudioPacket α} (h : Keeping m sid s rest last)
    (hround : s.buffer.roundedCap = m) :
    s.buffer.head < s.buffer.roundedCap ↔ ¬EndsAfterLoss m (keptPackets s.log) := by
  have hhead := h.ring.head_le
  rw [hround] at hhead ⊢
  rw [← h.head_eq_iff hround]
  omega

/-- In every state that a session in order reaches, with any losses and any prints, the scan ends
in time exactly when two packets fit or the last packet kept did not follow a single lost one. -/
theorem scan_ends_iff {bsize first : Nat} (hm : 1 ≤ m) (hfit : m ≤ bsize)
    {buffer : CircularBuffer α} (hnew : CircularBuffer.new bsize = some buffer)
    {sent : List (AudioPacket α)} (hsent : IsStream first m sid sent)
    {actions : List (Action α)} (hloss : (received actions).Sublist sent)
    (hstation : .changeStation ∉ actions) (hrun : run (init buffer) actions = .ok s) :
    (∃ steps, ScansWindow (bsize / m) s.buffer steps) ↔
      2 ≤ bsize / m ∨ ¬EndsAfterLoss m (keptPackets s.log) := by
  have halong := (along_init hm hfit hnew hsent hloss).run hstation hrun
  have hcap : s.buffer.capacity = bsize := (reached_run hnew hrun).2
  have hnone : ¬EndsAfterLoss m ([] : List (AudioPacket α)) := by
    rintro ⟨before, packet, next, hkept, -⟩
    simp at hkept
  cases halong.phase with
  | idle hunused jobs kept =>
      have hbound : 0 < bsize / m := Nat.div_pos hfit hm
      rw [kept]
      exact iff_of_true ⟨0, scansWindow_of_unused hunused hbound⟩ (.inr hnone)
  | opened packet hand ring psize_eq session_eq tail_eq head_eq absHead_eq jobs kept =>
      have hscan := scansWindow_iff ring
      rw [hcap, psize_eq] at hscan
      rw [hscan, kept, head_eq]
      exact iff_of_true (lt_of_le_of_lt (Nat.zero_le _) ring.tail_lt) (.inr hnone)
  | keeping before last kept hkeeping =>
      have hring := hkeeping.ring
      have hpsize := hkeeping.psize_eq
      have hscan := scansWindow_iff hring
      rw [hcap, hpsize] at hscan
      rw [hscan]
      rcases Nat.lt_or_ge (bsize / m) 2 with hone | htwo
      · have hdiv : bsize / m = 1 := by
          have := Nat.div_pos hfit hm
          omega
        have hround : s.buffer.roundedCap = m := by
          rw [roundedCap, hcap, hpsize, hdiv, Nat.one_mul]
        rw [hkeeping.head_lt_iff hround, or_iff_right (Nat.not_le.mpr hone)]
      · have hfits : 2 * s.buffer.psize ≤ s.buffer.capacity := by
          rw [hpsize, hcap]
          exact (Nat.le_div_iff_mul_le hm).mp htwo
        exact iff_of_true (hring.head_lt_of_two hfits) (.inl htwo)

section Example

/-- Two packets of a session, the second with the given number. -/
def oneByteSession (next : Nat) : List (Action UInt8) :=
  arrival (AudioPacket.oneByte 7 0) ++ arrival (AudioPacket.oneByte 7 next)

theorem changeStation_not_mem_oneByteSession (next : Nat) :
    .changeStation ∉ oneByteSession next := by
  simp [oneByteSession, arrival]

/-- Consecutive packets in a buffer of one byte. -/
theorem scan_ends_iff_consecutive :
    ∃ buffer, CircularBuffer.new 1 = some buffer ∧
      ∃ s, run (init buffer) (oneByteSession 1) = .ok s ∧
        ((∃ steps, ScansWindow (1 / 1) s.buffer steps) ↔
          2 ≤ 1 / 1 ∨ ¬EndsAfterLoss 1 (keptPackets s.log)) := by
  have hloss : (received (oneByteSession 1)).Sublist fourPackets := List.take_sublist 2 fourPackets
  refine ⟨_, rfl, exists_ok_and (by decide) fun s hrun => ?_⟩
  exact scan_ends_iff le_rfl le_rfl rfl isStream_fourPackets hloss
    (changeStation_not_mem_oneByteSession 1) hrun

/-- The packet after a single lost one leaves the head at the end of that buffer, and the scan
walks on the spot. -/
theorem scan_never_ends :
    ∃ buffer, CircularBuffer.new 1 = some buffer ∧ IsStream 0 1 7 fourPackets ∧
      (received (oneByteSession 2)).Sublist fourPackets ∧
      .changeStation ∉ oneByteSession 2 ∧
      ∃ s, run (init buffer) (oneByteSession 2) = .ok s ∧
        (∀ fuel, missingFrom s.buffer fuel s.buffer.tail = .error .outOfFuel) ∧
        ¬∃ steps, ScansWindow (1 / 1) s.buffer steps := by
  have hloss : (received (oneByteSession 2)).Sublist fourPackets :=
    ((List.eraseIdx_sublist (fourPackets.take 3) 1).trans (List.take_sublist 3 fourPackets))
  refine ⟨_, rfl, isStream_fourPackets, hloss, changeStation_not_mem_oneByteSession 2,
    exists_ok_and (by decide) fun s hrun => ?_⟩
  have hfields := eq_of_toOption_map (v := (1, 1, 1, false))
    (fun s => (s.buffer.psize, s.buffer.capacity, s.buffer.head, s.inHand.isSome)) (by decide) hrun
  obtain ⟨hpsize, hcap, hhead, hhand⟩ : s.buffer.psize = 1 ∧ s.buffer.capacity = 1 ∧
      s.buffer.head = 1 ∧ s.inHand.isSome = false := by simpa using hfields
  have hring : Ring s.buffer := by
    cases (reached_run (show CircularBuffer.new 1 = some _ from rfl) hrun).1 with
    | unused h => exact absurd h.psize_eq (by rw [hpsize]; decide)
    | ring h => exact h
    | stuck h =>
        obtain ⟨_, _, hsome, -⟩ := h
        simp [hsome] at hhand
  have hround : s.buffer.roundedCap = 1 := by rw [roundedCap, hcap, hpsize]
  have hscan := scansWindow_iff hring
  rw [hcap, hpsize, hhead, hround] at hscan
  refine ⟨missingFrom_of_head_eq hring (hhead.trans hround.symm), ?_⟩
  rw [hscan]
  exact Nat.lt_irrefl 1

end Example

end Playback

end SikRadio.Receiver
