import Mathlib.Data.List.TakeWhile
import SikRadio.Common.RexmitGrammar
import SikRadio.Sender.Controller

/-!
# What the controller does with a datagram

The protocol knows two requests. The controller tells them apart by two
constructors that read the datagram as a C string, so that what they see ends
before the first null character.

## Implementation notes

`ClassifiedExactly` speaks of the whole datagram and `Readable` says for which
datagrams the controller treats it so. A datagram of one newline is as bad as an
empty one.
-/

namespace SikRadio.Sender

open SikRadio.Common Foundations.CheckedRuns

/-! ## Grammar -/

/-- No text is a request of both kinds. -/
theorem not_isRexmit_of_isLookup {text : List Char} (h : IsLookup text) (packetIds : List Nat) :
    ¬IsRexmit text packetIds := by
  rintro ⟨tokens, hnumbers, hline⟩
  have hlookup : trimmed text = lookupRequestPrefix := (trimmed_eq_iff (by decide)).mpr h
  rw [trimmed_rexmitLine hnumbers hline] at hlookup
  have hhead := congrArg List.head? hlookup
  revert hhead
  simp [rexmitLine, RexmitRequest.rexmitPrefix, lookupRequestPrefix]

/-- The null character belongs to no request. -/
theorem null_not_mem_of_isLine {line text : List Char} (hline : Char.ofNat 0 ∉ line)
    (h : IsLine line text) : Char.ofNat 0 ∉ text := by
  rcases h with rfl | rfl
  · exact hline
  · rw [List.mem_append]
    exact not_or.mpr ⟨hline, by decide⟩

theorem null_not_mem_of_isLookup {text : List Char} (h : IsLookup text) : Char.ofNat 0 ∉ text :=
  null_not_mem_of_isLine (by decide) h

theorem null_not_mem_of_isRexmit {text : List Char} {packetIds : List Nat}
    (h : IsRexmit text packetIds) : Char.ofNat 0 ∉ text := by
  obtain ⟨tokens, hnumbers, hline⟩ := h
  apply null_not_mem_of_isLine _ hline
  have htokens : Char.ofNat 0 ∉ [packetSeparator].intercalate tokens := by
    apply Foundations.SeparatedText.not_mem_intercalate (by decide)
    intro token htoken
    obtain ⟨x, hnumber⟩ := exists_isNumber_of_mem hnumbers htoken
    exact hnumber.not_mem (by decide)
  rw [rexmitLine, List.mem_append, List.mem_cons]
  exact not_or.mpr ⟨by decide, not_or.mpr ⟨by decide, htokens⟩⟩

namespace Controller

variable {s : Controller} {srcAddr : SockAddr} {datagram : List Char}

/-- Without a null character the constructors get the whole datagram. -/
theorem receivedString_eq (hlen : datagram.length ≤ udpMaxDataSize)
    (h : Char.ofNat 0 ∉ datagram) : receivedString datagram = datagram := by
  rw [receivedString, List.take_of_length_le hlen, List.takeWhile_eq_self_iff]
  intro c hc
  exact decide_eq_true (fun heq => h (heq ▸ hc))

/-! ## Cases of the code -/

theorem handleDatagram_of_isLookup (h : IsLookup (receivedString datagram)) :
    s.handleDatagram srcAddr datagram = .ok (s.handleLookupRequest srcAddr) := by
  unfold handleDatagram
  exact if_pos (isLookupRequest_iff.mpr h)

theorem handleDatagram_of_isRexmit {packetIds : List Nat}
    (h : IsRexmit (receivedString datagram) packetIds) :
    s.handleDatagram srcAddr datagram =
      .ok (s.handleRexmitRequest { receiverAddr := srcAddr, packetIds }) := by
  have hlookup : ¬isLookupRequest (receivedString datagram) = true := fun hlookup =>
    not_isRexmit_of_isLookup (isLookupRequest_iff.mp hlookup) packetIds h
  unfold handleDatagram
  simp only [if_neg hlookup, RexmitRequest.ofString_of_isRexmit h]
  rfl

/-- A text that is no request is rejected by exceptions, unless it is empty. -/
theorem handleDatagram_of_neither (hempty : trimmed (receivedString datagram) ≠ [])
    (hlookup : ¬IsLookup (receivedString datagram))
    (hrexmit : ∀ packetIds, ¬IsRexmit (receivedString datagram) packetIds) :
    s.handleDatagram srcAddr datagram = .ok s := by
  have hno : ¬isLookupRequest (receivedString datagram) = true :=
    fun h => hlookup (isLookupRequest_iff.mp h)
  unfold handleDatagram
  simp only [if_neg hno]
  cases hparse : RexmitRequest.ofString srcAddr (receivedString datagram) with
  | error fault => exact absurd (RexmitRequest.ofString_eq_error_iff.mp hparse).1 hempty
  | ok parsed =>
      cases parsed with
      | none => rfl
      | some req => exact absurd (RexmitRequest.isRexmit_of_ofString hparse) (hrexmit _)

/-- The last character of an empty text does not exist. -/
theorem handleDatagram_of_empty (h : trimmed (receivedString datagram) = []) :
    s.handleDatagram srcAddr datagram = .error .outOfBounds := by
  have hno : ¬isLookupRequest (receivedString datagram) = true := by
    rw [isLookupRequest, h]
    decide
  have hfault : RexmitRequest.ofString srcAddr (receivedString datagram) = .error .outOfBounds :=
    RexmitRequest.ofString_eq_error_iff.mpr ⟨h, rfl⟩
  unfold handleDatagram
  simp only [if_neg hno, hfault]
  rfl

/-! ## Classification -/

/-- The three things the controller does with a datagram, by what the whole datagram is. -/
structure ClassifiedExactly (s : Controller) (srcAddr : SockAddr) (datagram : List Char) :
    Prop where
  lookup : IsLookup datagram → s.handleDatagram srcAddr datagram =
    .ok { s with sent := s.sent ++ [(srcAddr, s.lookupReply.toStr)] }
  rexmit : ∀ packetIds, IsRexmit datagram packetIds → s.handleDatagram srcAddr datagram =
    .ok { s with
          rexmitJobQueue := s.rexmitJobQueue ++ [{ receiverAddr := srcAddr, packetIds }]
          retransmitterEvent := s.retransmitterEvent ++ [.newJobs] }
  other : ¬IsLookup datagram → (∀ packetIds, ¬IsRexmit datagram packetIds) →
    s.handleDatagram srcAddr datagram = .ok s
  exclusive : IsLookup datagram → ∀ packetIds, ¬IsRexmit datagram packetIds

/-- The C string of the datagram is not empty, and is no request that the datagram is not. -/
structure Readable (datagram : List Char) : Prop where
  nonempty : trimmed (receivedString datagram) ≠ []
  noHidden : Char.ofNat 0 ∈ datagram → ¬IsLookup (receivedString datagram) ∧
    ∀ packetIds, ¬IsRexmit (receivedString datagram) packetIds

theorem not_isLookup_of_null (h : Char.ofNat 0 ∈ datagram) : ¬IsLookup datagram :=
  fun hlookup => null_not_mem_of_isLookup hlookup h

theorem not_isRexmit_of_null (h : Char.ofNat 0 ∈ datagram) (packetIds : List Nat) :
    ¬IsRexmit datagram packetIds :=
  fun hrexmit => null_not_mem_of_isRexmit hrexmit h

theorem classifiedExactly_of_readable (hlen : datagram.length ≤ udpMaxDataSize)
    (h : Readable datagram) : ClassifiedExactly s srcAddr datagram where
  lookup := by
    intro hlookup
    have hwhole := receivedString_eq hlen (null_not_mem_of_isLookup hlookup)
    exact handleDatagram_of_isLookup (hwhole.symm ▸ hlookup)
  rexmit := by
    intro packetIds hrexmit
    have hwhole := receivedString_eq hlen (null_not_mem_of_isRexmit hrexmit)
    exact handleDatagram_of_isRexmit (hwhole.symm ▸ hrexmit)
  other := by
    intro hlookup hrexmit
    by_cases hnull : Char.ofNat 0 ∈ datagram
    · exact handleDatagram_of_neither h.nonempty (h.noHidden hnull).1 (h.noHidden hnull).2
    · have hwhole := receivedString_eq hlen hnull
      have hnonempty := h.nonempty
      apply handleDatagram_of_neither hnonempty
      · rwa [hwhole]
      · rwa [hwhole]
  exclusive := fun hlookup => not_isRexmit_of_isLookup hlookup

theorem readable_of_classifiedExactly (h : ClassifiedExactly s srcAddr datagram) :
    Readable datagram := by
  have hok : ∃ s', s.handleDatagram srcAddr datagram = .ok s' := by
    by_cases hlookup : IsLookup datagram
    · exact ⟨_, h.lookup hlookup⟩
    · by_cases hrexmit : ∃ packetIds, IsRexmit datagram packetIds
      · obtain ⟨packetIds, hrexmit⟩ := hrexmit
        exact ⟨_, h.rexmit packetIds hrexmit⟩
      · exact ⟨s, h.other hlookup (not_exists.mp hrexmit)⟩
  refine ⟨?_, ?_⟩
  · intro hempty
    obtain ⟨s', hs'⟩ := hok
    rw [handleDatagram_of_empty hempty] at hs'
    cases hs'
  · intro hnull
    have hunchanged := h.other (not_isLookup_of_null hnull) (not_isRexmit_of_null hnull)
    constructor
    · intro hlookup
      have hanswered := Except.ok.inj
        ((handleDatagram_of_isLookup hlookup).symm.trans hunchanged)
      have hsent := congrArg (fun state => state.sent.length) hanswered
      simp [handleLookupRequest] at hsent
    · intro packetIds hrexmit
      have hqueued := Except.ok.inj
        ((handleDatagram_of_isRexmit hrexmit).symm.trans hunchanged)
      have hjobs := congrArg (fun state => state.rexmitJobQueue.length) hqueued
      simp [handleRexmitRequest] at hjobs

/-- The controller classifies exactly the readable datagrams exactly. -/
theorem classifiedExactly_iff (s : Controller) (srcAddr : SockAddr) {datagram : List Char}
    (hlen : datagram.length ≤ udpMaxDataSize) :
    ClassifiedExactly s srcAddr datagram ↔ Readable datagram :=
  ⟨readable_of_classifiedExactly, classifiedExactly_of_readable hlen⟩

/-- A controller that has done nothing yet. -/
def fresh (lookupReply : LookupReply) : Controller :=
  { lookupReply, rexmitJobQueue := [], retransmitterEvent := [], sent := [] }

/-- The station of the examples. -/
def radioPlus : LookupReply :=
  { mcastAddr := ['2', '3', '9', '.', '1', '.', '2', '.', '3']
    dataPort := 29629
    name := ['R', '+'] }

/-- A lookup with its newline. -/
theorem classifiedExactly_lookup :
    (lookupRequestPrefix ++ ['\n']).length ≤ udpMaxDataSize ∧
      ClassifiedExactly (fresh radioPlus) ⟨1, 2⟩ (lookupRequestPrefix ++ ['\n']) :=
  ⟨by decide, (classifiedExactly_iff _ _ (by decide)).mpr
    ⟨by decide, fun hnull => absurd hnull (by decide)⟩⟩

/-- The empty datagram faults, and what follows a null character is not looked at. -/
theorem not_classifiedExactly :
    ¬ClassifiedExactly (fresh radioPlus) ⟨1, 2⟩ [] ∧
      ¬ClassifiedExactly (fresh radioPlus) ⟨1, 2⟩ (lookupRequestPrefix ++ [Char.ofNat 0, '!']) := by
  constructor
  · intro h
    exact (readable_of_classifiedExactly h).nonempty (by decide)
  · intro h
    refine ((readable_of_classifiedExactly h).noHidden (by decide)).1 ?_
    exact isLookupRequest_iff.mp (by decide)

end Controller

end SikRadio.Sender
