import SikRadio.Common.AudioPacket
import SikRadio.Foundations.ByteOrder

/-!
# The audio packet codec

The sending constructor writes both words most significant byte first, and the
receiving constructor reads back what it wrote. A byte string that holds a whole
header is in turn recovered from the fields that are read from it.

## Implementation notes

`htonll` is two 32-bit swaps. Each of them reverses four bytes, so the whole
reverses eight; everything else is about the number that reversed bytes stand for.
-/

namespace SikRadio.Common

open Foundations.ByteOrder

theorem loadWord_eq_value (bytes : List UInt8) : loadWord bytes = value bytes := rfl

theorem storeWord_eq_littleEndian (x : Nat) : storeWord x = littleEndian 8 x := by
  simp [storeWord, littleEndian, List.range, List.range.loop, Nat.div_div_eq_div_mul]

/-- `htonl` reverses the four lowest bytes and drops the others. -/
theorem htonl_value {low : List UInt8} (h : low.length = 4) (high : Nat) :
    htonl (value low + 256 ^ 4 * high) = value low.reverse := by
  match low, h with
  | [a, b, c, d], _ =>
      have ha := a.toNat_lt
      have hb := b.toNat_lt
      have hc := c.toNat_lt
      have hd := d.toNat_lt
      simp only [List.reverse_cons, List.reverse_nil, List.nil_append, List.cons_append,
        value_cons, value_nil]
      generalize hx : a.toNat + 256 * (b.toNat + 256 * (c.toNat + 256 * (d.toNat + 256 * 0))) +
        256 ^ 4 * high = x
      have hfirst : x % 256 = a.toNat := by omega
      have hsecond : x / 2 ^ 8 % 256 = b.toNat := by omega
      have hthird : x / 2 ^ 16 % 256 = c.toNat := by omega
      have hfourth : x / 2 ^ 24 % 256 = d.toNat := by omega
      rw [htonl, hfirst, hsecond, hthird, hfourth]
      omega

/-- `htonll` reverses eight bytes. -/
theorem htonll_value {bytes : List UInt8} (h : bytes.length = 8) :
    htonll (value bytes) = value bytes.reverse := by
  have hlow : (bytes.take 4).length = 4 := by rw [List.length_take, h]; rfl
  have hhigh : (bytes.drop 4).length = 4 := by rw [List.length_drop, h]
  have hsplit : value bytes = value (bytes.take 4) + 256 ^ 4 * value (bytes.drop 4) := by
    conv_lhs => rw [← List.take_append_drop 4 bytes, value_append, hlow]
  have hbound : value (bytes.take 4) < 256 ^ 4 := by
    simpa [hlow] using value_lt (bytes.take 4)
  have hshift : value bytes >>> 32 = value (bytes.drop 4) + 256 ^ 4 * 0 := by
    rw [Nat.shiftRight_eq_div_pow, hsplit]
    omega
  have hswap : value (bytes.drop 4).reverse < 2 ^ 32 := by
    simpa [hhigh] using value_lt (bytes.drop 4).reverse
  calc htonll (value bytes)
      = (value (bytes.take 4).reverse <<< 32) ||| value (bytes.drop 4).reverse := by
        rw [htonll, hshift, htonl_value hhigh, hsplit, htonl_value hlow]
    _ = value (bytes.drop 4).reverse + 256 ^ 4 * value (bytes.take 4).reverse := by
        rw [← Nat.shiftLeft_add_eq_or_of_lt hswap, Nat.shiftLeft_eq]
        ring
    _ = value ((bytes.drop 4).reverse ++ (bytes.take 4).reverse) := by
        rw [value_append, List.length_reverse, hhigh]
    _ = value bytes.reverse := by
        rw [← List.reverse_append, List.take_append_drop]

theorem ntohll_eq_htonll (x : Nat) : ntohll x = htonll x := rfl

/-- A stored word in network order has its most significant byte first. -/
theorem storeWord_htonll {x : Nat} (h : x < 2 ^ 64) : storeWord (htonll x) = bigEndian 8 x := by
  have hx : value (littleEndian 8 x) = x := value_littleEndian h
  calc storeWord (htonll x)
      = littleEndian 8 (htonll (value (littleEndian 8 x))) := by
        rw [hx, storeWord_eq_littleEndian]
    _ = littleEndian 8 (value (littleEndian 8 x).reverse) := by
        rw [htonll_value (length_littleEndian 8 x)]
    _ = bigEndian 8 x := littleEndian_value (length_bigEndian 8 x)

/-- What is read from eight bytes in network order. -/
theorem ntohll_loadWord {bytes : List UInt8} (h : bytes.length = 8) :
    ntohll (loadWord bytes) = value bytes.reverse := by
  rw [loadWord_eq_value, ntohll_eq_htonll, htonll_value h]

theorem ntohll_loadWord_bigEndian {x : Nat} (h : x < 2 ^ 64) :
    ntohll (loadWord (bigEndian 8 x)) = x := by
  rw [ntohll_loadWord (length_bigEndian 8 x), bigEndian, List.reverse_reverse]
  exact value_littleEndian h

/-- Eight bytes are stored again from the word that is read from them. -/
theorem storeWord_htonll_ntohll_loadWord {bytes : List UInt8} (h : bytes.length = 8) :
    storeWord (htonll (ntohll (loadWord bytes))) = bytes := by
  have hreverse : bytes.reverse.length = 8 := by rw [List.length_reverse, h]
  rw [ntohll_loadWord h, htonll_value hreverse, List.reverse_reverse, storeWord_eq_littleEndian,
    littleEndian_value h]

namespace AudioPacket

theorem bytes_eq (packet : AudioPacket UInt8) :
    packet.bytes =
      bigEndian 8 packet.sessionId ++ bigEndian 8 packet.firstByteNum ++ packet.audioData := by
  rw [bytes, storeWord_htonll packet.sessionId_lt, storeWord_htonll packet.firstByteNum_lt]

theorem ofWords_fields (packet : AudioPacket UInt8) :
    ofWords packet.sessionId packet.firstByteNum packet.audioData = packet := by
  obtain ⟨sessionId, firstByteNum, audioData, hsession, hfirst⟩ := packet
  simp only [ofWords, Nat.mod_eq_of_lt hsession, Nat.mod_eq_of_lt hfirst]

/-- The receiving constructor undoes the sending one. -/
theorem ofBuffer_bytes (packet : AudioPacket UInt8) :
    ofBuffer packet.bytes packet.psize = packet := by
  obtain ⟨sessionId, firstByteNum, audioData, hsession, hfirst⟩ := packet
  have hlen : (bigEndian 8 sessionId ++ bigEndian 8 firstByteNum).length = 16 := by simp
  have htake : ((bigEndian 8 sessionId ++ bigEndian 8 firstByteNum ++ audioData).take 8) =
      bigEndian 8 sessionId := by
    rw [List.append_assoc, List.take_left' (length_bigEndian 8 sessionId)]
  have hmiddle :
      ((bigEndian 8 sessionId ++ bigEndian 8 firstByteNum ++ audioData).drop 8).take 8 =
        bigEndian 8 firstByteNum := by
    rw [List.append_assoc, List.drop_left' (length_bigEndian 8 sessionId),
      List.take_left' (length_bigEndian 8 firstByteNum)]
  have hdata : ((bigEndian 8 sessionId ++ bigEndian 8 firstByteNum ++ audioData).drop 16) =
      audioData := List.drop_left' hlen
  simp only [ofBuffer, bytes_eq, htake, hmiddle, hdata, psize, List.take_length,
    ntohll_loadWord_bigEndian hsession, ntohll_loadWord_bigEndian hfirst]

/-- Decoded fields are encoded as the bytes they come from. -/
theorem bytes_ofBuffer {buf : List UInt8} (h : 16 ≤ buf.length) :
    (ofBuffer buf (buf.length - 16)).bytes = buf := by
  have hsession : (buf.take 8).length = 8 := by rw [List.length_take]; omega
  have hfirst : ((buf.drop 8).take 8).length = 8 := by
    rw [List.length_take, List.length_drop]
    omega
  have hdata : (buf.drop 16).take (buf.length - 16) = buf.drop 16 := by
    apply List.take_of_length_le
    rw [List.length_drop]
  calc (ofBuffer buf (buf.length - 16)).bytes
      = buf.take 8 ++ (buf.drop 8).take 8 ++ buf.drop 16 := by
        simp only [bytes, ofBuffer, storeWord_htonll_ntohll_loadWord hsession,
          storeWord_htonll_ntohll_loadWord hfirst, hdata]
    _ = buf := by
        rw [List.append_assoc, ← List.drop_drop (i := 8) (j := 8), List.take_append_drop,
          List.take_append_drop]

/-- What the sending constructor builds, that the receiving constructor reads it back, and that
decoding and encoding again keeps every byte string with a whole header. -/
theorem codec_roundTrip :
    (∀ (sessionId firstByteNum : UInt64) (audioData : List UInt8),
      let sent := (ofWords sessionId.toNat firstByteNum.toNat audioData).bytes
      let received := ofBuffer sent audioData.length
      sent = bigEndian 8 sessionId.toNat ++ bigEndian 8 firstByteNum.toNat ++ audioData ∧
        received.sessionId = sessionId.toNat ∧
        received.firstByteNum = firstByteNum.toNat ∧
        received.audioData = audioData) ∧
    (∀ buf : List UInt8, 16 ≤ buf.length →
      let received := ofBuffer buf (buf.length - 16)
      (ofWords received.sessionId received.firstByteNum received.audioData).bytes = buf) := by
  constructor
  · intro sessionId firstByteNum audioData
    have hsession : (ofWords sessionId.toNat firstByteNum.toNat audioData).sessionId =
        sessionId.toNat := Nat.mod_eq_of_lt sessionId.toNat_lt
    have hfirst : (ofWords sessionId.toNat firstByteNum.toNat audioData).firstByteNum =
        firstByteNum.toNat := Nat.mod_eq_of_lt firstByteNum.toNat_lt
    have hback : ofBuffer (ofWords sessionId.toNat firstByteNum.toNat audioData).bytes
        audioData.length = ofWords sessionId.toNat firstByteNum.toNat audioData :=
      ofBuffer_bytes _
    intro sent received
    refine ⟨?_, ?_, ?_, ?_⟩
    · apply (bytes_eq _).trans
      rw [hsession, hfirst]
      rfl
    · exact (congrArg AudioPacket.sessionId hback).trans hsession
    · exact (congrArg AudioPacket.firstByteNum hback).trans hfirst
    · exact congrArg AudioPacket.audioData hback
  · intro buf hlen
    calc (ofWords (ofBuffer buf (buf.length - 16)).sessionId
          (ofBuffer buf (buf.length - 16)).firstByteNum
          (ofBuffer buf (buf.length - 16)).audioData).bytes
        = (ofBuffer buf (buf.length - 16)).bytes := by
          rw [ofWords_fields]
      _ = buf := bytes_ofBuffer hlen

/-- A header of sixteen different bytes and a payload of one. -/
theorem codec_roundTrip_seventeen_bytes :
    let buf : List UInt8 := [1, 2, 3, 4, 5, 6, 7, 8, 9, 10, 11, 12, 13, 14, 15, 16, 17]
    16 ≤ buf.length ∧
      let received := ofBuffer buf (buf.length - 16)
      (ofWords received.sessionId received.firstByteNum received.audioData).bytes = buf :=
  ⟨by decide, codec_roundTrip.2 _ (by decide)⟩

end AudioPacket

end SikRadio.Common
