import Mathlib.Data.UInt
import SikRadio.Foundations.Word64

/-!
# Audio packets

A packet carries a session id, the number of its first byte and the audio
data; the payload size is the length of the data. The type of a byte is a
parameter: the program runs at `UInt8`, and the proofs about where a played
byte came from run the same code on bytes that carry their origin.
-/

namespace SikRadio.Common

/-- `UDP_MAX_DATA_SIZE`. -/
def udpMaxDataSize : Nat := 2 ^ 16 - 1

structure AudioPacket (α : Type) where
  sessionId : Nat
  firstByteNum : Nat
  audioData : List α
  sessionId_lt : sessionId < 2 ^ 64
  firstByteNum_lt : firstByteNum < 2 ^ 64

namespace AudioPacket

variable {α : Type}

/-- `AudioPacket::MAX_PSIZE`. -/
def maxPsize : Nat := udpMaxDataSize - 16

def psize (packet : AudioPacket α) : Nat := packet.audioData.length

/-- The sending constructor. Its first two arguments are words. -/
def ofWords (sessionId firstByteNum : Nat) (audioData : List α) : AudioPacket α where
  sessionId := sessionId % 2 ^ 64
  firstByteNum := firstByteNum % 2 ^ 64
  audioData
  sessionId_lt := Nat.mod_lt _ (by decide)
  firstByteNum_lt := Nat.mod_lt _ (by decide)

/-- A packet with a payload of one byte, as the examples use it. -/
def oneByte (sessionId firstByteNum : Nat) : AudioPacket UInt8 :=
  ofWords sessionId firstByteNum [UInt8.ofNat (firstByteNum + 10)]

end AudioPacket

/-! ## Wire format -/

/-- A `uint64_t` read from memory on a little-endian host. -/
def loadWord (bytes : List UInt8) : Nat :=
  bytes.foldr (fun x acc => x.toNat + 256 * acc) 0

/-- The eight bytes of a `uint64_t` in the memory of a little-endian host. -/
def storeWord (x : Nat) : List UInt8 :=
  (List.range 8).map fun i => UInt8.ofNat (x / 256 ^ i)

/-- `htonl` on a little-endian host: the argument is cut to 32 bits and its bytes swapped. -/
def htonl (x : Nat) : Nat :=
  x % 256 * 2 ^ 24 + x / 2 ^ 8 % 256 * 2 ^ 16 + x / 2 ^ 16 % 256 * 2 ^ 8 + x / 2 ^ 24 % 256

/-- The macro `htonll`: two 32-bit swaps. -/
def htonll (x : Nat) : Nat := (htonl x <<< 32) ||| htonl (x >>> 32)

/-- The macro `ntohll`; `ntohl` is the same byte swap as `htonl`. -/
def ntohll (x : Nat) : Nat := (htonl x <<< 32) ||| htonl (x >>> 32)

theorem htonl_lt (x : Nat) : htonl x < 2 ^ 32 := by
  unfold htonl
  omega

theorem ntohll_lt (x : Nat) : ntohll x < 2 ^ 64 := by
  have hlo := htonl_lt (x >>> 32)
  have hhi := htonl_lt x
  apply Nat.or_lt_two_pow
  · rw [Nat.shiftLeft_eq]
    omega
  · omega

namespace AudioPacket

/-- The receiving constructor: `buf` holds the header and `psize` bytes of audio data. -/
def ofBuffer (buf : List UInt8) (psize : Nat) : AudioPacket UInt8 where
  sessionId := ntohll (loadWord (buf.take 8))
  firstByteNum := ntohll (loadWord ((buf.drop 8).take 8))
  audioData := (buf.drop 16).take psize
  sessionId_lt := ntohll_lt _
  firstByteNum_lt := ntohll_lt _

/-- The bytes that the sending constructor builds. -/
def bytes (packet : AudioPacket UInt8) : List UInt8 :=
  storeWord (htonll packet.sessionId) ++ storeWord (htonll packet.firstByteNum) ++
    packet.audioData

end AudioPacket

end SikRadio.Common
