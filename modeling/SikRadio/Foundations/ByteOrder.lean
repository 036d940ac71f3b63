import Mathlib.Data.UInt
import Mathlib.Tactic

/-!
# Numbers as bytes

A number in memory with its least significant byte first, and the number that
such bytes stand for. The two are inverse at each width, so that reversing the
bytes relates numbers of one byte order to numbers of the other.
-/

namespace SikRadio.Foundations.ByteOrder

/-- The bytes of `x` at the given width, least significant first. -/
def littleEndian : Nat → Nat → List UInt8
  | 0, _ => []
  | width + 1, x => UInt8.ofNat x :: littleEndian width (x / 256)

/-- The number that bytes stand for, least significant first. -/
def value (bytes : List UInt8) : Nat := bytes.foldr (fun x acc => x.toNat + 256 * acc) 0

/-- The bytes of `x` at the given width, most significant first. -/
def bigEndian (width x : Nat) : List UInt8 := (littleEndian width x).reverse

@[simp] theorem value_nil : value [] = 0 := rfl

@[simp] theorem value_cons (b : UInt8) (bytes : List UInt8) :
    value (b :: bytes) = b.toNat + 256 * value bytes := rfl

@[simp] theorem length_littleEndian (width x : Nat) : (littleEndian width x).length = width := by
  induction width generalizing x with
  | zero => rfl
  | succ width ih => rw [littleEndian, List.length_cons, ih]

@[simp] theorem length_bigEndian (width x : Nat) : (bigEndian width x).length = width := by
  rw [bigEndian, List.length_reverse, length_littleEndian]

theorem value_lt (bytes : List UInt8) : value bytes < 256 ^ bytes.length := by
  induction bytes with
  | nil => decide
  | cons b bytes ih =>
      have hb := b.toNat_lt
      rw [value_cons, List.length_cons, pow_succ]
      omega

theorem value_append (bytes bytes' : List UInt8) :
    value (bytes ++ bytes') = value bytes + 256 ^ bytes.length * value bytes' := by
  induction bytes with
  | nil => simp
  | cons b bytes ih =>
      rw [List.cons_append, value_cons, value_cons, ih, List.length_cons]
      ring

/-- Bytes of a number stand for it. -/
theorem value_littleEndian {width x : Nat} (h : x < 256 ^ width) :
    value (littleEndian width x) = x := by
  induction width generalizing x with
  | zero =>
      rw [pow_zero] at h
      rw [littleEndian, value_nil]
      omega
  | succ width ih =>
      have hquot : x / 256 < 256 ^ width := by
        apply Nat.div_lt_of_lt_mul
        rwa [mul_comm, ← pow_succ]
      rw [littleEndian, value_cons, ih hquot, UInt8.toNat_ofNat']
      exact Nat.mod_add_div x 256

/-- Bytes are recovered from the number they stand for. -/
theorem littleEndian_value {width : Nat} {bytes : List UInt8} (h : bytes.length = width) :
    littleEndian width (value bytes) = bytes := by
  induction bytes generalizing width with
  | nil =>
      subst h
      rfl
  | cons b bytes ih =>
      subst h
      have hb := b.toNat_lt
      have hquot : (b.toNat + 256 * value bytes) / 256 = value bytes := by omega
      have hfirst : UInt8.ofNat (b.toNat + 256 * value bytes) = b := by
        apply UInt8.toNat_inj.mp
        rw [UInt8.toNat_ofNat']
        omega
      rw [List.length_cons, littleEndian, value_cons, hquot, ih rfl, hfirst]

end SikRadio.Foundations.ByteOrder
