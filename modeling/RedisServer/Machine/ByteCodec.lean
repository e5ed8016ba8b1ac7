import RedisServer.Machine.CText
import Mathlib.Tactic.LinearCombination
import Mathlib.Tactic.Positivity
import Mathlib.Tactic.Ring

/-! Integers as sequences of bytes. The encoders take any integer and keep its
low bytes, so a two's complement number is written by the same function as an
unsigned one; the decoders return the unsigned value. -/
namespace Machine

/-- The low byte of an integer, in two's complement. -/
def lowByte (v : Int) : UInt8 := UInt8.ofNat (v % 256).toNat

theorem lowByte_toNat (v : Int) : ((lowByte v).toNat : Int) = v % 256 := by
  have h0 := Int.emod_nonneg v (by decide : (256 : Int) ≠ 0)
  have h1 := Int.emod_lt_of_pos v (by decide : (0 : Int) < 256)
  rw [lowByte, UInt8.toNat_ofNat_of_lt' (by change _ < 256; omega)]
  omega

/-- The low `width` bytes, least significant first. -/
def littleEndian : Nat → Int → Bytes
  | 0, _ => []
  | width + 1, v => lowByte v :: littleEndian width (v / 256)

def bigEndian (width : Nat) (v : Int) : Bytes := (littleEndian width v).reverse

def fromLittleEndian : Bytes → Nat
  | [] => 0
  | b :: rest => b.toNat + 256 * fromLittleEndian rest

@[simp] theorem littleEndian_length (width : Nat) (v : Int) :
    (littleEndian width v).length = width := by
  induction width generalizing v with
  | zero => rfl
  | succ width ih => simp [littleEndian, ih]

@[simp] theorem bigEndian_length (width : Nat) (v : Int) : (bigEndian width v).length = width := by
  simp [bigEndian]

theorem fromLittleEndian_concat (bytes : Bytes) (b : UInt8) :
    fromLittleEndian (bytes ++ [b]) = fromLittleEndian bytes + 256 ^ bytes.length * b.toNat := by
  induction bytes with
  | nil => simp [fromLittleEndian]
  | cons a bytes ih =>
      simp only [List.cons_append, fromLittleEndian, ih, List.length_cons]
      ring

/-- Decoding gives the encoded integer modulo what the width can hold. -/
theorem fromLittleEndian_littleEndian (width : Nat) (v : Int) :
    (fromLittleEndian (littleEndian width v) : Int) = v % 256 ^ width := by
  induction width generalizing v with
  | zero =>
      rw [pow_zero, Int.emod_one]
      rfl
  | succ width ih =>
      have hPos : (0 : Int) < 256 ^ width := by positivity
      have h0 := Int.emod_nonneg (v / 256) hPos.ne'
      have h1 := Int.emod_lt_of_pos (v / 256) hPos
      have hSplit : v = v % 256 + 256 * (v / 256 % 256 ^ width) +
          256 * 256 ^ width * (v / 256 / 256 ^ width) := by
        have hv := Int.emod_add_mul_ediv v 256
        have hq := Int.emod_add_mul_ediv (v / 256) (256 ^ width)
        linear_combination -hv - 256 * hq
      have hMod : v % (256 * 256 ^ width) = v % 256 + 256 * (v / 256 % 256 ^ width) := by
        conv_lhs => rw [hSplit]
        rw [Int.add_mul_emod_self_left, Int.emod_eq_of_lt (by omega) (by omega)]
      rw [pow_succ, Int.mul_comm (256 ^ width), hMod]
      simp only [littleEndian, fromLittleEndian, Nat.cast_add, Nat.cast_mul, Nat.cast_ofNat, ih,
        lowByte_toNat]

end Machine
