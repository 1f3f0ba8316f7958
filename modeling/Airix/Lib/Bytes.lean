import Mathlib.Tactic.Common
import Mathlib.Data.Nat.Bitwise

/-!
# Byte-addressed storage

A storage is a function from addresses to bytes. `put` replaces a range of it; `word` reads a 32-bit
little-endian word and `ofWords` lays words out; `bitAt` numbers the bits of a bitmap from the most
significant one of its first byte.
-/

namespace Bytes
variable {m m' f : Nat → UInt8} {w : Nat → Nat} {off off' len i j k x : Nat}

/-- `m` with the `len` bytes from `off` on replaced by those of `f`. -/
def put (m : Nat → UInt8) (off len : Nat) (f : Nat → UInt8) : Nat → UInt8 :=
  fun x => if off ≤ x ∧ x < off + len then f (x - off) else m x

theorem put_in (h : i < len) : put m off len f (off + i) = f i := by
  rw [put, if_pos ⟨by omega, by omega⟩, Nat.add_sub_cancel_left]

theorem put_out (h : x < off ∨ off + len ≤ x) : put m off len f x = m x := if_neg (by omega)

/-- Reading in a range of which `put` replaced a part is putting into the range. -/
theorem put_shift : (fun i => put m (off + j) len f (off + i)) = put (fun i => m (off + i)) j len f := by
  funext i
  simp only [put, Nat.add_sub_add_left, Nat.add_assoc, Nat.add_le_add_iff_left, Nat.add_lt_add_iff_left]

/-! ### Words -/

/-- The 32-bit little-endian word at `off`. -/
def word (m : Nat → UInt8) (off : Nat) : Nat :=
  (m off).toNat + 2 ^ 8 * (m (off + 1)).toNat + 2 ^ 16 * (m (off + 2)).toNat + 2 ^ 24 * (m (off + 3)).toNat

/-- The bytes of the words `w 0`, `w 1`, …, each cut to 32 bits. -/
def ofWords (w : Nat → Nat) : Nat → UInt8 := fun i => UInt8.ofNat (w (i / 4) / 2 ^ (8 * (i % 4)))

theorem word_lt : word m off < 2 ^ 32 := by
  have h₀ := (m off).toNat_lt
  have h₁ := (m (off + 1)).toNat_lt
  have h₂ := (m (off + 2)).toNat_lt
  have h₃ := (m (off + 3)).toNat_lt
  rw [word]
  omega

theorem word_congr (h : ∀ i < 4, m' (off' + i) = m (off + i)) : word m' off' = word m off := by
  have h₀ := h 0 (by omega)
  rw [Nat.add_zero, Nat.add_zero] at h₀
  rw [word, word, h₀, h 1 (by omega), h 2 (by omega), h 3 (by omega)]

theorem word_put_in (h : i + 4 ≤ len) : word (put m off len f) (off + i) = word f i :=
  word_congr fun r hr => by rw [Nat.add_assoc, put_in (by omega)]

theorem word_put_zero (h : i + 4 ≤ len) : word (put m 0 len f) i = word f i :=
  word_congr fun r hr => by
    have hin : put m 0 len f (0 + (i + r)) = f (i + r) := put_in (by omega)
    rwa [Nat.zero_add] at hin

theorem word_put_out (h : x + 4 ≤ off ∨ off + len ≤ x) : word (put m off len f) x = word m x :=
  word_congr fun r hr => put_out (by omega)

theorem word_ofWords : word (ofWords w) (4 * k) = w k % 2 ^ 32 := by
  have h₁ : (4 * k + 1) / 4 = k ∧ (4 * k + 1) % 4 = 1 := by omega
  have h₂ : (4 * k + 2) / 4 = k ∧ (4 * k + 2) % 4 = 2 := by omega
  have h₃ : (4 * k + 3) / 4 = k ∧ (4 * k + 3) % 4 = 3 := by omega
  simp only [word, ofWords, UInt8.toNat_ofNat', Nat.mul_div_cancel_left k (by omega : 0 < 4), Nat.mul_mod_right,
    h₁, h₂, h₃]
  omega

theorem word_zero (h : ∀ i < 4, m (off + i) = 0) : word m off = 0 := by
  have h' : word m off = word (fun _ => 0) 0 := word_congr (fun i hi => h i hi)
  exact h'

/-! ### Bits -/

/-- Bit `j` of the bitmap `m`: the first byte's most significant bit is bit 0. -/
def bitAt (m : Nat → UInt8) (j : Nat) : Bool := (m (j / 8)).toNat.testBit (7 - j % 8)

/-- Byte `x` with the bit that stands for `j` set. -/
def setBit (x : UInt8) (j : Nat) : UInt8 := x ||| UInt8.ofNat (1 <<< (8 - j % 8 - 1))

theorem testBit_setBit : (setBit (m (i / 8)) i).toNat.testBit (7 - j % 8) =
    ((m (i / 8)).toNat.testBit (7 - j % 8) || decide (i % 8 = j % 8)) := by
  have hlt : 2 ^ (8 - i % 8 - 1) < 2 ^ 8 := Nat.pow_lt_pow_right (by omega) (by omega)
  rw [setBit, UInt8.toNat_or, UInt8.toNat_ofNat', Nat.shiftLeft_eq, Nat.one_mul, Nat.mod_eq_of_lt hlt,
    Nat.testBit_or, Nat.testBit_two_pow]
  congr 1
  exact decide_eq_decide.2 (by omega)

/-- Setting one bit of a bitmap. -/
theorem bitAt_put_setBit :
    bitAt (put m (i / 8) 1 (fun _ => setBit (m (i / 8)) i)) j = (bitAt m j || decide (j = i)) := by
  unfold bitAt
  rcases eq_or_ne (j / 8) (i / 8) with h | h
  · have hin : put m (i / 8) 1 (fun _ => setBit (m (i / 8)) i) (i / 8) = setBit (m (i / 8)) i :=
      put_in (i := 0) (by omega)
    rw [h, hin, testBit_setBit]
    congr 1
    exact decide_eq_decide.2 (by omega)
  · rw [put_out (by omega), decide_eq_false (by rintro rfl; exact h rfl), Bool.or_false]

theorem bitAt_congr (h : m' (j / 8) = m (j / 8)) : bitAt m' j = bitAt m j := by
  rw [bitAt, bitAt, h]

end Bytes
