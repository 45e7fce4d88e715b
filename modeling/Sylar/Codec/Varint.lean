import Mathlib.Data.Nat.Size
import Mathlib.Data.UInt

/-! # Variable-length integers

Groups of seven bits, least significant first, the top bit of a byte saying
whether another follows; and the zigzag map that makes small negative numbers
small.
-/
namespace Sylar.Codec

/-- Base-128 digits with continuation bits. -/
def leb128 (n : ℕ) : List UInt8 :=
  if n < 128 then [UInt8.ofNat n]
  else UInt8.ofNat (n % 128 + 128) :: leb128 (n / 128)

theorem leb128_of_lt {n : ℕ} (h : n < 128) : leb128 n = [UInt8.ofNat n] := by
  rw [leb128, if_pos h]

theorem leb128_of_ge {n : ℕ} (h : 128 ≤ n) :
    leb128 n = UInt8.ofNat (n % 128 + 128) :: leb128 (n / 128) := by
  rw [leb128, if_neg (by omega)]

theorem size_div_128 {n : ℕ} : (n / 128).size = n.size - 7 := by
  apply le_antisymm
  · rw [Nat.size_le, Nat.div_lt_iff_lt_mul (by decide)]
    have h := Nat.lt_size_self n
    calc n < 2 ^ n.size := h
      _ ≤ 2 ^ (n.size - 7 + 7) := Nat.pow_le_pow_right (by decide) (by omega)
      _ = 2 ^ (n.size - 7) * 128 := by rw [pow_add]; rfl
  · have h := Nat.lt_size_self (n / 128)
    rw [Nat.div_lt_iff_lt_mul (by decide)] at h
    have hle : n.size ≤ (n / 128).size + 7 := by
      rw [Nat.size_le, pow_add]
      exact h
    omega

/-- One byte for each seven bits, and at least one. -/
theorem length_leb128 (n : ℕ) : (leb128 n).length = max 1 ((n.size + 6) / 7) := by
  induction n using Nat.strong_induction_on with
  | _ n ih =>
    by_cases h : n < 128
    · have hsize : n.size ≤ 7 := Nat.size_le.mpr h
      rw [leb128_of_lt h, List.length_singleton]
      omega
    · have hsize : 7 < n.size := Nat.lt_size.mpr (show 2 ^ 7 ≤ n by omega)
      rw [leb128_of_ge (by omega), List.length_cons, ih (n / 128) (by omega), size_div_128]
      omega

theorem length_leb128_le {n k : ℕ} (hk : 0 < k) (h : n < 2 ^ (7 * k)) :
    (leb128 n).length ≤ k := by
  have hsize : n.size ≤ 7 * k := Nat.size_le.mpr h
  rw [length_leb128]
  omega

section Zigzag

variable {w : ℕ}

/-- `(v << 1) ^ (v >> (w - 1))` with an arithmetic right shift. -/
def zigzag (v : BitVec w) : BitVec w := (v <<< 1) ^^^ v.sshiftRight (w - 1)

/-- `(v >> 1) ^ -(v & 1)`. -/
def unzigzag (v : BitVec w) : BitVec w := (v >>> 1) ^^^ -(v &&& 1)

theorem getLsbD_zigzag (v : BitVec w) {i : ℕ} (hi : i < w) :
    (zigzag v).getLsbD i = ((decide (0 < i) && v.getLsbD (i - 1)) ^^ v.msb) := by
  have hsign : (v.sshiftRight (w - 1)).getLsbD i = v.msb := by
    rw [BitVec.getLsbD_sshiftRight]
    by_cases h0 : i = 0
    · subst h0
      rw [Nat.add_zero, if_pos (by omega), BitVec.msb_eq_getLsbD_last]
      simp [show ¬w ≤ 0 by omega]
    · rw [if_neg (by omega)]
      simp [hi]
  rw [zigzag, BitVec.getLsbD_xor, hsign, BitVec.getLsbD_shiftLeft]
  by_cases h0 : i = 0 <;> simp [h0, hi, Nat.pos_of_ne_zero]

/-- The mask `-(v & 1)` is all ones or zero. -/
theorem neg_and_one (v : BitVec w) :
    -(v &&& 1) = if v.getLsbD 0 then BitVec.allOnes w else 0 := by
  have hand : v &&& 1 = (BitVec.ofBool (v.getLsbD 0)).setWidth w :=
    BitVec.and_one_eq_setWidth_ofBool_getLsbD
  rw [hand]
  cases v.getLsbD 0
  · simp
  · have hone : (BitVec.ofBool true).setWidth w = 1#w := BitVec.eq_of_toNat_eq (by simp)
    rw [hone, BitVec.neg_one_eq_allOnes, if_pos rfl]

theorem unzigzag_zigzag (v : BitVec w) : unzigzag (zigzag v) = v := by
  apply BitVec.eq_of_getLsbD_eq
  intro i hi
  have hlow : (zigzag v).getLsbD 0 = v.msb := by
    rw [getLsbD_zigzag v (by omega)]
    simp
  have hmask : (if v.msb then BitVec.allOnes w else 0).getLsbD i = v.msb := by
    cases v.msb <;> simp [hi]
  rw [unzigzag, BitVec.getLsbD_xor, BitVec.getLsbD_ushiftRight, neg_and_one, hlow, hmask]
  by_cases hlast : 1 + i < w
  · rw [getLsbD_zigzag v hlast]
    simp [show 0 < 1 + i by omega]
  · have htop : i = w - 1 := by omega
    rw [BitVec.getLsbD_of_ge _ _ (by omega), Bool.false_xor, BitVec.msb_eq_getLsbD_last, htop]

end Zigzag

end Sylar.Codec
