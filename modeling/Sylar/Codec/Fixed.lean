import Mathlib.Data.UInt
import Mathlib.Tactic.Ring

/-! # Fixed-width integers as byte strings

The bytes of a number, least significant first, and the reversal of a machine
word's bytes.
-/
namespace Sylar.Codec

/-- The low `k` bytes of `n`, least significant first. -/
def bytesOf : ℕ → ℕ → List UInt8
  | 0, _ => []
  | k + 1, n => UInt8.ofNat n :: bytesOf k (n / 256)

def natOf : List UInt8 → ℕ
  | [] => 0
  | x :: xs => x.toNat + 256 * natOf xs

@[simp] theorem length_bytesOf (k n : ℕ) : (bytesOf k n).length = k := by
  induction k generalizing n with
  | zero => rfl
  | succ k ih => simp [bytesOf, ih]

theorem natOf_lt (l : List UInt8) : natOf l < 256 ^ l.length := by
  induction l with
  | nil => simp [natOf]
  | cons x xs ih =>
    have hx := x.toNat_lt
    rw [natOf, List.length_cons, pow_succ]
    omega

theorem bytesOf_natOf (l : List UInt8) : bytesOf l.length (natOf l) = l := by
  induction l with
  | nil => rfl
  | cons x xs ih =>
    have hx := x.toNat_lt
    have hhead : UInt8.ofNat (x.toNat + 256 * natOf xs) = x := by
      apply UInt8.toNat_inj.mp
      rw [UInt8.toNat_ofNat']
      omega
    have htail : (x.toNat + 256 * natOf xs) / 256 = natOf xs := by omega
    rw [List.length_cons, natOf, bytesOf, hhead, htail, ih]

theorem natOf_bytesOf (k n : ℕ) : natOf (bytesOf k n) = n % 256 ^ k := by
  induction k generalizing n with
  | zero => simp [bytesOf, natOf, Nat.mod_one]
  | succ k ih =>
    rw [bytesOf, natOf, ih, UInt8.toNat_ofNat', pow_succ' 256 k, Nat.mod_mul]

/-- A word rebuilt from its bytes. -/
theorem ofNat_natOf_bytesOf {w : ℕ} (hw : 8 ∣ w) (v : BitVec w) :
    BitVec.ofNat w (natOf (bytesOf (w / 8) v.toNat)) = v := by
  apply BitVec.eq_of_toNat_eq
  have hpow : 256 ^ (w / 8) = 2 ^ w := by
    rw [show (256 : ℕ) = 2 ^ 8 by rfl, ← pow_mul, Nat.mul_div_cancel' hw]
  rw [natOf_bytesOf, BitVec.toNat_ofNat, hpow, Nat.mod_mod, Nat.mod_eq_of_lt v.isLt]

/-- The word with its bytes in the opposite order. -/
def byteswap {w : ℕ} (v : BitVec w) : BitVec w :=
  BitVec.ofNat w (natOf (bytesOf (w / 8) v.toNat).reverse)

theorem bytesOf_byteswap {w : ℕ} (hw : 8 ∣ w) (v : BitVec w) :
    bytesOf (w / 8) (byteswap v).toNat = (bytesOf (w / 8) v.toNat).reverse := by
  have hlen : (bytesOf (w / 8) v.toNat).reverse.length = w / 8 := by simp
  have hpow : 256 ^ (w / 8) = 2 ^ w := by
    rw [show (256 : ℕ) = 2 ^ 8 by rfl, ← pow_mul, Nat.mul_div_cancel' hw]
  have hlt := natOf_lt (bytesOf (w / 8) v.toNat).reverse
  rw [hlen, hpow] at hlt
  have hback := bytesOf_natOf (bytesOf (w / 8) v.toNat).reverse
  rw [hlen] at hback
  rw [byteswap, BitVec.toNat_ofNat, Nat.mod_eq_of_lt hlt, hback]

theorem byteswap_byteswap {w : ℕ} (hw : 8 ∣ w) (v : BitVec w) : byteswap (byteswap v) = v := by
  rw [byteswap, bytesOf_byteswap hw, List.reverse_reverse, ofNat_natOf_bytesOf hw]

/-! ## Bits -/

theorem testBit_natOf (l : List UInt8) (j : ℕ) :
    (natOf l).testBit j = (l[j / 8]?.getD 0).toNat.testBit (j % 8) := by
  induction l generalizing j with
  | nil => simp [natOf]
  | cons x xs ih =>
    have hx : x.toNat < 2 ^ 8 := x.toNat_lt
    rw [natOf, Nat.add_comm, show 256 = 2 ^ 8 from rfl, Nat.testBit_two_pow_mul_add _ hx]
    by_cases hj : j < 8
    · simp [hj, Nat.div_eq_of_lt hj, Nat.mod_eq_of_lt hj]
    · have hdiv : j / 8 = (j - 8) / 8 + 1 := by omega
      have hmod : j % 8 = (j - 8) % 8 := by omega
      rw [if_neg hj, ih, hdiv, List.getElem?_cons_succ, hmod]

theorem getElem?_bytesOf {k i : ℕ} (h : i < k) (n : ℕ) :
    (bytesOf k n)[i]? = some (UInt8.ofNat (n / 256 ^ i)) := by
  induction k generalizing i n with
  | zero => omega
  | succ k ih =>
    cases i with
    | zero => simp [bytesOf]
    | succ i =>
      rw [bytesOf, List.getElem?_cons_succ, ih (by omega), Nat.div_div_eq_div_mul, pow_succ']

theorem getLsbD_byteswap {w : ℕ} (hw : 8 ∣ w) (v : BitVec w) {j : ℕ} (hj : j < w) :
    (byteswap v).getLsbD j = v.getLsbD (8 * (w / 8 - 1 - j / 8) + j % 8) := by
  have hk : w / 8 - 1 - j / 8 < w / 8 := by omega
  have hbyte : (bytesOf (w / 8) v.toNat).reverse[j / 8]? =
      some (UInt8.ofNat (v.toNat / 256 ^ (w / 8 - 1 - j / 8))) := by
    rw [List.getElem?_reverse (by rw [length_bytesOf]; omega), length_bytesOf, getElem?_bytesOf hk]
  rw [byteswap, BitVec.getLsbD_ofNat, decide_eq_true hj, Bool.true_and, testBit_natOf, hbyte,
    Option.getD_some, UInt8.toNat_ofNat', Nat.testBit_mod_two_pow,
    decide_eq_true (Nat.mod_lt j (by decide)), Bool.true_and, show 256 = 2 ^ 8 from rfl, ← pow_mul,
    Nat.testBit_div_two_pow, Nat.add_comm]
  rfl

theorem byteswap_and {w : ℕ} (hw : 8 ∣ w) (x y : BitVec w) :
    byteswap (x &&& y) = byteswap x &&& byteswap y := by
  apply BitVec.eq_of_getLsbD_eq
  intro j hj
  rw [BitVec.getLsbD_and, getLsbD_byteswap hw _ hj, getLsbD_byteswap hw _ hj,
    getLsbD_byteswap hw _ hj, BitVec.getLsbD_and]

theorem byteswap_or {w : ℕ} (hw : 8 ∣ w) (x y : BitVec w) :
    byteswap (x ||| y) = byteswap x ||| byteswap y := by
  apply BitVec.eq_of_getLsbD_eq
  intro j hj
  rw [BitVec.getLsbD_or, getLsbD_byteswap hw _ hj, getLsbD_byteswap hw _ hj,
    getLsbD_byteswap hw _ hj, BitVec.getLsbD_or]

end Sylar.Codec
