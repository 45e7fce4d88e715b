import Sylar.Net.Address

/-! # Networks, broadcast addresses and masks

Bits are counted from the most significant one. The three functions of an address are right
wherever the steps of `CreateMask` and the accesses to the bytes have a meaning.
-/
namespace Sylar.Net
open Codec
open Sylar.ByteArray (Endian)

/-- Of `w` bits the first `p` are those of the network. -/
structure Divides (w p : ℕ) (address network broadcast mask : ℕ → Bool) : Prop where
  network : ∀ i < w, network i = (decide (i < p) && address i)
  broadcast : ∀ i < w, broadcast i = (decide (p ≤ i) || address i)
  mask : ∀ i < w, mask i = decide (i < p)

section Mask

/-- The bits from `k` on. -/
def hostMask (w k : ℕ) : BitVec w := BitVec.ofNat w (2 ^ (w - k) - 1)

theorem getMsbD_hostMask {w k i : ℕ} (hi : i < w) :
    (hostMask w k).getMsbD i = decide (k ≤ i) := by
  rw [hostMask, BitVec.getMsbD_eq_getLsbD, BitVec.getLsbD_ofNat, Nat.testBit_two_pow_sub_one,
    decide_eq_true hi, decide_eq_true (by omega : w - 1 - i < w), Bool.true_and, Bool.true_and]
  exact decide_eq_decide.mpr (by omega)

theorem getMsbD_not_hostMask {w k i : ℕ} (hi : i < w) :
    (~~~hostMask w k).getMsbD i = decide (i < k) := by
  rw [BitVec.getMsbD_not, getMsbD_hostMask hi, decide_eq_true hi, Bool.true_and, ← decide_not]
  exact decide_eq_decide.mpr Nat.not_le

/-- The amount of the shift is at most 30, so that the power and the difference are `int`s. -/
theorem createMask_ok {w k : ℕ} (hk : k ≤ w) (hshift : w ≤ k + 30) :
    createMask w k = .ok (hostMask w k) := by
  have hamount : (w + 2 ^ 64 - k) % 2 ^ 64 = w - k := by omega
  have hpower : (2 ^ (w - k) - 1 : ℤ) = ((2 ^ (w - k) - 1 : ℕ) : ℤ) := by
    rw [Nat.cast_sub Nat.one_le_two_pow]
    norm_num
  dsimp only [createMask]
  rw [hamount, if_neg (by omega), if_neg (show ¬w - k = 31 by omega), hpower, if_neg (by omega),
    BitVec.ofInt_natCast, hostMask]

/-- A `uint32_t` above the width makes the amount of the shift a huge `size_t`. -/
theorem createMask_over {k : ℕ} (h : 32 < k) (hk : k < 2 ^ 32) :
    createMask 32 k = .error .shiftAmount := by
  dsimp only [createMask]
  rw [if_pos (by omega)]

end Mask

section IPv4

variable (host : Endian)

theorem swap_swap {w : ℕ} (hw : 8 ∣ w) (v : BitVec w) :
    byteswapOnLittleEndian host (byteswapOnLittleEndian host v) = v := by
  cases host with
  | little => exact byteswap_byteswap hw v
  | big => rfl

theorem swap_and {w : ℕ} (hw : 8 ∣ w) (x y : BitVec w) :
    byteswapOnLittleEndian host (x &&& y) =
      byteswapOnLittleEndian host x &&& byteswapOnLittleEndian host y := by
  cases host with
  | little => exact byteswap_and hw x y
  | big => rfl

theorem swap_or {w : ℕ} (hw : 8 ∣ w) (x y : BitVec w) :
    byteswapOnLittleEndian host (x ||| y) =
      byteswapOnLittleEndian host x ||| byteswapOnLittleEndian host y := by
  cases host with
  | little => exact byteswap_or hw x y
  | big => rfl

namespace SockaddrIn

/-- What the three functions should do for a prefix. -/
def PrefixLaw (a : SockaddrIn) (p : UInt32) : Prop :=
  (p.toNat ≤ 32 → ∃ n b m, a.networkAddress host p = .ok (some n) ∧
    a.broadcastAddress host p = .ok (some b) ∧ subnetMask host p = .ok (some m) ∧
    Divides 32 p.toNat (a.address host).getMsbD (n.address host).getMsbD
      (b.address host).getMsbD (m.address host).getMsbD ∧
    n.address host = a.address host &&& m.address host ∧
    b.address host = n.address host ||| ~~~m.address host ∧
    n.networkAddress host p = .ok (some n) ∧ b.broadcastAddress host p = .ok (some b) ∧
    n.getPort host = a.getPort host ∧ b.getPort host = a.getPort host) ∧
  (32 < p.toNat → a.networkAddress host p = .ok none ∧ a.broadcastAddress host p = .ok none ∧
    subnetMask host p = .ok none)

variable {host} {a : SockaddrIn} {p : UInt32} {mask : BitVec 32}

theorem networkAddress_of_mask (hp : p.toNat ≤ 32) (h : createMask 32 p.toNat = .ok mask) :
    a.networkAddress host p =
      .ok (some { a with addr := a.addr &&& byteswapOnLittleEndian host (~~~mask) }) := by
  rw [networkAddress, if_neg (by omega), h]
  rfl

theorem broadcastAddress_of_mask (hp : p.toNat ≤ 32) (h : createMask 32 p.toNat = .ok mask) :
    a.broadcastAddress host p =
      .ok (some { a with addr := a.addr ||| byteswapOnLittleEndian host mask }) := by
  rw [broadcastAddress, if_neg (by omega), h]
  rfl

theorem subnetMask_of_mask (h : createMask 32 p.toNat = .ok mask) :
    subnetMask host p = .ok (some ⟨afInet, 0, byteswapOnLittleEndian host (~~~mask), 0⟩) := by
  rw [subnetMask, h]
  rfl

theorem networkAddress_of_error {e : Undefined} (hp : p.toNat ≤ 32)
    (h : createMask 32 p.toNat = .error e) : a.networkAddress host p = .error e := by
  rw [networkAddress, if_neg (by omega), h]
  rfl

theorem subnetMask_of_error {e : Undefined} (h : createMask 32 p.toNat = .error e) :
    subnetMask host p = .error e := by
  rw [subnetMask, h]
  rfl

theorem prefixLaw_of_mask (hp : p.toNat ≤ 32)
    (h : createMask 32 p.toNat = .ok (hostMask 32 p.toNat)) : PrefixLaw host a p := by
  have hmask : byteswapOnLittleEndian host
      (byteswapOnLittleEndian host (~~~hostMask 32 p.toNat)) = _ := swap_swap host (by decide) _
  refine ⟨fun _ => ⟨_, _, _, networkAddress_of_mask hp h, broadcastAddress_of_mask hp h,
    subnetMask_of_mask h, ?_, ?_, ?_, ?_, ?_, rfl, rfl⟩, fun hlarge => absurd hp (by omega)⟩
  · constructor
    · intro i hi
      rw [address, swap_and host (by decide), hmask, BitVec.getMsbD_and, getMsbD_not_hostMask hi,
        Bool.and_comm]
      rfl
    · intro i hi
      rw [address, swap_or host (by decide), swap_swap host (by decide), BitVec.getMsbD_or,
        getMsbD_hostMask hi, Bool.or_comm]
      rfl
    · intro i hi
      rw [address, hmask, getMsbD_not_hostMask hi]
  · rw [address, swap_and host (by decide)]
    rfl
  · rw [address, address, address, hmask, swap_or host (by decide), swap_and host (by decide),
      swap_swap host (by decide), hmask, BitVec.not_not]
    apply BitVec.eq_of_getMsbD_eq
    intro i hi
    simp only [BitVec.getMsbD_or, BitVec.getMsbD_and, getMsbD_not_hostMask hi, getMsbD_hostMask hi]
    by_cases hip : i < p.toNat <;> simp [hip, Nat.not_le.mpr, Nat.le_of_not_lt]
  · rw [networkAddress_of_mask hp h, BitVec.and_assoc, BitVec.and_self]
  · rw [broadcastAddress_of_mask hp h, BitVec.or_assoc, BitVec.or_self]

/-- The law of the three functions holds exactly for the prefixes from 2 to 32. -/
theorem ipv4_prefixLaw_iff (host : Endian) (a : SockaddrIn) (p : UInt32) :
    PrefixLaw host a p ↔ 2 ≤ p.toNat ∧ p.toNat ≤ 32 := by
  constructor
  · intro h
    by_contra hout
    rcases Nat.lt_or_ge 32 p.toNat with hlarge | hle
    · have hmask := (h.2 hlarge).2.2
      rw [subnetMask_of_error (createMask_over hlarge p.toNat_lt)] at hmask
      cases hmask
    · rcases h.1 hle with ⟨n, b, m, hn, -⟩
      have hcases : p.toNat = 0 ∨ p.toNat = 1 := by omega
      rcases hcases with hp | hp
      · rw [networkAddress_of_error hle (e := .shiftAmount) (by rw [hp]; decide)] at hn
        cases hn
      · rw [networkAddress_of_error hle (e := .signedOverflow) (by rw [hp]; decide)] at hn
        cases hn
  · rintro ⟨hlow, hle⟩
    exact prefixLaw_of_mask hle (createMask_ok hle (by omega))

-- where the difference wraps around, the mask of a prefix of one bit is the right one
example : BitVec.ofInt 32 (-2 ^ 31 - 1) = hostMask 32 1 := by decide

/-- 192.168.1.23 with the port 80. -/
def sample : SockaddrIn := ⟨afInet, 0x5000, 0x1701A8C0, 0⟩

/-- The prefix 0 shifts an `int` by its width, and `subnetMask` takes prefixes above 32. -/
theorem outer_prefixes_undefined :
    sample.networkAddress .little 0 = .error .shiftAmount ∧
    sample.broadcastAddress .little 0 = .error .shiftAmount ∧
    subnetMask .little 0 = .error .shiftAmount ∧ ¬PrefixLaw .little sample 0 ∧
    sample.networkAddress .little 33 = .ok none ∧
    subnetMask .little 33 = .error .shiftAmount ∧ ¬PrefixLaw .little sample 33 := by
  have hzero : sample.networkAddress .little 0 = .error .shiftAmount := by decide
  have hover : subnetMask .little 33 = .error .shiftAmount := by decide
  refine ⟨hzero, by decide, by decide, ?_, by decide, hover, ?_⟩
  · intro h
    rcases h.1 (by decide) with ⟨n, b, m, hn, -⟩
    rw [hzero] at hn
    cases hn
  · intro h
    have hmask := (h.2 (by decide)).2.2
    rw [hover] at hmask
    cases hmask

end SockaddrIn
end IPv4

section IPv6

variable {v : Vector UInt8 16} {x y : UInt8} {i n q : ℕ}

/-- A bit of the bytes, counted from the most significant one of the first byte. -/
def bit (v : Vector UInt8 16) (i : ℕ) : Bool := (v[i / 8]?.getD 0).toBitVec.getMsbD (i % 8)

theorem readByte_of_lt (h : i < 16) : readByte v i = .ok (v[i]?.getD 0) := by
  rw [readByte, dif_pos h, Vector.getElem?_eq_getElem h]
  rfl

theorem readByte_of_ge (h : 16 ≤ i) : readByte v i = .error .outOfBounds :=
  dif_neg (Nat.not_lt.mpr h)

theorem writeByte_of_lt (h : i < 16) : writeByte v i x = .ok (v.set i x h) := dif_pos h

theorem fillBytes_spec (x : UInt8) (v : Vector UInt8 16) (h : i + n ≤ 16) :
    ∃ w, fillBytes x n i v = .ok w ∧
      ∀ j, w[j]? = if i ≤ j ∧ j < i + n then some x else v[j]? := by
  induction n generalizing i v with
  | zero =>
    refine ⟨v, rfl, fun j => ?_⟩
    rw [if_neg (by omega)]
  | succ n ih =>
    rcases ih (v.set i x (by omega)) (i := i + 1) (by omega) with ⟨w, hw, hget⟩
    refine ⟨w, ?_, fun j => ?_⟩
    · rw [fillBytes, writeByte_of_lt (by omega)]
      exact hw
    · rw [hget, Vector.getElem?_set]
      split_ifs <;> first | rfl | omega

/-- The bytes in front of `q` stay, that at `q` becomes `y` and those behind it `x`. -/
theorem patch_spec (v : Vector UInt8 16) (x y : UInt8) (hq : q < 16) :
    ∃ w, fillBytes x (16 - (q + 1)) (q + 1) (v.set q y hq) = .ok w ∧
      ∀ j < 16, w[j]?.getD 0 = if j < q then v[j]?.getD 0 else if j = q then y else x := by
  rcases fillBytes_spec x (v.set q y hq) (i := q + 1) (n := 16 - (q + 1)) (by omega) with
    ⟨w, hw, hget⟩
  refine ⟨w, hw, fun j hj => ?_⟩
  rw [hget, Vector.getElem?_set]
  split_ifs <;> first | rfl | omega

theorem getMsbD_ones (h : i < 8) : (0xff : UInt8).toBitVec.getMsbD i = true := by
  have hones : (0xff : UInt8).toBitVec = hostMask 8 0 := by decide
  rw [hones, getMsbD_hostMask h]
  exact decide_eq_true (Nat.zero_le i)

/-- The bits of bytes that change at the byte `p / 8`. -/
theorem bit_of_patch {w : Vector UInt8 16} {p : ℕ} {f : ℕ → UInt8} (hi : i < 128)
    (hget : ∀ j < 16, w[j]?.getD 0 = if j < p / 8 then f j else if j = p / 8 then y else x) :
    bit w i = if i < p / 8 * 8 then (f (i / 8)).toBitVec.getMsbD (i % 8)
      else if i < p / 8 * 8 + 8 then y.toBitVec.getMsbD (i % 8)
      else x.toBitVec.getMsbD (i % 8) := by
  rw [bit, hget _ (by omega)]
  split_ifs <;> first | rfl | omega

namespace SockaddrIn6

/-- What the three functions should do for a prefix. -/
def PrefixLaw (a : SockaddrIn6) (p : UInt32) : Prop :=
  (p.toNat ≤ 128 → ∃ n b m, a.networkAddress p = .ok (some n) ∧
    a.broadcastAddress p = .ok (some b) ∧ subnetMask p = .ok (some m) ∧
    Divides 128 p.toNat (bit a.addr) (bit n.addr) (bit b.addr) (bit m.addr)) ∧
  (128 < p.toNat → a.networkAddress p = .ok none ∧ a.broadcastAddress p = .ok none ∧
    subnetMask p = .ok none)

variable {a : SockaddrIn6} {p : UInt32}

theorem createMask_byte (p : ℕ) : createMask 8 (p % 8) = .ok (hostMask 8 (p % 8)) :=
  createMask_ok (by omega) (by omega)

theorem networkAddress_spec (hp : p.toNat < 128) : ∃ n, a.networkAddress p = .ok (some n) ∧
    ∀ i < 128, bit n.addr i = (decide (i < p.toNat) && bit a.addr i) := by
  have hq : p.toNat / 8 < 16 := by omega
  rcases patch_spec a.addr 0x00 (a.addr[p.toNat / 8]?.getD 0 &&&
    .ofBitVec (~~~hostMask 8 (p.toNat % 8))) hq with ⟨w, hw, hget⟩
  refine ⟨{ a with addr := w }, ?_, fun i hi => ?_⟩
  · simp only [networkAddress, createMask_byte, readByte_of_lt hq, writeByte_of_lt hq, bind,
      Except.bind, hw]
    rfl
  · have hmask : (~~~hostMask 8 (p.toNat % 8)).getMsbD (i % 8) = decide (i % 8 < p.toNat % 8) :=
      getMsbD_not_hostMask (Nat.mod_lt i (by decide))
    rw [bit_of_patch hi hget]
    split_ifs with hfront hbyte
    · rw [decide_eq_true (by omega), Bool.true_and]
      rfl
    · have hplace : i / 8 = p.toNat / 8 := by omega
      rw [UInt8.toBitVec_and, BitVec.getMsbD_and, UInt8.toBitVec_ofBitVec, hmask, Bool.and_comm,
        ← hplace]
      congr 1
      exact decide_eq_decide.mpr (by omega)
    · rw [decide_eq_false (by omega), Bool.false_and]
      exact BitVec.getMsbD_zero

theorem broadcastAddress_spec (hp : p.toNat < 128) : ∃ b, a.broadcastAddress p = .ok (some b) ∧
    ∀ i < 128, bit b.addr i = (decide (p.toNat ≤ i) || bit a.addr i) := by
  have hq : p.toNat / 8 < 16 := by omega
  rcases patch_spec a.addr 0xff (a.addr[p.toNat / 8]?.getD 0 |||
    .ofBitVec (hostMask 8 (p.toNat % 8))) hq with ⟨w, hw, hget⟩
  refine ⟨{ a with addr := w }, ?_, fun i hi => ?_⟩
  · simp only [broadcastAddress, createMask_byte, readByte_of_lt hq, writeByte_of_lt hq, bind,
      Except.bind, hw]
    rfl
  · have hmod : i % 8 < 8 := Nat.mod_lt i (by decide)
    have hmask : (hostMask 8 (p.toNat % 8)).getMsbD (i % 8) = decide (p.toNat % 8 ≤ i % 8) :=
      getMsbD_hostMask hmod
    rw [bit_of_patch hi hget]
    split_ifs with hfront hbyte
    · rw [decide_eq_false (by omega), Bool.false_or]
      rfl
    · have hplace : i / 8 = p.toNat / 8 := by omega
      rw [UInt8.toBitVec_or, BitVec.getMsbD_or, UInt8.toBitVec_ofBitVec, hmask, Bool.or_comm,
        ← hplace]
      congr 1
      exact decide_eq_decide.mpr (by omega)
    · rw [decide_eq_true (by omega), Bool.true_or]
      exact getMsbD_ones hmod

theorem subnetMask_spec (hp : p.toNat < 128) : ∃ m, subnetMask p = .ok (some m) ∧
    ∀ i < 128, bit m.addr i = decide (i < p.toNat) := by
  have hq : p.toNat / 8 < 16 := by omega
  rcases fillBytes_spec 0xff ((Vector.replicate 16 0).set (p.toNat / 8)
    (.ofBitVec (~~~hostMask 8 (p.toNat % 8))) hq) (i := 0) (n := p.toNat / 8) (by omega) with
    ⟨w, hw, hget⟩
  refine ⟨⟨afInet6, 0, 0, w, 0⟩, ?_, fun i hi => ?_⟩
  · simp only [subnetMask, createMask_byte, writeByte_of_lt hq, bind, Except.bind, hw]
    rfl
  · have hmod : i % 8 < 8 := Nat.mod_lt i (by decide)
    have hmask : (~~~hostMask 8 (p.toNat % 8)).getMsbD (i % 8) = decide (i % 8 < p.toNat % 8) :=
      getMsbD_not_hostMask hmod
    have hpatch : ∀ j < 16, w[j]?.getD 0 = if j < p.toNat / 8 then 0xff
        else if j = p.toNat / 8 then .ofBitVec (~~~hostMask 8 (p.toNat % 8)) else 0 := by
      intro j hj
      rw [hget, Vector.getElem?_set]
      split_ifs <;> first | rfl | omega | simp [hj]
    rw [bit_of_patch hi hpatch]
    split_ifs with hfront hbyte
    · rw [decide_eq_true (by omega)]
      exact getMsbD_ones hmod
    · rw [UInt8.toBitVec_ofBitVec, hmask]
      exact decide_eq_decide.mpr (by omega)
    · rw [decide_eq_false (by omega)]
      exact BitVec.getMsbD_zero

theorem networkAddress_out (hp : 128 ≤ p.toNat) : a.networkAddress p = .error .outOfBounds := by
  have hq : 16 ≤ p.toNat / 8 := by omega
  simp only [networkAddress, createMask_byte, readByte_of_ge hq, bind, Except.bind]

/-- The law of the three functions holds exactly for the prefixes below 128. -/
theorem ipv6_prefixLaw_iff (a : SockaddrIn6) (p : UInt32) : PrefixLaw a p ↔ p.toNat < 128 := by
  constructor
  · intro h
    by_contra hlarge
    have hout := networkAddress_out (a := a) (Nat.not_lt.mp hlarge)
    rcases Nat.lt_or_ge 128 p.toNat with hgt | hle
    · rw [(h.2 hgt).1] at hout
      cases hout
    · rcases h.1 hle with ⟨n, b, m, hn, -⟩
      rw [hn] at hout
      cases hout
  · intro hp
    rcases networkAddress_spec (a := a) hp with ⟨n, hn, hnetwork⟩
    rcases broadcastAddress_spec (a := a) hp with ⟨b, hb, hbroadcast⟩
    rcases subnetMask_spec hp with ⟨m, hm, hmask⟩
    exact ⟨fun _ => ⟨n, b, m, hn, hb, hm, hnetwork, hbroadcast, hmask⟩, fun hgt => by omega⟩

def loopback : SockaddrIn6 := ⟨afInet6, 0, 0, (Vector.replicate 16 0).set 15 1, 0⟩

/-- The prefix 128 indexes the byte behind the address, and so do all above it. -/
theorem full_prefix_out_of_bounds :
    loopback.networkAddress 128 = .error .outOfBounds ∧
    loopback.broadcastAddress 128 = .error .outOfBounds ∧
    subnetMask 128 = .error .outOfBounds ∧ ¬PrefixLaw loopback 128 ∧
    loopback.networkAddress 129 = .error .outOfBounds ∧ ¬PrefixLaw loopback 129 := by
  have hfull : loopback.networkAddress 128 = .error .outOfBounds := by decide
  have hover : loopback.networkAddress 129 = .error .outOfBounds := by decide
  refine ⟨hfull, by decide, by decide, ?_, hover, ?_⟩
  · intro h
    rcases h.1 (by decide) with ⟨n, b, m, hn, -⟩
    rw [hfull] at hn
    cases hn
  · intro h
    have hnull := (h.2 (by decide)).1
    rw [hover] at hnull
    cases hnull

end SockaddrIn6
end IPv6
end Sylar.Net
