import Sylar.ByteArray.Cells

/-! # What the typed accesses do to the byte sequence

Each write appends the bytes of its value, each read consumes them. The stored
bytes depend on the array's byte order only, not on the host's.
-/
namespace Sylar.ByteArray
open Memory Codec

variable {b w : ℕ} {s : ByteArray} {l r : List UInt8} {host : Endian}

/-- All of `l` has been written and the cursor stands behind it. -/
def Written (b : ℕ) (s : ByteArray) (l : List UInt8) : Prop :=
  ∃ f, Refines b s f ∧ f.data = l ∧ f.pos = l.length

/-- The bytes from the cursor on are `l`. -/
def Unread (b : ℕ) (s : ByteArray) (l : List UInt8) : Prop :=
  ∃ f, Refines b s f ∧ f.data.drop f.pos = l

theorem new_written (hb : 0 < b) : Written b (new b) [] := ⟨Flat.empty, new_refines hb, rfl, rfl⟩

theorem Written.position (h : Written b s l) : s.position = l.length := by
  obtain ⟨f, hr, -, hpos⟩ := h
  rw [hr.position, hpos]

theorem Written.write (h : Written b s l) (buf : List UInt8) :
    ∃ s', ByteArray.write buf s = .done () s' ∧ Written b s' (l ++ buf) ∧
      s'.endian = s.endian := by
  obtain ⟨f, hr, rfl, hpos⟩ := h
  obtain ⟨s', hrun, hr', hend⟩ := hr.write buf
  refine ⟨s', hrun, ⟨_, hr', ?_, ?_⟩, hend⟩
  · dsimp only [Flat.write, splice]
    rw [hpos, List.take_length, List.drop_eq_nil_of_le (by omega), List.append_nil]
  · dsimp only [Flat.write]
    rw [hpos, List.length_append]

theorem Written.rewind (h : Written b s l) :
    ∃ s', setPosition 0 s = .done () s' ∧ Unread b s' l ∧ s'.endian = s.endian := by
  obtain ⟨f, hr, hdata, -⟩ := h
  obtain ⟨s', hrun, hr', hend⟩ := hr.setPosition (Nat.zero_le _)
  refine ⟨s', hrun, ⟨_, hr', ?_⟩, hend⟩
  rw [Flat.seek, dif_pos (Nat.zero_le _), List.drop_zero, hdata]

theorem Unread.sizeForRead (h : Unread b s l) : s.getSizeForRead = l.length := by
  obtain ⟨f, hr, hrest⟩ := h
  obtain ⟨as, hl, -⟩ := hr.stored
  rw [hl.sizeForRead, hr.size, hr.position, ← hrest, List.length_drop]

/-- The bytes ahead, and what is left of them as the cursor moves. -/
theorem Unread.ahead (h : Unread b s (l ++ r)) :
    ∃ as, Layout b s as ∧ unread s as = (l ++ r).map some ∧ Unread b (advance as l.length s) r := by
  obtain ⟨f, hr, hrest⟩ := h
  obtain ⟨as, hl, hc⟩ := hr.stored
  have hcells : unread s as = (l ++ r).map some := by
    rw [unread, hr.take_drop hc le_rfl, Flat.slice, ← hrest, hr.size, hr.position,
      ← List.length_drop, List.take_length]
  have hlen : f.data.length - f.pos = l.length + r.length := by
    rw [← List.length_drop, hrest, List.length_append]
  have hle := f.pos_le
  have hl' : Layout b (advance as l.length s) as := hl.advance (by simp [hcells])
  have hin : s.position + l.length ≤ f.data.length := by
    rw [hr.position]
    omega
  refine ⟨as, hl, hcells, f.seek (s.position + l.length), hr.seek hin hl' hc, ?_⟩
  rw [Flat.seek, dif_pos hin]
  dsimp only
  rw [hr.position, ← List.drop_drop, hrest, List.drop_left]

theorem Unread.setEndian (h : Unread b s l) (e : Endian) : Unread b { s with endian := e } l := by
  obtain ⟨f, hr, hrest⟩ := h
  obtain ⟨as, hl, hc⟩ := hr.stored
  exact ⟨f, ⟨hr.position, hr.size, as, ⟨hl.base, hl.spine, hl.length_pos, hl.capacity,
    hl.position_le, hl.size_le, hl.cur⟩, hc⟩, hrest⟩

theorem Written.setEndian (h : Written b s l) (e : Endian) :
    Written b { s with endian := e } l := by
  obtain ⟨f, hr, hrest⟩ := h
  obtain ⟨as, hl, hc⟩ := hr.stored
  exact ⟨f, ⟨hr.position, hr.size, as, ⟨hl.base, hl.spine, hl.length_pos, hl.capacity,
    hl.position_le, hl.size_le, hl.cur⟩, hc⟩, hrest⟩

section Fixed

@[simp] theorem length_objectBytes (v : BitVec w) : (objectBytes host v).length = w / 8 := by
  cases host <;> simp [objectBytes]

theorem ofObjectBytes_objectBytes (hw : 8 ∣ w) (v : BitVec w) :
    ofObjectBytes host w (objectBytes host v) = v := by
  cases host <;> simp [ofObjectBytes, objectBytes, ofNat_natOf_bytesOf hw]

/-- Swapping when the orders differ stores the bytes in the array's order. -/
theorem objectBytes_swapped (host : Endian) (hw : 8 ∣ w) (e : Endian) (v : BitVec w) :
    objectBytes host (if e ≠ host then byteswap v else v) = objectBytes e v := by
  cases e <;> cases host <;> simp [objectBytes, bytesOf_byteswap hw]

theorem object_objectBytes (hw : 8 ∣ w) (e : Endian) (v : BitVec w) (r : List Cell) :
    object e w ((objectBytes e v).map some ++ r) = some v := by
  have hlen : ((objectBytes e v).map some : List Cell).length = w / 8 := by simp
  rw [object, ← hlen, List.take_left, mapM_id_map_some, Option.map_some,
    ofObjectBytes_objectBytes hw]

theorem readObject_spec (hw : 8 ∣ w) (h0 : 0 < w) (v : BitVec w)
    (h : Unread b s (objectBytes host v ++ r)) :
    ∃ s', readObject host w s = .done v s' ∧ Unread b s' r ∧ s'.endian = s.endian := by
  obtain ⟨as, hl, hcells, hrest⟩ := h.ahead
  have hpos : 0 < w / 8 := Nat.div_pos (Nat.le_of_dvd h0 hw) (by decide)
  have hrun := readObject_apply host hl hpos (by simp [hcells])
  rw [hcells, List.map_append, object_objectBytes hw] at hrun
  rw [length_objectBytes] at hrest
  exact ⟨_, hrun, hrest, rfl⟩

theorem writeFixed_apply (hw : 8 ∣ w) (v : BitVec w) (s : ByteArray) :
    writeFixed host v s = write (objectBytes s.endian v) s := by
  rw [writeFixed, Command.state_bind_apply, objectBytes_swapped host hw]

theorem writeFixed_spec (hw : 8 ∣ w) (v : BitVec w) (h : Written b s l) :
    ∃ s', writeFixed host v s = .done () s' ∧ Written b s' (l ++ objectBytes s.endian v) ∧
      s'.endian = s.endian := by
  rw [writeFixed_apply hw]
  exact h.write _

theorem readFixed_spec (hw : 8 ∣ w) (h0 : 0 < w) (v : BitVec w)
    (h : Unread b s (objectBytes s.endian v ++ r)) :
    ∃ s', readFixed host w s = .done v s' ∧ Unread b s' r ∧ s'.endian = s.endian := by
  obtain ⟨as, hl, hcells, hrest⟩ := h.ahead
  have hrun := readFixed_apply host hl hw h0 (by simp [hcells])
  rw [hcells, List.map_append, object_objectBytes hw] at hrun
  rw [length_objectBytes] at hrest
  exact ⟨_, hrun, hrest, rfl⟩

/-- A single byte is the same in either order. -/
theorem objectBytes_byte (e₁ e₂ : Endian) (v : BitVec 8) : objectBytes e₁ v = objectBytes e₂ v := by
  cases e₁ <;> cases e₂ <;> simp [objectBytes, bytesOf]

end Fixed

section Varint

theorem le_toNat_iff (hw : 8 ≤ w) (v : BitVec w) : 0x80#w ≤ v ↔ 128 ≤ v.toNat := by
  have h : (2 : ℕ) ^ 8 ≤ 2 ^ w := Nat.pow_le_pow_right (by decide) hw
  rw [BitVec.le_def, BitVec.toNat_ofNat, Nat.mod_eq_of_lt (by omega)]

/-- The byte stored for a group that is not the last. -/
theorem group_byte (hw : 8 ≤ w) (v : BitVec w) :
    UInt8.ofBitVec (((v &&& 0x7F#w) ||| 0x80#w).setWidth 8) =
      UInt8.ofNat (v.toNat % 128 + 128) := by
  have h : (2 : ℕ) ^ 8 ≤ 2 ^ w := Nat.pow_le_pow_right (by decide) hw
  apply UInt8.toNat_inj.mp
  have hmask : v.toNat &&& 127 = v.toNat % 128 := Nat.and_two_pow_sub_one_eq_mod v.toNat 7
  have hor : v.toNat % 128 ||| 128 = v.toNat % 128 + 128 := by
    rw [Nat.or_comm, ← Nat.two_pow_add_eq_or_of_lt (i := 7) (Nat.mod_lt _ (by decide)) 1]
    omega
  simp only [UInt8.toNat_ofBitVec, BitVec.toNat_setWidth, BitVec.toNat_or, BitVec.toNat_and,
    BitVec.toNat_ofNat, UInt8.toNat_ofNat', Nat.mod_eq_of_lt (show 127 < 2 ^ w by omega),
    Nat.mod_eq_of_lt (show 128 < 2 ^ w by omega), hmask, hor]

theorem encodeLoop_spec (hw : 8 ≤ w) (room : ℕ) (v : BitVec w) (tmp : List UInt8)
    (hroom : (leb128 v.toNat).length ≤ room) :
    encodeLoop room v tmp s = .done (tmp ++ leb128 v.toNat) s := by
  induction room generalizing v tmp with
  | zero =>
    rw [length_leb128] at hroom
    omega
  | succ room ih =>
    rw [encodeLoop]
    by_cases h : 128 ≤ v.toNat
    · rw [if_pos ((le_toNat_iff hw v).mpr h), group_byte hw]
      have hshift : (v >>> 7).toNat = v.toNat / 128 := by
        rw [BitVec.toNat_ushiftRight, Nat.shiftRight_eq_div_pow]
      rw [leb128_of_ge h, List.length_cons] at hroom
      rw [ih (v >>> 7) _ (by rw [hshift]; omega), hshift, leb128_of_ge h]
      simp
    · rw [if_neg (mt (le_toNat_iff hw v).mp h), leb128_of_lt (by omega), Command.pure_apply]
      congr 2
      simp [← UInt8.toNat_inj]

theorem writeVarint_apply {room : ℕ} (hw : 8 ≤ w) (hroom : w ≤ 7 * room) (v : BitVec w)
    (s : ByteArray) : writeVarint room v s = write (leb128 v.toNat) s := by
  have hfit : (leb128 v.toNat).length ≤ room :=
    length_leb128_le (by omega) (v.isLt.trans_le (Nat.pow_le_pow_right (by decide) hroom))
  rw [writeVarint, Command.bind_done (encodeLoop_spec hw room v [] hfit), List.nil_append]

theorem writeVarint_spec {room : ℕ} (hw : 8 ≤ w) (hroom : w ≤ 7 * room) (v : BitVec w)
    (h : Written b s l) :
    ∃ s', writeVarint room v s = .done () s' ∧ Written b s' (l ++ leb128 v.toNat) ∧
      s'.endian = s.endian := by
  rw [writeVarint_apply hw hroom]
  exact h.write _

/-- Adding a group above the bits decoded so far. -/
theorem or_group {result : BitVec w} {i : ℕ} (hi : result.toNat < 2 ^ i) {x : BitVec 8} {n : ℕ}
    (hx : x.toNat = n) (hn : result.toNat + n * 2 ^ i < 2 ^ w) :
    (result ||| (x.setWidth w <<< i)).toNat = result.toNat + n * 2 ^ i := by
  have hpos : 0 < 2 ^ i := Nat.two_pow_pos i
  have hnw : n < 2 ^ w := by
    calc n ≤ n * 2 ^ i := Nat.le_mul_of_pos_right n hpos
      _ < 2 ^ w := by omega
  rw [BitVec.toNat_or, BitVec.toNat_shiftLeft, BitVec.toNat_setWidth, hx, Nat.mod_eq_of_lt hnw,
    Nat.shiftLeft_eq, Nat.mod_eq_of_lt (by omega), Nat.or_comm, ← Nat.shiftLeft_eq,
    ← Nat.shiftLeft_add_eq_or_of_lt hi, Nat.add_comm]

/-- The digits of a number are read back, whatever follows them. -/
theorem varint_leb128 (fuel i n : ℕ) (result : BitVec w) (r : List Cell) (hi : i < w)
    (hfuel : w ≤ fuel + i) (hres : result.toNat < 2 ^ i)
    (hn : result.toNat + n * 2 ^ i < 2 ^ w) :
    varint fuel i result ((leb128 n).map some ++ r) =
      some (BitVec.ofNat w (result.toNat + n * 2 ^ i), (leb128 n).length) := by
  induction fuel generalizing i n result with
  | zero => omega
  | succ fuel ih =>
    by_cases hlt : n < 128
    · have hbyte : (UInt8.ofNat n).toNat = n := by
        rw [UInt8.toNat_ofNat']
        omega
      rw [leb128_of_lt hlt, List.map_singleton, List.singleton_append, varint_some hi,
        if_pos (by rw [UInt8.lt_iff_toNat_lt, hbyte]; exact hlt)]
      congr 2
      apply BitVec.eq_of_toNat_eq
      rw [or_group hres hbyte hn, BitVec.toNat_ofNat, Nat.mod_eq_of_lt hn]
    · have hbyte : (UInt8.ofNat (n % 128 + 128)).toNat = n % 128 + 128 := by
        rw [UInt8.toNat_ofNat']
        omega
      have hmask : (UInt8.ofNat (n % 128 + 128) &&& 0x7f).toNat = n % 128 := by
        have hand := Nat.and_two_pow_sub_one_eq_mod (n % 128 + 128) 7
        rw [UInt8.toNat_and, hbyte]
        exact hand.trans (by omega)
      have hsplit : n * 2 ^ i = n % 128 * 2 ^ i + n / 128 * 2 ^ (i + 7) := by
        have hdm := Nat.div_add_mod' n 128
        calc n * 2 ^ i = (n / 128 * 128 + n % 128) * 2 ^ i := by rw [hdm]
          _ = n % 128 * 2 ^ i + n / 128 * 2 ^ (i + 7) := by rw [pow_add]; ring
      have hgroup := or_group hres hmask (by omega)
      have hi7 : i + 7 < w := by
        by_contra hge
        have h1 : 2 ^ w ≤ 2 ^ (i + 7) := Nat.pow_le_pow_right (by decide) (by omega)
        have h2 : 2 ^ (i + 7) ≤ n / 128 * 2 ^ (i + 7) := Nat.le_mul_of_pos_left _ (by omega)
        omega
      have hres' : result.toNat + n % 128 * 2 ^ i < 2 ^ (i + 7) := by
        have hmod : n % 128 < 128 := Nat.mod_lt _ (by decide)
        have hmul : n % 128 * 2 ^ i ≤ 127 * 2 ^ i := Nat.mul_le_mul_right _ (by omega)
        rw [pow_add]
        omega
      rw [leb128_of_ge (by omega), List.map_cons, List.cons_append, varint_some hi,
        if_neg (by rw [UInt8.lt_iff_toNat_lt, hbyte]; exact Nat.not_lt.mpr (Nat.le_add_left _ _)),
        ih (i + 7) (n / 128) _ hi7 (by omega) (by rw [hgroup]; exact hres')
          (by rw [hgroup]; omega), Option.map_some, hgroup, hsplit, Nat.add_assoc, List.length_cons]

theorem varint_number (hw : 0 < w) {n : ℕ} (hn : n < 2 ^ w) (r : List Cell) :
    varint w 0 (0 : BitVec w) ((leb128 n).map some ++ r) =
      some (BitVec.ofNat w n, (leb128 n).length) := by
  have hvalue := varint_leb128 w 0 n (0 : BitVec w) r hw le_rfl (by simp) (by simpa using hn)
  simpa using hvalue

theorem decodeLoop_spec (host : Endian) (n : ℕ) (s : ByteArray) (hw : 0 < w) (hn : n < 2 ^ w)
    (h : Unread b s (leb128 n ++ r)) :
    ∃ s', decodeLoop host w 0 0 s = .done (BitVec.ofNat w n) s' ∧ Unread b s' r ∧
      s'.endian = s.endian := by
  obtain ⟨as, hl, hcells, hrest⟩ := h.ahead
  have hvalue := varint_number hw hn (r.map some)
  rw [← List.map_append, ← hcells] at hvalue
  exact ⟨_, (decodeLoop_of_some _ w 0 0 hl hvalue).1, hrest, rfl⟩

end Varint

end Sylar.ByteArray
