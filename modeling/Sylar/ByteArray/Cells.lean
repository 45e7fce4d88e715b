import Sylar.ByteArray.Numeric

/-! # What the typed reads make of the bytes ahead

A typed read is a function of the bytes from the cursor on: they are too few, or not all of them
have been written, or they hold a number. A number of variable length is read byte by byte, so
that the cursor has moved when its bytes turn out to be too few.
-/
namespace Sylar.ByteArray
open Memory Codec

variable {b w : ℕ} {s : ByteArray} {as : List ℕ} {host : Endian} {cells : List Cell}

/-- The integer in front, its bytes in the order `e`. -/
def object (e : Endian) (w : ℕ) (cells : List Cell) : Option (BitVec w) :=
  ((cells.take (w / 8)).mapM id).map (ofObjectBytes e w)

/-- The result of an access to the `n` bytes ahead. -/
def found {α : Type} (as : List ℕ) (n : ℕ) (s : ByteArray) :
    Option α → Outcome Exception ByteArray α
  | some v => .done v (advance as n s)
  | none => .fault .indeterminateValue

theorem mapM_id_map_some {α : Type} (l : List α) : (l.map some).mapM id = some l := by
  induction l with
  | nil => rfl
  | cons x l ih => simp [ih]

theorem exists_of_mapM_id {l : List UInt8} (h : cells.mapM id = some l) : cells = l.map some := by
  induction cells generalizing l with
  | nil =>
    cases h
    rfl
  | cons c cells ih =>
    cases c with
    | none => simp at h
    | some x =>
      cases hrest : cells.mapM id with
      | none => simp [hrest] at h
      | some l' =>
        simp only [List.mapM_cons, id_eq, hrest] at h
        cases h
        rw [ih hrest]
        rfl

section Fixed

theorem readObject_apply (host : Endian) (hl : Layout b s as) (hw : 0 < w / 8)
    (hle : w / 8 ≤ (unread s as).length) :
    readObject host w s = found as (w / 8) s (object host w (unread s as)) := by
  rw [readObject, Command.bind_done (read_done hl hw hle), load, object]
  cases ((unread s as).take (w / 8)).mapM id with
  | none => rfl
  | some l => rfl

theorem readObject_short (hl : Layout b s as) (h : (unread s as).length < w / 8) :
    readObject host w s = .raised (.outOfRange "not enough len to read") s := by
  rw [readObject, Command.bind_raised (read_short hl h)]

/-- The swap after the read gives the number in the array's order. -/
theorem ofObjectBytes_swapped (host : Endian) (hw : 8 ∣ w) {l : List UInt8} (hl : l.length = w / 8)
    (e : Endian) :
    (if e = host then ofObjectBytes host w l else byteswap (ofObjectBytes host w l)) =
      ofObjectBytes e w l := by
  have hpow : 256 ^ (w / 8) = 2 ^ w := by
    rw [show (256 : ℕ) = 2 ^ 8 by rfl, ← pow_mul, Nat.mul_div_cancel' hw]
  have hbytes {l : List UInt8} (hl : l.length = w / 8) :
      bytesOf (w / 8) (BitVec.ofNat w (natOf l)).toNat = l := by
    have hlt := natOf_lt l
    rw [hl, hpow] at hlt
    rw [BitVec.toNat_ofNat, Nat.mod_eq_of_lt hlt, ← hl, bytesOf_natOf]
  have hswap {l : List UInt8} (hl : l.length = w / 8) :
      byteswap (BitVec.ofNat w (natOf l)) = BitVec.ofNat w (natOf l.reverse) := by
    rw [byteswap, hbytes hl]
  have hrev := hswap (l := l.reverse) (by rw [List.length_reverse, hl])
  rw [List.reverse_reverse] at hrev
  cases e <;> cases host <;> simp [ofObjectBytes, hswap hl, hrev]

theorem readFixed_apply (host : Endian) (hl : Layout b s as) (hw : 8 ∣ w) (h0 : 0 < w)
    (hle : w / 8 ≤ (unread s as).length) :
    readFixed host w s = found as (w / 8) s (object s.endian w (unread s as)) := by
  have hpos : 0 < w / 8 := Nat.div_pos (Nat.le_of_dvd h0 hw) (by decide)
  have hobject := readObject_apply host hl hpos hle
  rw [object] at hobject ⊢
  cases hbytes : ((unread s as).take (w / 8)).mapM id with
  | none =>
    rw [hbytes] at hobject
    rw [readFixed, Command.bind_fault hobject]
    rfl
  | some l =>
    have hlen : l.length = w / 8 := by
      have := congrArg List.length (exists_of_mapM_id hbytes)
      rw [List.length_take, List.length_map] at this
      omega
    rw [hbytes] at hobject
    have hvalue := ofObjectBytes_swapped host hw hlen s.endian
    rw [readFixed, Command.bind_done hobject, Command.state_bind_apply, Option.map_some, found,
      ← hvalue, Command.ite_apply]
    change (if s.endian = host then _ else _) = _
    split_ifs
    · rfl
    · rfl

theorem readFixed_short (hl : Layout b s as) (h : (unread s as).length < w / 8) :
    readFixed host w s = .raised (.outOfRange "not enough len to read") s := by
  rw [readFixed, Command.bind_raised (readObject_short hl h)]

end Fixed

section Varint

theorem readFuint8_nil (hl : Layout b s as) (h : unread s as = []) :
    readFuint8 host s = .raised (.outOfRange "not enough len to read") s := by
  rw [readFuint8, Command.bind_raised (readObject_short hl (by simp [h]))]

theorem readFuint8_cons (host : Endian) (hl : Layout b s as) {c : Cell} {r : List Cell}
    (h : unread s as = c :: r) : readFuint8 host s = found as 1 s c := by
  have hobject := readObject_apply (w := 8) host hl (by decide) (by simp [h])
  rw [object, h] at hobject
  cases c with
  | none => rw [readFuint8, Command.bind_fault hobject, found]
  | some x =>
    have hbyte : ofObjectBytes host 8 [x] = x.toBitVec := by
      apply BitVec.eq_of_toNat_eq
      have hx := x.toNat_lt
      cases host <;> simp [ofObjectBytes, natOf]
    rw [readFuint8, Command.bind_done hobject, Command.pure_apply]
    change Outcome.done (UInt8.ofBitVec (ofObjectBytes host 8 [x])) _ = _
    rw [hbyte]
    rfl

/-- The number in front and the bytes it takes, if it is there as a whole. -/
def varint : ℕ → ℕ → BitVec w → List Cell → Option (BitVec w × ℕ)
  | 0, _, _, _ => none
  | fuel + 1, i, result, cells =>
    if i < w then
      match cells with
      | [] => none
      | none :: _ => none
      | some x :: cells =>
        if x < 0x80 then some (result ||| (x.toBitVec.setWidth w <<< i), 1)
        else (varint fuel (i + 7) (result ||| ((x &&& 0x7f).toBitVec.setWidth w <<< i)) cells).map
          fun p => (p.1, p.2 + 1)
    else some (result, 0)

section Steps

variable {fuel i : ℕ} {result : BitVec w}

theorem varint_nil (hi : i < w) : varint (fuel + 1) i result [] = none := by
  simp [varint, hi]

theorem varint_none (hi : i < w) : varint (fuel + 1) i result (none :: cells) = none := by
  simp [varint, hi]

theorem varint_some (hi : i < w) (x : UInt8) :
    varint (fuel + 1) i result (some x :: cells) =
      if x < 0x80 then some (result ||| (x.toBitVec.setWidth w <<< i), 1)
      else (varint fuel (i + 7) (result ||| ((x &&& 0x7f).toBitVec.setWidth w <<< i)) cells).map
        fun p => (p.1, p.2 + 1) := by
  simp only [varint, if_pos hi]

theorem varint_end (hi : ¬i < w) : varint (fuel + 1) i result cells = some (result, 0) := by
  simp [varint, hi]

end Steps

/-- A number that is there as a whole is read. -/
theorem decodeLoop_of_some (host : Endian) (fuel i : ℕ) (result : BitVec w) {v : BitVec w} {n : ℕ}
    (hl : Layout b s as) (h : varint fuel i result (unread s as) = some (v, n)) :
    decodeLoop host fuel i result s = .done v (advance as n s) ∧ n ≤ (unread s as).length := by
  induction fuel generalizing i result s n with
  | zero => cases h
  | succ fuel ih =>
    rw [decodeLoop]
    by_cases hi : i < w
    · rw [if_pos hi]
      cases hcells : unread s as with
      | nil =>
        rw [hcells, varint_nil hi] at h
        cases h
      | cons c cells =>
        have hread := readFuint8_cons host hl hcells
        rw [hcells] at h
        cases c with
        | none =>
          rw [varint_none hi] at h
          cases h
        | some x =>
          rw [varint_some hi] at h
          rw [Command.bind_done hread]
          by_cases hx : x < 0x80
          · rw [if_pos hx] at h ⊢
            cases h
            exact ⟨rfl, by simp⟩
          · rw [if_neg hx] at h ⊢
            rcases Option.map_eq_some_iff.mp h with ⟨⟨v', n'⟩, hrest, hp⟩
            cases hp
            have hl' : Layout b (advance as 1 s) as := hl.advance (by simp [hcells])
            have hcells' : unread (advance as 1 s) as = cells := by
              rw [unread_advance, hcells, List.drop_one, List.tail_cons]
            rw [← hcells'] at hrest
            rcases ih (i + 7) _ hl' hrest with ⟨hrun, hn⟩
            rw [hcells'] at hn
            rw [hrun, advance_advance, Nat.add_comm]
            exact ⟨rfl, by simpa using hn⟩
    · rw [varint_end hi] at h
      rw [if_neg hi]
      cases h
      rw [advance_zero hl]
      exact ⟨rfl, Nat.zero_le _⟩

/-- A number that is not there as a whole: the bytes that are have been read. -/
theorem decodeLoop_of_none (host : Endian) (fuel i : ℕ) (result : BitVec w)
    (hfuel : w + 7 ≤ i + 7 * fuel) (hw : i < w)
    (hl : Layout b s as) (h : varint fuel i result (unread s as) = none) :
    decodeLoop host fuel i result s = .raised (.outOfRange "not enough len to read")
        (advance as (unread s as).length s) ∨
      decodeLoop host fuel i result s = .fault .indeterminateValue := by
  induction fuel generalizing i result s with
  | zero => omega
  | succ fuel ih =>
    rw [decodeLoop, if_pos hw]
    cases hcells : unread s as with
    | nil =>
      left
      rw [Command.bind_raised (readFuint8_nil hl hcells), List.length_nil, advance_zero hl]
    | cons c cells =>
      have hread := readFuint8_cons host hl hcells
      cases c with
      | none =>
        right
        rw [Command.bind_fault hread]
      | some x =>
        rw [hcells, varint_some hw] at h
        rw [Command.bind_done hread]
        by_cases hx : x < 0x80
        · rw [if_pos hx] at h
          cases h
        · rw [if_neg hx] at h ⊢
          have hl' : Layout b (advance as 1 s) as := hl.advance (by simp [hcells])
          have hcells' : unread (advance as 1 s) as = cells := by
            rw [unread_advance, hcells, List.drop_one, List.tail_cons]
          rw [Option.map_eq_none_iff, ← hcells'] at h
          have hi : i + 7 < w := by
            by_contra hge
            obtain ⟨fuel, rfl⟩ : ∃ f, fuel = f + 1 := ⟨fuel - 1, by omega⟩
            rw [varint_end hge] at h
            cases h
          have hrest := ih (i + 7) _ (by omega) hi hl' h
          rw [hcells', advance_advance, Nat.add_comm 1] at hrest
          exact hrest

end Varint

end Sylar.ByteArray
