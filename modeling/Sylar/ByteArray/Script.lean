import Sylar.ByteArray.NumericSpec

/-! # Scripts of typed writes and the matching reads

A script mixes typed writes with changes of the byte order. The matching reads
are given by the kinds of the values alone.
-/
namespace Sylar.ByteArray
open Memory Codec

/-- A number together with the pair of accessors it goes through. -/
inductive Value where
  | fint8 (v : Int8)
  | fuint8 (v : UInt8)
  | fint16 (v : Int16)
  | fuint16 (v : UInt16)
  | fint32 (v : Int32)
  | fuint32 (v : UInt32)
  | fint64 (v : Int64)
  | fuint64 (v : UInt64)
  | int32 (v : Int32)
  | uint32 (v : UInt32)
  | int64 (v : Int64)
  | uint64 (v : UInt64)
deriving DecidableEq

inductive Kind where
  | fint8 | fuint8 | fint16 | fuint16 | fint32 | fuint32 | fint64 | fuint64
  | int32 | uint32 | int64 | uint64

namespace Value

def kind : Value → Kind
  | fint8 _ => .fint8
  | fuint8 _ => .fuint8
  | fint16 _ => .fint16
  | fuint16 _ => .fuint16
  | fint32 _ => .fint32
  | fuint32 _ => .fuint32
  | fint64 _ => .fint64
  | fuint64 _ => .fuint64
  | int32 _ => .int32
  | uint32 _ => .uint32
  | int64 _ => .int64
  | uint64 _ => .uint64

def write (host : Endian) : Value → Cmd Unit
  | fint8 v => writeFint8 host v
  | fuint8 v => writeFuint8 host v
  | fint16 v => writeFint16 host v
  | fuint16 v => writeFuint16 host v
  | fint32 v => writeFint32 host v
  | fuint32 v => writeFuint32 host v
  | fint64 v => writeFint64 host v
  | fuint64 v => writeFuint64 host v
  | int32 v => writeInt32 v
  | uint32 v => writeUint32 v
  | int64 v => writeInt64 v
  | uint64 v => writeUint64 v

/-- The number whose base-128 digits are stored, for the variable-length kinds. -/
def varint? : Value → Option ℕ
  | int32 v => some (encodingZigzag32 v).toNat
  | uint32 v => some v.toNat
  | int64 v => some (encodingZigzag64 v).toNat
  | uint64 v => some v.toNat
  | _ => none

/-- The kinds whose stored bytes depend on the byte order. -/
def ordered : Value → Bool
  | fint8 _ | fuint8 _ | int32 _ | uint32 _ | int64 _ | uint64 _ => false
  | _ => true

/-- The bytes a value occupies in an array of byte order `e`. -/
def bytes (e : Endian) : Value → List UInt8
  | fint8 v => objectBytes e v.toBitVec
  | fuint8 v => objectBytes e v.toBitVec
  | fint16 v => objectBytes e v.toBitVec
  | fuint16 v => objectBytes e v.toBitVec
  | fint32 v => objectBytes e v.toBitVec
  | fuint32 v => objectBytes e v.toBitVec
  | fint64 v => objectBytes e v.toBitVec
  | fuint64 v => objectBytes e v.toBitVec
  | int32 v => leb128 (encodingZigzag32 v).toNat
  | uint32 v => leb128 v.toNat
  | int64 v => leb128 (encodingZigzag64 v).toNat
  | uint64 v => leb128 v.toNat

end Value

def Kind.read (host : Endian) : Kind → Cmd Value
  | .fint8 => do pure (.fint8 (← readFint8 host))
  | .fuint8 => do pure (.fuint8 (← readFuint8 host))
  | .fint16 => do pure (.fint16 (← readFint16 host))
  | .fuint16 => do pure (.fuint16 (← readFuint16 host))
  | .fint32 => do pure (.fint32 (← readFint32 host))
  | .fuint32 => do pure (.fuint32 (← readFuint32 host))
  | .fint64 => do pure (.fint64 (← readFint64 host))
  | .fuint64 => do pure (.fuint64 (← readFuint64 host))
  | .int32 => do pure (.int32 (← readInt32 host))
  | .uint32 => do pure (.uint32 (← readUint32 host))
  | .int64 => do pure (.int64 (← readInt64 host))
  | .uint64 => do pure (.uint64 (← readUint64 host))

inductive Item where
  | value (v : Value)
  | setLittleEndian (val : Bool)

def writeAll (host : Endian) : List Item → Cmd Unit
  | [] => pure ()
  | .value v :: is => do v.write host; writeAll host is
  | .setLittleEndian val :: is => do ByteArray.setLittleEndian val; writeAll host is

/-- The reads that match a script, with the same changes of byte order. -/
def readAll (host : Endian) : List Item → Cmd (List Value)
  | [] => pure []
  | .value v :: is => do
    let x ← v.kind.read host
    let xs ← readAll host is
    pure (x :: xs)
  | .setLittleEndian val :: is => do ByteArray.setLittleEndian val; readAll host is

def values : List Item → List Value
  | [] => []
  | .value v :: is => v :: values is
  | .setLittleEndian _ :: is => values is

/-- The byte order a script leaves behind. -/
def orderAfter (e : Endian) : List Item → Endian
  | [] => e
  | .value _ :: is => orderAfter e is
  | .setLittleEndian val :: is => orderAfter (if val then .little else .big) is

/-- Started in the orders `e₁` and `e₂`, two passes over the script treat every multi-byte
fixed-width value in the same order. -/
def Matched (e₁ e₂ : Endian) : List Item → Prop
  | [] => True
  | .value v :: is => (v.ordered = true → e₁ = e₂) ∧ Matched e₁ e₂ is
  | .setLittleEndian _ :: _ => True

/-- The bytes a script stores, the array's order being `e` at its start. -/
def bytesFrom (e : Endian) : List Item → List UInt8
  | [] => []
  | .value v :: is => v.bytes e ++ bytesFrom e is
  | .setLittleEndian val :: is => bytesFrom (if val then .little else .big) is

variable {b : ℕ} {s : ByteArray} {l r : List UInt8}

namespace Value

theorem bytes_eq_of_not_ordered {v : Value} (h : v.ordered = false) (e₁ e₂ : Endian) :
    v.bytes e₁ = v.bytes e₂ := by
  cases v <;> first | rfl | exact objectBytes_byte _ _ _ | cases h

theorem bytes_of_varint {v : Value} {n : ℕ} (h : v.varint? = some n) (e : Endian) :
    v.bytes e = leb128 n := by
  cases v <;> simp_all [varint?, bytes]

theorem write_spec (host : Endian) (v : Value) (h : Written b s l) :
    ∃ s', v.write host s = .done () s' ∧ Written b s' (l ++ v.bytes s.endian) ∧
      s'.endian = s.endian := by
  cases v with
  | fint8 v =>
    rw [bytes, objectBytes_byte s.endian host]
    exact h.write _
  | fuint8 v =>
    rw [bytes, objectBytes_byte s.endian host]
    exact h.write _
  | fint16 v => exact writeFixed_spec (by decide) _ h
  | fuint16 v => exact writeFixed_spec (by decide) _ h
  | fint32 v => exact writeFixed_spec (by decide) _ h
  | fuint32 v => exact writeFixed_spec (by decide) _ h
  | fint64 v => exact writeFixed_spec (by decide) _ h
  | fuint64 v => exact writeFixed_spec (by decide) _ h
  | int32 v => exact writeVarint_spec (by decide) (by decide) _ h
  | uint32 v => exact writeVarint_spec (by decide) (by decide) _ h
  | int64 v => exact writeVarint_spec (by decide) (by decide) _ h
  | uint64 v => exact writeVarint_spec (by decide) (by decide) _ h

end Value

theorem readUint32_spec (host : Endian) (v : UInt32) (h : Unread b s (leb128 v.toNat ++ r)) :
    ∃ s', readUint32 host s = .done v s' ∧ Unread b s' r ∧ s'.endian = s.endian := by
  obtain ⟨s', hrun, hu, hend⟩ := decodeLoop_spec (w := 32) host v.toNat s (by decide) v.toNat_lt h
  refine ⟨s', ?_, hu, hend⟩
  rw [readUint32, Command.bind_done hrun, Command.pure_apply]
  congr 1
  simp

theorem readUint64_spec (host : Endian) (v : UInt64) (h : Unread b s (leb128 v.toNat ++ r)) :
    ∃ s', readUint64 host s = .done v s' ∧ Unread b s' r ∧ s'.endian = s.endian := by
  obtain ⟨s', hrun, hu, hend⟩ := decodeLoop_spec (w := 64) host v.toNat s (by decide) v.toNat_lt h
  refine ⟨s', ?_, hu, hend⟩
  rw [readUint64, Command.bind_done hrun, Command.pure_apply]
  congr 1
  simp

theorem decodingZigzag32_encodingZigzag32 (v : Int32) :
    decodingZigzag32 (encodingZigzag32 v) = v := by
  simp [decodingZigzag32, encodingZigzag32, unzigzag_zigzag]

theorem decodingZigzag64_encodingZigzag64 (v : Int64) :
    decodingZigzag64 (encodingZigzag64 v) = v := by
  simp [decodingZigzag64, encodingZigzag64, unzigzag_zigzag]

/-- A command that finds `v` keeps finding it through a pure conversion. -/
theorem bind_pure_spec {α β : Type} {c : Cmd α} {a : α} {g : α → β} {y : β} (hy : g a = y)
    (h : ∃ s', c s = .done a s' ∧ Unread b s' r ∧ s'.endian = s.endian) :
    ∃ s', (c >>= fun x => pure (g x)) s = .done y s' ∧ Unread b s' r ∧ s'.endian = s.endian := by
  obtain ⟨s', hrun, hrest⟩ := h
  exact ⟨s', by rw [Command.bind_done hrun, Command.pure_apply, hy], hrest⟩

theorem Value.read_spec (host : Endian) (v : Value) (h : Unread b s (v.bytes s.endian ++ r)) :
    ∃ s', v.kind.read host s = .done v s' ∧ Unread b s' r ∧ s'.endian = s.endian := by
  cases v with
  | fint8 v =>
    rw [bytes, objectBytes_byte s.endian host] at h
    exact bind_pure_spec rfl (bind_pure_spec rfl (readObject_spec (by decide) (by decide) _ h))
  | fuint8 v =>
    rw [bytes, objectBytes_byte s.endian host] at h
    exact bind_pure_spec rfl (bind_pure_spec rfl (readObject_spec (by decide) (by decide) _ h))
  | fint16 v =>
    exact bind_pure_spec rfl (bind_pure_spec rfl (readFixed_spec (by decide) (by decide) _ h))
  | fuint16 v =>
    exact bind_pure_spec rfl (bind_pure_spec rfl (readFixed_spec (by decide) (by decide) _ h))
  | fint32 v =>
    exact bind_pure_spec rfl (bind_pure_spec rfl (readFixed_spec (by decide) (by decide) _ h))
  | fuint32 v =>
    exact bind_pure_spec rfl (bind_pure_spec rfl (readFixed_spec (by decide) (by decide) _ h))
  | fint64 v =>
    exact bind_pure_spec rfl (bind_pure_spec rfl (readFixed_spec (by decide) (by decide) _ h))
  | fuint64 v =>
    exact bind_pure_spec rfl (bind_pure_spec rfl (readFixed_spec (by decide) (by decide) _ h))
  | int32 v =>
    exact bind_pure_spec (congrArg Value.int32 (decodingZigzag32_encodingZigzag32 v))
      (bind_pure_spec rfl (readUint32_spec host _ h))
  | uint32 v => exact bind_pure_spec rfl (readUint32_spec host _ h)
  | int64 v =>
    exact bind_pure_spec (congrArg Value.int64 (decodingZigzag64_encodingZigzag64 v))
      (bind_pure_spec rfl (readUint64_spec host _ h))
  | uint64 v => exact bind_pure_spec rfl (readUint64_spec host _ h)

theorem writeAll_spec (host : Endian) (is : List Item) (h : Written b s l) :
    ∃ s', writeAll host is s = .done () s' ∧ Written b s' (l ++ bytesFrom s.endian is) ∧
      s'.endian = orderAfter s.endian is := by
  induction is generalizing s l with
  | nil => exact ⟨s, rfl, by simpa [bytesFrom] using h, rfl⟩
  | cons i is ih =>
    cases i with
    | value v =>
      obtain ⟨s₁, hrun, hw, hend⟩ := v.write_spec host h
      obtain ⟨s₂, hrest, hw', hend'⟩ := ih hw
      rw [hend] at hw' hend'
      exact ⟨s₂, by rw [writeAll, Command.bind_done hrun, hrest],
        by rwa [bytesFrom, ← List.append_assoc], hend'⟩
    | setLittleEndian val =>
      obtain ⟨s₂, hrest, hw', hend'⟩ := ih (h.setEndian (if val then .little else .big))
      exact ⟨s₂, by rw [writeAll, setLittleEndian, Command.modify_bind_apply, hrest], hw', hend'⟩

/-- Two passes that agree on the order of every multi-byte value store the same bytes. -/
theorem bytesFrom_eq_of_matched {e₁ e₂ : Endian} {is : List Item} (h : Matched e₁ e₂ is) :
    bytesFrom e₁ is = bytesFrom e₂ is := by
  induction is with
  | nil => rfl
  | cons i is ih =>
    cases i with
    | value v =>
      obtain ⟨hv, hrest⟩ := h
      rw [bytesFrom, bytesFrom, ih hrest]
      cases hord : v.ordered with
      | false => rw [v.bytes_eq_of_not_ordered hord e₁ e₂]
      | true => rw [hv hord]
    | setLittleEndian val => rfl

theorem readAll_spec (host : Endian) (is : List Item) (h : Unread b s (bytesFrom s.endian is ++ r)) :
    ∃ s', readAll host is s = .done (values is) s' ∧ Unread b s' r := by
  induction is generalizing s with
  | nil => exact ⟨s, rfl, h⟩
  | cons i is ih =>
    cases i with
    | value v =>
      rw [bytesFrom, List.append_assoc] at h
      obtain ⟨s₁, hrun, hu, hend⟩ := v.read_spec host h
      rw [← hend] at hu
      obtain ⟨s₂, hrest, hu'⟩ := ih hu
      refine ⟨s₂, ?_, hu'⟩
      rw [readAll, Command.bind_done hrun, Command.bind_done hrest, Command.pure_apply, values]
    | setLittleEndian val =>
      obtain ⟨s₂, hrest, hu'⟩ := ih (h.setEndian (if val then .little else .big))
      exact ⟨s₂, by rw [readAll, setLittleEndian, Command.modify_bind_apply, hrest, values], hu'⟩

/-- Every script runs to its end, and every variable-length write stores one byte for each
seven bits of its number. The matching reads, started in any byte order that gives each
multi-byte value the order it was written in, return the values and leave nothing unread. -/
theorem numeric_round_trip (hb : 1 ≤ b) (host : Endian) (is : List Item) :
    ∃ s₁ s₂, writeAll host is (new b) = .done () s₁ ∧ setPosition 0 s₁ = .done () s₂ ∧
      s₂.endian = orderAfter .big is ∧
      (∀ e, Matched .big e is → ∃ s₃,
        readAll host is { s₂ with endian := e } = .done (values is) s₃ ∧ s₃.getSizeForRead = 0) ∧
      ∀ (v : Value) (n : ℕ), v.varint? = some n → ∃ s', v.write host s₁ = .done () s' ∧
        s'.position = s₁.position + max 1 ((n.size + 6) / 7) := by
  obtain ⟨s₁, hwrite, hw, hend⟩ := writeAll_spec host is (new_written hb)
  obtain ⟨s₂, hrewind, hu, hend'⟩ := hw.rewind
  refine ⟨s₁, s₂, hwrite, hrewind, hend'.trans hend, fun e he => ?_, fun v n hn => ?_⟩
  · have hread : Unread b { s₂ with endian := e } (bytesFrom e is ++ []) := by
      rw [List.append_nil, ← bytesFrom_eq_of_matched he]
      exact hu.setEndian e
    obtain ⟨s₃, hrun, hempty⟩ := readAll_spec host is hread
    exact ⟨s₃, hrun, hempty.sizeForRead⟩
  · obtain ⟨s', hrun, hw', -⟩ := v.write_spec host hw
    refine ⟨s', hrun, ?_⟩
    rw [hw'.position, hw.position, List.length_append, v.bytes_of_varint hn, length_leb128]

theorem numeric_round_trip_extremes :
    1 ≤ 3 ∧ Matched .big .big [.value (.fint16 (-2)), .setLittleEndian true,
        .value (.int64 (-1)), .value (.fuint32 4294967295)] ∧
      ∃ s₁ s₂ s₃, writeAll .little [.value (.fint16 (-2)), .setLittleEndian true,
          .value (.int64 (-1)), .value (.fuint32 4294967295)] (new 3) = .done () s₁ ∧
        setPosition 0 s₁ = .done () s₂ ∧
        readAll .little [.value (.fint16 (-2)), .setLittleEndian true,
          .value (.int64 (-1)), .value (.fuint32 4294967295)] { s₂ with endian := .big } =
            .done [.fint16 (-2), .int64 (-1), .fuint32 4294967295] s₃ := by
  have hm : Matched .big .big [.value (.fint16 (-2)), .setLittleEndian true,
      .value (.int64 (-1)), .value (.fuint32 4294967295)] := ⟨fun _ => rfl, trivial⟩
  obtain ⟨s₁, s₂, hwrite, hrewind, -, hread, -⟩ :=
    numeric_round_trip (b := 3) (by decide) .little _
  obtain ⟨s₃, hrun, -⟩ := hread .big hm
  exact ⟨by decide, hm, s₁, s₂, s₃, hwrite, hrewind, hrun⟩

/-- A script that changes the byte order and is read back without restoring it: the value
written before the change comes back with its bytes exchanged. -/
theorem unrestored_order_swaps :
    ∃ s₁ s₂ s₃, writeAll .little [.value (.fuint16 1), .setLittleEndian true] (new 4) =
        .done () s₁ ∧ setPosition 0 s₁ = .done () s₂ ∧
      readAll .little [.value (.fuint16 1), .setLittleEndian true] s₂ =
        .done [.fuint16 256] s₃ ∧
      values [.value (.fuint16 1), .setLittleEndian true] = [.fuint16 1] :=
  ⟨_, _, _, rfl, rfl, rfl, rfl⟩

end Sylar.ByteArray
