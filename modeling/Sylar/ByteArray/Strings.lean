import Mathlib.Tactic.FinCases
import Sylar.ByteArray.NumericSpec

/-! # Strings with their length in front

A string is stored as its length, in one of four forms, and its bytes. The read allocates a string
of the length it finds and then reads that many bytes, also if there are none.
-/
namespace Sylar.ByteArray
open Memory Codec

structure StdString where
  chars : List UInt8
  size_le : chars.length ≤ maxSize

/-- What the accessors of strings throw. -/
inductive Thrown where
  | outOfRange (what : String)
  | lengthError
deriving DecidableEq, Repr

def Exception.thrown : Exception → Thrown
  | .outOfRange what => .outOfRange what

abbrev StringCmd := Command Thrown ByteArray

def writeStringF16 (host : Endian) (value : StdString) : Cmd Unit := do
  writeFuint16 host (UInt16.ofNat value.chars.length)
  write value.chars

def writeStringF32 (host : Endian) (value : StdString) : Cmd Unit := do
  writeFuint32 host (UInt32.ofNat value.chars.length)
  write value.chars

def writeStringF64 (host : Endian) (value : StdString) : Cmd Unit := do
  writeFuint64 host (UInt64.ofNat value.chars.length)
  write value.chars

def writeStringVint (value : StdString) : Cmd Unit := do
  writeUint64 (UInt64.ofNat value.chars.length)
  write value.chars

/-- The macro `XX(type, fun)` behind the reads of strings; `buff.resize(len)` throws for a length
above `max_size`. -/
def readString (length : Cmd ℕ) : StringCmd (List Cell) := do
  let len ← length.mapError Exception.thrown
  if maxSize < len then Command.raise .lengthError
  else (read len).mapError Exception.thrown

/-- The four forms of the length. -/
inductive StringKind where
  | f16 | f32 | f64 | vint
deriving DecidableEq

namespace StringKind

/-- The `fun` of the macro. -/
def readLength (host : Endian) : StringKind → Cmd ℕ
  | .f16 => do pure (← readFuint16 host).toNat
  | .f32 => do pure (← readFuint32 host).toNat
  | .f64 => do pure (← readFuint64 host).toNat
  | .vint => do pure (← readUint64 host).toNat

end StringKind

def readStringF16 (host : Endian) : StringCmd (List Cell) :=
  readString (StringKind.f16.readLength host)
def readStringF32 (host : Endian) : StringCmd (List Cell) :=
  readString (StringKind.f32.readLength host)
def readStringF64 (host : Endian) : StringCmd (List Cell) :=
  readString (StringKind.f64.readLength host)
def readStringFVint (host : Endian) : StringCmd (List Cell) :=
  readString (StringKind.vint.readLength host)

namespace StringKind

def write (host : Endian) : StringKind → StdString → Cmd Unit
  | .f16, value => writeStringF16 host value
  | .f32, value => writeStringF32 host value
  | .f64, value => writeStringF64 host value
  | .vint, value => writeStringVint value

def read (host : Endian) : StringKind → StringCmd (List Cell)
  | .f16 => readStringF16 host
  | .f32 => readStringF32 host
  | .f64 => readStringF64 host
  | .vint => readStringFVint host

/-- The strings whose length the form can hold. -/
def Fits (value : StdString) : StringKind → Prop
  | .f16 => value.chars.length < 2 ^ 16
  | .f32 => value.chars.length < 2 ^ 32
  | .f64 => True
  | .vint => True

def lengthBytes (e : Endian) (n : ℕ) : StringKind → List UInt8
  | .f16 => objectBytes e (BitVec.ofNat 16 n)
  | .f32 => objectBytes e (BitVec.ofNat 32 n)
  | .f64 => objectBytes e (BitVec.ofNat 64 n)
  | .vint => leb128 n

def bytes (e : Endian) (k : StringKind) (value : StdString) : List UInt8 :=
  k.lengthBytes e value.chars.length ++ value.chars

/-- The bytes the first access asks for. -/
def first : StringKind → ℕ
  | .f16 => 2
  | .f32 => 4
  | .f64 => 8
  | .vint => 1

/-- The length in front and the bytes it takes, if it is there as a whole. -/
def lengthAt (e : Endian) (cells : List Cell) : StringKind → Option (ℕ × ℕ)
  | .f16 => if cells.length < 2 then none else (object e 16 cells).map fun v => (v.toNat, 2)
  | .f32 => if cells.length < 4 then none else (object e 32 cells).map fun v => (v.toNat, 4)
  | .f64 => if cells.length < 8 then none else (object e 64 cells).map fun v => (v.toNat, 8)
  | .vint => (varint 64 0 (0 : BitVec 64) cells).map fun p => (p.1.toNat, p.2)

end StringKind

variable {b : ℕ} {s : ByteArray} {as : List ℕ} {host : Endian} {k : StringKind} {len n : ℕ}

section Lengths

variable {w : ℕ}

theorem fixedLength_of_some (host : Endian) (hw : 8 ∣ w) (h0 : 0 < w) (hl : Layout b s as)
    (h : (if (unread s as).length < w / 8 then none
      else (object s.endian w (unread s as)).map fun v => (v.toNat, w / 8)) = some (len, n)) :
    ∃ v, readFixed host w s = .done v (advance as n s) ∧ v.toNat = len ∧
      n ≤ (unread s as).length := by
  split_ifs at h with hlt
  rcases Option.map_eq_some_iff.mp h with ⟨v, hv, hp⟩
  cases hp
  have hrun := readFixed_apply host hl hw h0 (by omega)
  rw [hv] at hrun
  exact ⟨v, hrun, rfl, by omega⟩

theorem fixedLength_of_none (host : Endian) (hw : 8 ∣ w) (h0 : 0 < w) (hl : Layout b s as)
    (hle : w / 8 ≤ (unread s as).length)
    (h : (if (unread s as).length < w / 8 then none
      else (object s.endian w (unread s as)).map fun v => (v.toNat, w / 8)) = none) :
    readFixed host w s = .fault .indeterminateValue := by
  rw [if_neg (by omega), Option.map_eq_none_iff] at h
  have hrun := readFixed_apply host hl hw h0 hle
  rw [h] at hrun
  exact hrun

theorem pure_of_done {α β : Type} {c : Cmd α} {a : α} {s' : ByteArray} (h : c s = .done a s')
    (f : α → β) : (c >>= fun x => pure (f x)) s = .done (f a) s' :=
  Command.bind_done h _

namespace StringKind

theorem readLength_of_some (host : Endian) (hl : Layout b s as)
    (h : k.lengthAt s.endian (unread s as) = some (len, n)) :
    k.readLength host s = .done len (advance as n s) ∧ n ≤ (unread s as).length := by
  cases k with
  | f16 =>
    rcases fixedLength_of_some (w := 16) host (by decide) (by decide) hl h with
      ⟨v, hrun, rfl, hn⟩
    exact ⟨pure_of_done (pure_of_done hrun UInt16.ofBitVec) UInt16.toNat, hn⟩
  | f32 =>
    rcases fixedLength_of_some (w := 32) host (by decide) (by decide) hl h with
      ⟨v, hrun, rfl, hn⟩
    exact ⟨pure_of_done (pure_of_done hrun UInt32.ofBitVec) UInt32.toNat, hn⟩
  | f64 =>
    rcases fixedLength_of_some (w := 64) host (by decide) (by decide) hl h with
      ⟨v, hrun, rfl, hn⟩
    exact ⟨pure_of_done (pure_of_done hrun UInt64.ofBitVec) UInt64.toNat, hn⟩
  | vint =>
    rcases Option.map_eq_some_iff.mp h with ⟨⟨v, m⟩, hv, hp⟩
    cases hp
    rcases decodeLoop_of_some host 64 0 0 hl hv with ⟨hrun, hn⟩
    exact ⟨pure_of_done (pure_of_done hrun UInt64.ofBitVec) UInt64.toNat, hn⟩

theorem readLength_short (host : Endian) (hl : Layout b s as) (h : (unread s as).length < k.first) :
    k.readLength host s = .raised (.outOfRange "not enough len to read") s := by
  cases k with
  | f16 => exact Command.bind_raised (Command.bind_raised (readFixed_short hl h) _) _
  | f32 => exact Command.bind_raised (Command.bind_raised (readFixed_short hl h) _) _
  | f64 => exact Command.bind_raised (Command.bind_raised (readFixed_short hl h) _) _
  | vint =>
    have hnil : unread s as = [] := List.eq_nil_of_length_eq_zero (Nat.lt_one_iff.mp h)
    have hrun : decodeLoop host 64 0 (0 : BitVec 64) s = _ :=
      Command.bind_raised (readFuint8_nil hl hnil) _
    exact Command.bind_raised (Command.bind_raised hrun _) _

/-- A length that is begun and not there as a whole. -/
theorem readLength_of_none (host : Endian) (hl : Layout b s as)
    (hle : k.first ≤ (unread s as).length)
    (h : k.lengthAt s.endian (unread s as) = none) :
    k.readLength host s = .raised (.outOfRange "not enough len to read")
        (advance as (unread s as).length s) ∨
      k.readLength host s = .fault .indeterminateValue := by
  cases k with
  | f16 =>
    have hrun := fixedLength_of_none (w := 16) host (by decide) (by decide) hl hle h
    exact .inr (Command.bind_fault (Command.bind_fault hrun _) _)
  | f32 =>
    have hrun := fixedLength_of_none (w := 32) host (by decide) (by decide) hl hle h
    exact .inr (Command.bind_fault (Command.bind_fault hrun _) _)
  | f64 =>
    have hrun := fixedLength_of_none (w := 64) host (by decide) (by decide) hl hle h
    exact .inr (Command.bind_fault (Command.bind_fault hrun _) _)
  | vint =>
    rw [lengthAt, Option.map_eq_none_iff] at h
    rcases decodeLoop_of_none host 64 0 0 (by decide) (by decide) hl h with hrun | hrun
    · exact .inl (Command.bind_raised (Command.bind_raised hrun _) _)
    · exact .inr (Command.bind_fault (Command.bind_fault hrun _) _)

end StringKind

end Lengths

section RoundTrip

variable {value : StdString} {r : List Cell}

namespace StringKind

theorem length_lengthBytes_pos (k : StringKind) (e : Endian) (n : ℕ) :
    0 < (k.lengthBytes e n).length := by
  cases k with
  | vint =>
    rw [lengthBytes, length_leb128]
    omega
  | _ => simp [lengthBytes]

theorem write_apply (k : StringKind) (value : StdString) (s : ByteArray) :
    k.write host value s = (ByteArray.write (k.lengthBytes s.endian value.chars.length) >>=
      fun _ => ByteArray.write value.chars) s := by
  have hfixed {w : ℕ} (hw : 8 ∣ w) (v : BitVec w) :
      (writeFixed host v >>= fun _ => ByteArray.write value.chars) s =
        (ByteArray.write (objectBytes s.endian v) >>= fun _ => ByteArray.write value.chars) s := by
    rw [Command.bind_apply, writeFixed_apply hw, Command.bind_apply]
  cases k with
  | f16 => exact hfixed (by decide) _
  | f32 => exact hfixed (by decide) _
  | f64 => exact hfixed (by decide) _
  | vint =>
    have hsmall : (UInt64.ofNat value.chars.length).toBitVec.toNat = value.chars.length := by
      have hle := value.size_le
      have hmax : maxSize < 2 ^ 64 := by decide
      exact Nat.mod_eq_of_lt (by omega)
    have hrun : writeUint64 (UInt64.ofNat value.chars.length) s =
        ByteArray.write (leb128 value.chars.length) s := by
      rw [writeUint64, writeVarint_apply (by decide) (by decide), hsmall]
    change (writeUint64 _ >>= fun _ => ByteArray.write value.chars) s = _
    rw [Command.bind_apply, hrun, lengthBytes, Command.bind_apply]

theorem write_stores (host : Endian) (hl : Layout b s as) (k : StringKind) (value : StdString) :
    ∃ s₁ as₁, k.write host value s = .done () s₁ ∧
      Stores b s as (k.bytes s.endian value) s₁ as₁ ∧ Snug b s s₁ := by
  rcases ByteArray.write_stores hl (k.lengthBytes s.endian value.chars.length) with
    ⟨s₁, as₁, hrun₁, h₁, hsnug₁⟩
  rcases ByteArray.write_stores h₁.layout value.chars with ⟨s₂, as₂, hrun₂, h₂, hsnug₂⟩
  refine ⟨s₂, as₂, ?_, h₁.trans hl h₂, hsnug₁.trans hsnug₂ ?_⟩
  · rw [write_apply, Command.bind_done hrun₁, hrun₂]
  · rw [h₂.position]
    exact Nat.le_add_right _ _

/-- The length of a string that fits is found in front of its bytes. -/
theorem lengthAt_lengthBytes (hfit : k.Fits value) (e : Endian) (r : List Cell) :
    k.lengthAt e ((k.lengthBytes e value.chars.length).map some ++ r) =
      some (value.chars.length, (k.lengthBytes e value.chars.length).length) := by
  have hlt : value.chars.length < 2 ^ 64 := by
    have hmax : maxSize < 2 ^ 64 := by decide
    exact value.size_le.trans_lt hmax
  have hlong {w : ℕ} (v : BitVec w) : ¬((objectBytes e v).map some ++ r).length < w / 8 := by
    rw [List.length_append, List.length_map, length_objectBytes, Nat.not_lt]
    exact Nat.le_add_right _ _
  cases k with
  | f16 =>
    have hobject :=
      object_objectBytes (w := 16) (by decide) e (BitVec.ofNat 16 value.chars.length) r
    rw [lengthAt, lengthBytes, hobject, if_neg (hlong _), Option.map_some, BitVec.toNat_ofNat,
      Nat.mod_eq_of_lt hfit, length_objectBytes]
  | f32 =>
    have hobject :=
      object_objectBytes (w := 32) (by decide) e (BitVec.ofNat 32 value.chars.length) r
    rw [lengthAt, lengthBytes, hobject, if_neg (hlong _), Option.map_some, BitVec.toNat_ofNat,
      Nat.mod_eq_of_lt hfit, length_objectBytes]
  | f64 =>
    have hobject :=
      object_objectBytes (w := 64) (by decide) e (BitVec.ofNat 64 value.chars.length) r
    rw [lengthAt, lengthBytes, hobject, if_neg (hlong _), Option.map_some, BitVec.toNat_ofNat,
      Nat.mod_eq_of_lt hlt, length_objectBytes]
  | vint =>
    rw [lengthAt, lengthBytes, varint_number (by decide) hlt, Option.map_some, BitVec.toNat_ofNat,
      Nat.mod_eq_of_lt hlt]

theorem read_eq (k : StringKind) (host : Endian) :
    k.read host = readString (k.readLength host) := by
  cases k <;> rfl

theorem read_of_raised {e : Exception} {s' : ByteArray}
    (h : k.readLength host s = .raised e s') : k.read host s = .raised e.thrown s' := by
  rw [read_eq, readString, Command.bind_raised (Command.mapError_raised h)]

theorem read_of_fault {x : Fault} (h : k.readLength host s = .fault x) :
    k.read host s = .fault x := by
  rw [read_eq, readString, Command.bind_fault (Command.mapError_fault h)]

/-- What is left to do once the length is known. -/
theorem read_of_length (host : Endian) (hl : Layout b s as)
    (h : k.lengthAt s.endian (unread s as) = some (len, n)) (hmax : len ≤ maxSize) :
    k.read host s = (ByteArray.read len).mapError Exception.thrown (advance as n s) := by
  have hlen := Command.mapError_done (f := Exception.thrown)
    (readLength_of_some host hl h).1
  rw [read_eq, readString, Command.bind_done hlen, Command.ite_apply, if_neg (by omega)]

/-- A string is read back, unless it is empty and its length ends at the capacity. -/
theorem read_bytes (host : Endian) (hl : Layout b s as) (hfit : k.Fits value)
    (hcells : unread s as = (k.bytes s.endian value).map some ++ r) :
    k.read host s =
      if value.chars = [] ∧ s.position + (k.bytes s.endian value).length = s.capacity then
        .fault .nullPointer
      else .done (value.chars.map some) (advance as (k.bytes s.endian value).length s) := by
  rw [bytes, List.map_append, List.append_assoc] at hcells
  have hlength := lengthAt_lengthBytes hfit s.endian (value.chars.map some ++ r)
  rw [← hcells] at hlength
  rcases readLength_of_some host hl hlength with ⟨-, hn⟩
  have hl' := hl.advance hn
  have hcells' : unread (advance as (k.lengthBytes s.endian value.chars.length).length s) as =
      value.chars.map some ++ r := by
    rw [unread_advance, hcells, List.drop_append_of_le_length (by simp), List.drop_of_length_le
      (by simp), List.nil_append]
  rw [read_of_length _ hl hlength value.size_le, bytes, List.length_append]
  generalize (k.lengthBytes s.endian value.chars.length).length = n at hl' hcells' ⊢
  by_cases hnil : value.chars = []
  · have hpos := hl'.position_le.trans hl'.size_le
    have hzero := read_zero hl'
    rw [advance_position, advance_capacity] at hpos hzero
    rw [hnil, List.length_nil, Nat.add_zero]
    by_cases hend : s.position + n = s.capacity
    · rw [if_neg (Nat.not_lt.mpr hend.ge)] at hzero
      rw [if_pos ⟨rfl, hend⟩]
      exact Command.mapError_fault hzero
    · have hlt : s.position + n < s.capacity := by omega
      rw [if_pos hlt] at hzero
      rw [if_neg fun h => hend h.2]
      exact Command.mapError_done hzero
  · have hread := read_done hl' (m := value.chars.length) (List.length_pos_of_ne_nil hnil)
      (by simp [hcells'])
    have htake : (value.chars.map some ++ r).take value.chars.length = value.chars.map some := by
      rw [List.take_append_of_le_length (by simp), List.take_of_length_le (by simp)]
    rw [hcells', advance_advance, htake] at hread
    rw [if_neg fun h => hnil h.1]
    exact Command.mapError_done hread

end StringKind

def writeStrings (host : Endian) : List (StringKind × StdString) → Cmd Unit
  | [] => pure ()
  | (k, value) :: l => do
    k.write host value
    writeStrings host l

def readStrings (host : Endian) : List StringKind → StringCmd (List (List Cell))
  | [] => pure []
  | k :: l => do
    let x ← k.read host
    let xs ← readStrings host l
    pure (x :: xs)

def stringBytes (e : Endian) (l : List (StringKind × StdString)) : List UInt8 :=
  l.flatMap fun x => x.1.bytes e x.2

def EndsEmpty (l : List (StringKind × StdString)) : Prop :=
  ∃ x, l.getLast? = some x ∧ x.2.chars = []

variable {l : List (StringKind × StdString)}

theorem stringBytes_cons (e : Endian) (x : StringKind × StdString) :
    stringBytes e (x :: l) = x.1.bytes e x.2 ++ stringBytes e l := List.flatMap_cons

theorem length_stringBytes_pos (e : Endian) (hl : l ≠ []) : 0 < (stringBytes e l).length := by
  cases l with
  | nil => exact absurd rfl hl
  | cons x l =>
    have hpos := x.1.length_lengthBytes_pos e x.2.chars.length
    rw [stringBytes_cons, StringKind.bytes, List.length_append, List.length_append]
    omega

theorem endsEmpty_cons (x : StringKind × StdString) (hl : l ≠ []) :
    EndsEmpty (x :: l) ↔ EndsEmpty l := by
  cases l with
  | nil => exact absurd rfl hl
  | cons y l => rw [EndsEmpty, EndsEmpty, List.getLast?_cons_cons]

theorem endsEmpty_singleton (x : StringKind × StdString) :
    EndsEmpty [x] ↔ x.2.chars = [] := by
  simp [EndsEmpty]

theorem writeStrings_stores (host : Endian) (hl : Layout b s as)
    (l : List (StringKind × StdString)) :
    ∃ s₁ as₁, writeStrings host l s = .done () s₁ ∧
      Stores b s as (stringBytes s.endian l) s₁ as₁ ∧ Snug b s s₁ := by
  induction l generalizing s as with
  | nil => exact ⟨s, as, rfl, .nil hl, .refl s⟩
  | cons x l ih =>
    rcases x.1.write_stores host hl x.2 with ⟨s₁, as₁, hrun₁, h₁, hsnug₁⟩
    rcases ih h₁.layout with ⟨s₂, as₂, hrun₂, h₂, hsnug₂⟩
    rw [h₁.endian] at h₂
    refine ⟨s₂, as₂, ?_, ?_, hsnug₁.trans hsnug₂ ?_⟩
    · rw [writeStrings, Command.bind_done hrun₁, hrun₂]
    · rw [stringBytes_cons]
      exact h₁.trans hl h₂
    · rw [h₂.position]
      exact Nat.le_add_right _ _

/-- Where strings follow, the length of one does not end at the capacity. -/
theorem position_lt_capacity {d d' : List UInt8} (hl : Layout b s as) (hd' : 0 < d'.length)
    (hcells : unread s as = d.map some ++ (d'.map some ++ r)) :
    s.position + d.length < s.capacity := by
  have hlen := congrArg List.length hcells
  have hpos := hl.position_le
  have hsize := hl.size_le
  rw [length_unread hl, List.length_append, List.length_append, List.length_map,
    List.length_map] at hlen
  omega

/-- Strings are read back one after the other, unless the last is empty and its length ends at
the capacity. -/
theorem readStrings_done (host : Endian) (hl : Layout b s as) (hfit : ∀ x ∈ l, x.1.Fits x.2)
    (hcells : unread s as = (stringBytes s.endian l).map some ++ r)
    (hend : ¬(EndsEmpty l ∧ s.position + (stringBytes s.endian l).length = s.capacity)) :
    readStrings host (l.map Prod.fst) s = .done (l.map fun x => x.2.chars.map some)
      (advance as (stringBytes s.endian l).length s) := by
  induction l generalizing s with
  | nil =>
    change _ = Outcome.done [] (advance as 0 s)
    rw [advance_zero hl]
    rfl
  | cons x l ih =>
    rw [List.forall_mem_cons] at hfit
    rw [stringBytes_cons, List.length_append] at hend ⊢
    rw [stringBytes_cons, List.map_append, List.append_assoc] at hcells
    have hhead := StringKind.read_bytes host hl hfit.1 hcells
    rw [if_neg ?_] at hhead
    · have hl' := hl.advance (n := (x.1.bytes s.endian x.2).length) (by simp [hcells])
      have hcells' : unread (advance as (x.1.bytes s.endian x.2).length s) as =
          (stringBytes s.endian l).map some ++ r := by
        rw [unread_advance, hcells, List.drop_append_of_le_length (by simp),
          List.drop_of_length_le (by simp), List.nil_append]
      have hrest := ih hl' hfit.2 hcells' (by
        rintro ⟨hempty, hcap⟩
        rw [advance_position, advance_capacity, advance_endian, Nat.add_assoc] at hcap
        have hne : l ≠ [] := by
          rintro rfl
          rcases hempty with ⟨y, hy, -⟩
          cases hy
        exact hend ⟨(endsEmpty_cons x hne).mpr hempty, hcap⟩)
      rw [advance_endian, advance_advance] at hrest
      rw [List.map_cons, readStrings, Command.bind_done hhead, Command.bind_done hrest]
      rfl
    · rintro ⟨hempty, hcap⟩
      by_cases hne : l = []
      · subst hne
        exact hend ⟨(endsEmpty_singleton x).mpr hempty, hcap⟩
      · have := position_lt_capacity hl (length_stringBytes_pos s.endian hne) hcells
        omega

theorem readStrings_fault (host : Endian) (hl : Layout b s as) (hfit : ∀ x ∈ l, x.1.Fits x.2)
    (hcells : unread s as = (stringBytes s.endian l).map some ++ r) (hempty : EndsEmpty l)
    (hcap : s.position + (stringBytes s.endian l).length = s.capacity) :
    readStrings host (l.map Prod.fst) s = .fault .nullPointer := by
  induction l generalizing s with
  | nil =>
    rcases hempty with ⟨x, hx, -⟩
    cases hx
  | cons x l ih =>
    rw [List.forall_mem_cons] at hfit
    rw [stringBytes_cons, List.length_append] at hcap
    rw [stringBytes_cons, List.map_append, List.append_assoc] at hcells
    have hhead := StringKind.read_bytes host hl hfit.1 hcells
    rw [List.map_cons, readStrings]
    by_cases hne : l = []
    · subst hne
      rw [if_pos ⟨(endsEmpty_singleton x).mp hempty, hcap⟩] at hhead
      exact Command.bind_fault hhead _
    · have hlt := position_lt_capacity hl (length_stringBytes_pos s.endian hne) hcells
      rw [if_neg (by omega)] at hhead
      have hl' := hl.advance (n := (x.1.bytes s.endian x.2).length) (by simp [hcells])
      have hcells' : unread (advance as (x.1.bytes s.endian x.2).length s) as =
          (stringBytes s.endian l).map some ++ r := by
        rw [unread_advance, hcells, List.drop_append_of_le_length (by simp),
          List.drop_of_length_le (by simp), List.nil_append]
      have hrest := ih hl' hfit.2 hcells' ((endsEmpty_cons x hne).mp hempty)
        (by rw [advance_position, advance_capacity, advance_endian, Nat.add_assoc]; exact hcap)
      rw [Command.bind_done hhead]
      exact Command.bind_fault hrest _

theorem Stores.rewind {d : List UInt8} {s₁ : ByteArray} {as₁ : List ℕ} (hl : Layout b s as)
    (h : Stores b s as d s₁ as₁) :
    ∃ s₂ r, setPosition s.position s₁ = .done () s₂ ∧ Layout b s₂ as₁ ∧
      s₂.position = s.position ∧ s₂.capacity = s₁.capacity ∧ s₂.endian = s.endian ∧
      unread s₂ as₁ = d.map some ++ r := by
  rcases h.contents with ⟨pad, hcap, hcont⟩
  have hpos := hl.position_le.trans hl.size_le
  rcases setPosition_spec h.layout (v := s.position) (by omega) with ⟨hrun, hl₂⟩
  have hin : s.position ≤ (ByteArray.contents s.heap as ++ List.replicate pad none).length := by
    rw [List.length_append, hl.length_contents]
    omega
  have htake := take_drop_splice_self (d.map some) hin
  rw [← hcont, List.length_map] at htake
  have hsize : max s₁.size s.position - s.position =
      d.length + (max s₁.size s.position - s.position - d.length) := by
    rw [h.size]
    omega
  refine ⟨_, (((ByteArray.contents s₁.heap as₁).drop s.position).drop d.length).take
    (max s₁.size s.position - s.position - d.length), hrun, hl₂, rfl, rfl, h.endian, ?_⟩
  rw [unread]
  dsimp only
  rw [hsize, List.take_add, htake, Nat.add_sub_cancel_left]

/-- For any byte orders, any base size and any strings that fit their forms, written anywhere and
read back from there: the strings come back, and the cursor is where it was after the writes,
unless the last string is empty and its length ends where the nodes end. -/
theorem strings_roundTrip_iff (hl : Layout b s as) (host : Endian)
    (l : List (StringKind × StdString)) (hfit : ∀ x ∈ l, x.1.Fits x.2) :
    (∃ s₁ s₂ s₃, writeStrings host l s = .done () s₁ ∧ setPosition s.position s₁ = .done () s₂ ∧
        readStrings host (l.map Prod.fst) s₂ = .done (l.map fun x => x.2.chars.map some) s₃ ∧
        s₃.position = s₁.position) ↔
      (EndsEmpty l → s.position + (stringBytes s.endian l).length < s.capacity ∨
        ¬b ∣ s.position + (stringBytes s.endian l).length) := by
  rcases writeStrings_stores host hl l with ⟨s₁, as₁, hwrite, hstores, hsnug⟩
  rcases hstores.rewind hl with ⟨s₂, r, hseek, hl₂, hpos₂, hcap₂, hend₂, hcells⟩
  have hlast := Snug.position_eq_capacity_iff hl hstores hsnug
  rw [hstores.position] at hlast
  have hcap : s₂.position + (stringBytes s₂.endian l).length = s₂.capacity ↔
      s.capacity ≤ s.position + (stringBytes s.endian l).length ∧
        b ∣ s.position + (stringBytes s.endian l).length := by
    rw [hpos₂, hend₂, hcap₂, hlast]
  rw [← hend₂] at hcells
  constructor
  · rintro ⟨s₁', s₂', s₃, hwrite', hseek', hread, -⟩ hempty
    cases hwrite.symm.trans hwrite'
    cases hseek.symm.trans hseek'
    by_contra hno
    rw [not_or, Nat.not_lt, not_not] at hno
    have hfault := readStrings_fault host hl₂ hfit hcells hempty (hcap.mpr hno)
    rw [hread] at hfault
    cases hfault
  · intro hcond
    have hread := readStrings_done host hl₂ hfit hcells (by
      rintro ⟨hempty, hfull⟩
      rcases hcond hempty with hlt | hdvd
      · exact absurd (hcap.mp hfull).1 (Nat.not_le.mpr hlt)
      · exact hdvd (hcap.mp hfull).2)
    refine ⟨s₁, s₂, _, hwrite, hseek, hread, ?_⟩
    rw [advance_position, hpos₂, hend₂, hstores.position]

/-- Three forms, with an empty string in the middle, at base size 3. -/
theorem strings_roundTrip_three :
    ∃ s₁ s₂ s₃, writeStrings .little [(.f16, ⟨[1, 2], by decide⟩), (.vint, ⟨[], by decide⟩),
        (.f32, ⟨[7], by decide⟩)] (new 3) = .done () s₁ ∧
      setPosition 0 s₁ = .done () s₂ ∧ readStrings .little [.f16, .vint, .f32] s₂ =
        .done [[some 1, some 2], [], [some 7]] s₃ ∧ s₃.position = s₁.position := by
  refine (strings_roundTrip_iff (new_layout (b := 3) (by decide)) .little _ ?_).mpr ?_
  · intro x hx
    fin_cases hx
    · exact show 2 < 2 ^ 16 by decide
    · trivial
    · exact show 1 < 2 ^ 32 by decide
  · rintro ⟨x, hx, hnil⟩
    cases hx
    cases hnil

/-- An empty string whose length fills the only node: the read follows the null node. -/
theorem empty_string_at_capacity :
    ∃ s₁ s₂, writeStringF16 .little ⟨[], by decide⟩ (new 2) = .done () s₁ ∧
      setPosition 0 s₁ = .done () s₂ ∧ readStringF16 .little s₂ = .fault .nullPointer :=
  ⟨_, _, rfl, rfl, rfl⟩

end RoundTrip

end Sylar.ByteArray
