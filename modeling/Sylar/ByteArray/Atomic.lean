import Sylar.ByteArray.Script
import Sylar.ByteArray.Strings

/-! # Typed reads that fail

A typed read should return a value and move over its bytes, or throw and leave the array as it
was. A number of fixed width is read in one step. The others are read in several, and a step that
throws or faults does not take the earlier ones back.
-/
namespace Sylar.ByteArray
open Memory Codec

variable {b w : ℕ} {s : ByteArray} {as : List ℕ} {host : Endian} {n : ℕ}

/-- The bytes of a number of fixed width, if they are there and have been written. -/
def fixedExtent (w : ℕ) (cells : List Cell) : Option ℕ :=
  if cells.length < w / 8 then none else (object .little w cells).map fun _ => w / 8

/-- The bytes of a number of variable length, if they are there and have been written. -/
def varintExtent (w : ℕ) (cells : List Cell) : Option ℕ :=
  (varint w 0 (0 : BitVec w) cells).map Prod.snd

namespace Kind

/-- The bytes the first access asks for. -/
def first : Kind → ℕ
  | .fint8 | .fuint8 => 1
  | .fint16 | .fuint16 => 2
  | .fint32 | .fuint32 => 4
  | .fint64 | .fuint64 => 8
  | .int32 | .uint32 | .int64 | .uint64 => 1

/-- The length of the encoding in front. -/
def extent (cells : List Cell) : Kind → Option ℕ
  | .fint8 | .fuint8 => fixedExtent 8 cells
  | .fint16 | .fuint16 => fixedExtent 16 cells
  | .fint32 | .fuint32 => fixedExtent 32 cells
  | .fint64 | .fuint64 => fixedExtent 64 cells
  | .int32 | .uint32 => varintExtent 32 cells
  | .int64 | .uint64 => varintExtent 64 cells

end Kind

inductive Typed where
  | number (k : Kind)
  | text (k : StringKind)

inductive Datum where
  | number (v : Value)
  | text (chars : List Cell)

namespace Typed

def read (host : Endian) : Typed → StringCmd Datum
  | .number k => do pure (.number (← (k.read host).mapError Exception.thrown))
  | .text k => do pure (.text (← k.read host))

def first : Typed → ℕ
  | .number k => k.first
  | .text k => k.first

/-- The length of the encoding in front. -/
def extent (e : Endian) (cells : List Cell) : Typed → Option ℕ
  | .number k => k.extent cells
  | .text k => (k.lengthAt e cells).map fun p => p.2 + p.1

/-- The read returns a value and moves the cursor over its encoding, or throws `out_of_range` and
changes nothing. -/
def Atomic (host : Endian) (s : ByteArray) (as : List ℕ) (t : Typed) : Prop :=
  (∃ v n, t.extent s.endian (unread s as) = some n ∧ t.read host s = .done v (advance as n s)) ∨
    ∃ what, t.read host s = .raised (.outOfRange what) s

/-- The encoding in front is complete: a number has all its bytes, and a length is followed by as
many bytes, or by the next byte of a node if it is zero. -/
def Complete (s : ByteArray) (as : List ℕ) : Typed → Prop
  | .number k => (k.extent (unread s as)).isSome
  | .text k => ∃ len n, k.lengthAt s.endian (unread s as) = some (len, n) ∧ len ≤ maxSize ∧
      n + len ≤ (unread s as).length ∧ (len = 0 → s.position + n < s.capacity)

end Typed

section Numbers

/-- A command that reads one number: what it makes of the bytes ahead. -/
structure Scans {α : Type} (c : Cmd α) (first : ℕ) (extent : List Cell → Option ℕ) : Prop where
  done : ∀ {b s as n}, Layout b s as → extent (unread s as) = some n →
    ∃ v, c s = .done v (advance as n s)
  short : ∀ {b s as}, Layout b s as → (unread s as).length < first →
    c s = .raised (.outOfRange "not enough len to read") s
  broken : ∀ {b s as}, Layout b s as → first ≤ (unread s as).length →
    extent (unread s as) = none →
    c s = .raised (.outOfRange "not enough len to read") (advance as (unread s as).length s) ∨
      c s = .fault .indeterminateValue

variable {α β : Type} {c : Cmd α} {first : ℕ} {extent : List Cell → Option ℕ}

theorem Scans.map (h : Scans c first extent) (f : α → β) :
    Scans (c >>= fun x => pure (f x)) first extent := by
  constructor
  · intro b s as n hl hn
    rcases h.done hl hn with ⟨v, hrun⟩
    exact ⟨f v, Command.bind_done hrun _⟩
  · intro b s as hl hlt
    exact Command.bind_raised (h.short hl hlt) _
  · intro b s as hl hle hnone
    rcases h.broken hl hle hnone with hrun | hrun
    · exact .inl (Command.bind_raised hrun _)
    · exact .inr (Command.bind_fault hrun _)

/-- Whether the bytes have been written does not depend on the byte order. -/
theorem object_isSome (e e' : Endian) (w : ℕ) (cells : List Cell) :
    (object e w cells).isSome = (object e' w cells).isSome := by
  rw [object, object, Option.isSome_map, Option.isSome_map]

/-- An access to a number of fixed width. -/
theorem scans_of_found {c : Cmd (BitVec w)} {e : ByteArray → Endian}
    (happly : ∀ {b s as}, Layout b s as → w / 8 ≤ (unread s as).length →
      c s = found as (w / 8) s (object (e s) w (unread s as)))
    (hshort : ∀ {b s as}, Layout b s as → (unread s as).length < w / 8 →
      c s = .raised (.outOfRange "not enough len to read") s) :
    Scans c (w / 8) (fixedExtent w) := by
  refine ⟨?_, hshort, ?_⟩
  · intro b s as n hl hn
    rw [fixedExtent] at hn
    split_ifs at hn with hlt
    rcases Option.map_eq_some_iff.mp hn with ⟨v, hv, rfl⟩
    have hsome := object_isSome (e s) .little w (unread s as)
    rw [hv] at hsome
    rcases Option.isSome_iff_exists.mp hsome with ⟨v', hv'⟩
    refine ⟨v', ?_⟩
    rw [happly hl (by omega), hv', found]
  · intro b s as hl hle hnone
    right
    rw [fixedExtent, if_neg (by omega), Option.map_eq_none_iff] at hnone
    have hsome := object_isSome (e s) .little w (unread s as)
    rw [hnone, Option.isSome_none, Option.isSome_eq_false_iff, Option.isNone_iff_eq_none] at hsome
    rw [happly hl hle, hsome, found]

theorem scans_object (host : Endian) (hw : 0 < w / 8) :
    Scans (readObject host w) (w / 8) (fixedExtent w) :=
  scans_of_found (e := fun _ => host) (fun hl => readObject_apply _ hl hw) readObject_short

theorem scans_fixed (host : Endian) (hw : 8 ∣ w) (h0 : 0 < w) :
    Scans (readFixed host w) (w / 8) (fixedExtent w) :=
  scans_of_found (e := ByteArray.endian) (fun hl => readFixed_apply _ hl hw h0) readFixed_short

theorem scans_decode (host : Endian) (hw : 2 ≤ w) :
    Scans (decodeLoop host w 0 (0 : BitVec w)) 1 (varintExtent w) := by
  constructor
  · intro b s as n hl hn
    rcases Option.map_eq_some_iff.mp hn with ⟨⟨v, n'⟩, hv, rfl⟩
    exact ⟨v, (decodeLoop_of_some _ w 0 0 hl hv).1⟩
  · intro b s as hl hlt
    have hnil : unread s as = [] := List.eq_nil_of_length_eq_zero (Nat.lt_one_iff.mp hlt)
    obtain ⟨fuel, rfl⟩ : ∃ f, w = f + 1 := ⟨w - 1, by omega⟩
    rw [decodeLoop, if_pos (by omega), Command.bind_raised (readFuint8_nil hl hnil)]
  · intro b s as hl _ hnone
    rw [varintExtent, Option.map_eq_none_iff] at hnone
    exact decodeLoop_of_none _ w 0 0 (by omega) (by omega) hl hnone

theorem Kind.scans (k : Kind) (host : Endian) : Scans (k.read host) k.first (k.extent ·) := by
  cases k with
  | fint8 => exact ((scans_object host (w := 8) (by decide)).map _).map _
  | fuint8 => exact ((scans_object host (w := 8) (by decide)).map _).map _
  | fint16 => exact ((scans_fixed host (w := 16) (by decide) (by decide)).map _).map _
  | fuint16 => exact ((scans_fixed host (w := 16) (by decide) (by decide)).map _).map _
  | fint32 => exact ((scans_fixed host (w := 32) (by decide) (by decide)).map _).map _
  | fuint32 => exact ((scans_fixed host (w := 32) (by decide) (by decide)).map _).map _
  | fint64 => exact ((scans_fixed host (w := 64) (by decide) (by decide)).map _).map _
  | fuint64 => exact ((scans_fixed host (w := 64) (by decide) (by decide)).map _).map _
  | int32 => exact (((scans_decode host (w := 32) (by decide)).map _).map _).map _
  | uint32 => exact ((scans_decode host (w := 32) (by decide)).map _).map _
  | int64 => exact (((scans_decode host (w := 64) (by decide)).map _).map _).map _
  | uint64 => exact ((scans_decode host (w := 64) (by decide)).map _).map _

end Numbers

namespace Typed

variable {t : Typed}

theorem first_pos (t : Typed) : 0 < t.first := by
  rcases t with k | k <;> cases k <;> decide

/-- A read that faults, throws something else, or throws after the cursor has moved. -/
inductive Spoilt (s : ByteArray) : Outcome Thrown ByteArray Datum → Prop where
  | fault (f : Fault) : Spoilt s (.fault f)
  | lengthError (s' : ByteArray) : Spoilt s (.raised .lengthError s')
  | moved (e : Thrown) {s' : ByteArray} (h : s.position < s'.position) : Spoilt s (.raised e s')

theorem not_atomic_of_spoilt (h : Spoilt s (t.read host s)) : ¬t.Atomic host s as := by
  rintro (⟨v, n, -, hrun⟩ | ⟨what, hrun⟩)
  · rw [hrun] at h
    cases h
  · rw [hrun] at h
    cases h with
    | moved _ hlt => exact absurd hlt (lt_irrefl _)

theorem number_atomic_iff (hl : Layout b s as) (host : Endian) (k : Kind) :
    (number k).Atomic host s as ↔
      (unread s as).length < (number k).first ∨ (number k).Complete s as := by
  have hscans := k.scans host
  rcases Nat.lt_or_ge (unread s as).length k.first with hlt | hge
  · have hrun := Command.mapError_raised (f := Exception.thrown) (hscans.short hl hlt)
    exact ⟨fun _ => .inl hlt, fun _ => .inr ⟨_, Command.bind_raised hrun _⟩⟩
  · cases hext : k.extent (unread s as) with
    | some n =>
      rcases hscans.done hl hext with ⟨v, hrun⟩
      have hrun' := Command.mapError_done (f := Exception.thrown) hrun
      refine ⟨fun _ => .inr ?_, fun _ => .inl ⟨.number v, n, hext, Command.bind_done hrun' _⟩⟩
      rw [Complete, hext]
      rfl
    | none =>
      have hspoilt : Spoilt s ((number k).read host s) := by
        rcases hscans.broken hl hge hext with hrun | hrun
        · have hrun' := Command.mapError_raised (f := Exception.thrown) hrun
          rw [read, Command.bind_raised hrun']
          apply Spoilt.moved
          have hpos := (number k).first_pos
          rw [advance_position]
          change 0 < k.first at hpos
          omega
        · have hrun' := Command.mapError_fault (f := Exception.thrown) hrun
          rw [read, Command.bind_fault hrun']
          exact .fault _
      refine ⟨fun h => absurd h (not_atomic_of_spoilt hspoilt), ?_⟩
      rintro (hlt | hsome)
      · exact absurd hge (Nat.not_le.mpr hlt)
      · rw [Complete, hext] at hsome
        cases hsome

theorem length_pos_of_lengthAt {k : StringKind} {e : Endian} {cells : List Cell} {len : ℕ}
    (h : k.lengthAt e cells = some (len, n)) : 0 < n := by
  have hfixed {w m : ℕ} (hm : 0 < m)
      (h : (if cells.length < m then none
        else (object e w cells).map fun v => (v.toNat, m)) = some (len, n)) : 0 < n := by
    split_ifs at h
    rcases Option.map_eq_some_iff.mp h with ⟨v, -, hp⟩
    cases hp
    exact hm
  cases k with
  | f16 => exact hfixed (w := 16) (by decide) h
  | f32 => exact hfixed (w := 32) (by decide) h
  | f64 => exact hfixed (w := 64) (by decide) h
  | vint =>
    rcases Option.map_eq_some_iff.mp h with ⟨⟨v, m⟩, hv, hp⟩
    cases hp
    cases cells with
    | nil =>
      rw [varint_nil (by decide)] at hv
      cases hv
    | cons c cells =>
      cases c with
      | none =>
        rw [varint_none (by decide)] at hv
        cases hv
      | some x =>
        rw [varint_some (by decide)] at hv
        split_ifs at hv
        · cases hv
          exact Nat.one_pos
        · rcases Option.map_eq_some_iff.mp hv with ⟨p, -, hp⟩
          cases hp
          exact Nat.succ_pos _

/-- A string whose length is there: what the second access does. -/
theorem text_of_length (host : Endian) (hl : Layout b s as) {k : StringKind} {len : ℕ}
    (h : k.lengthAt s.endian (unread s as) = some (len, n)) :
    (len ≤ maxSize ∧ n + len ≤ (unread s as).length ∧ (len = 0 → s.position + n < s.capacity) →
        ∃ v, (text k).read host s = .done v (advance as (n + len) s)) ∧
      (¬(len ≤ maxSize ∧ n + len ≤ (unread s as).length ∧ (len = 0 → s.position + n < s.capacity)) →
        Spoilt s ((text k).read host s)) := by
  rcases StringKind.readLength_of_some host hl h with ⟨hlen, hn⟩
  have hpos := length_pos_of_lengthAt h
  have hl' := hl.advance hn
  have hleft : (unread (advance as n s) as).length = (unread s as).length - n := by
    rw [unread_advance, List.length_drop]
  rcases Nat.lt_or_ge maxSize len with hmax | hmax
  · refine ⟨fun hc => absurd hc.1 (Nat.not_le.mpr hmax), fun _ => ?_⟩
    have hrun : k.read host s = .raised .lengthError (advance as n s) := by
      rw [StringKind.read_eq, readString, Command.bind_done (Command.mapError_done hlen),
        Command.ite_apply, if_pos hmax]
      rfl
    rw [read, Command.bind_raised hrun]
    exact .lengthError _
  · have hread := StringKind.read_of_length host hl h hmax
    rcases Nat.lt_or_ge (unread s as).length (n + len) with hlt | hge
    · refine ⟨fun hc => absurd hc.2.1 (Nat.not_le.mpr hlt), fun _ => ?_⟩
      have hraise := Command.mapError_raised (f := Exception.thrown)
        (read_short hl' (m := len) (by omega))
      rw [read, Command.bind_raised (hread.trans hraise)]
      apply Spoilt.moved
      rw [advance_position]
      omega
    · rcases Nat.eq_zero_or_pos len with rfl | hlenpos
      · have hzero := read_zero hl'
        rw [advance_position, advance_capacity] at hzero
        by_cases hcap : s.position + n < s.capacity
        · rw [if_pos hcap] at hzero
          have hdone := Command.mapError_done (f := Exception.thrown) hzero
          refine ⟨fun _ => ⟨_, Command.bind_done (hread.trans hdone) _⟩, fun hc => ?_⟩
          exact absurd ⟨hmax, hge, fun _ => hcap⟩ hc
        · rw [if_neg hcap] at hzero
          have hfault := Command.mapError_fault (f := Exception.thrown) hzero
          refine ⟨fun hc => absurd (hc.2.2 rfl) hcap, fun _ => ?_⟩
          rw [read, Command.bind_fault (hread.trans hfault)]
          exact .fault _
      · have hdone := Command.mapError_done (f := Exception.thrown)
          (read_done hl' (m := len) hlenpos (by omega))
        rw [advance_advance] at hdone
        refine ⟨fun _ => ⟨_, Command.bind_done (hread.trans hdone) _⟩, fun hc => ?_⟩
        exact absurd ⟨hmax, hge, fun h => absurd h (by omega)⟩ hc

theorem text_atomic_iff (hl : Layout b s as) (host : Endian) (k : StringKind) :
    (text k).Atomic host s as ↔
      (unread s as).length < (text k).first ∨ (text k).Complete s as := by
  rcases Nat.lt_or_ge (unread s as).length k.first with hlt | hge
  · have hrun := StringKind.read_of_raised (StringKind.readLength_short host hl hlt)
    exact ⟨fun _ => .inl hlt, fun _ => .inr ⟨_, Command.bind_raised hrun _⟩⟩
  · have hnot : ¬(unread s as).length < (text k).first := Nat.not_lt.mpr hge
    rw [or_iff_right hnot]
    cases hext : k.lengthAt s.endian (unread s as) with
    | some p =>
      rcases p with ⟨len, n⟩
      rcases text_of_length host hl hext with ⟨hdone, hspoilt⟩
      have hcomplete : (text k).Complete s as ↔ len ≤ maxSize ∧
          n + len ≤ (unread s as).length ∧ (len = 0 → s.position + n < s.capacity) := by
        rw [Complete, hext]
        constructor
        · rintro ⟨len', n', hp, hc⟩
          cases hp
          exact hc
        · intro hc
          exact ⟨len, n, rfl, hc⟩
      rw [hcomplete]
      constructor
      · intro hatomic
        by_contra hc
        exact not_atomic_of_spoilt (hspoilt hc) hatomic
      · intro hc
        rcases hdone hc with ⟨v, hrun⟩
        exact .inl ⟨v, n + len, by rw [extent, hext]; rfl, hrun⟩
    | none =>
      have hspoilt : Spoilt s ((text k).read host s) := by
        rcases StringKind.readLength_of_none host hl hge hext with hlen | hlen
        · rw [read, Command.bind_raised (StringKind.read_of_raised hlen)]
          apply Spoilt.moved
          have hpos := (text k).first_pos
          rw [advance_position]
          change 0 < k.first at hpos
          omega
        · rw [read, Command.bind_fault (StringKind.read_of_fault hlen)]
          exact .fault _
      refine ⟨fun h => absurd h (not_atomic_of_spoilt hspoilt), ?_⟩
      rintro ⟨len, n, hp, -⟩
      rw [hext] at hp
      cases hp

/-- A typed read returns the value in front and moves over its encoding, or throws `out_of_range`
and changes nothing, exactly if its first access throws or the encoding is complete. -/
theorem atomic_iff (hl : Layout b s as) (host : Endian) (t : Typed) :
    t.Atomic host s as ↔ (unread s as).length < t.first ∨ t.Complete s as := by
  cases t with
  | number k => exact number_atomic_iff hl host k
  | text k => exact text_atomic_iff hl host k

theorem atomic_two : ∃ s₁ s₂ as, write [2, 7, 8] (new 4) = .done () s₁ ∧
    setPosition 0 s₁ = .done () s₂ ∧ (text .vint).Atomic .little s₂ as := by
  rcases write_stores (new_layout (b := 4) (by decide)) [2, 7, 8] with ⟨s₁, as, hwrite, hst, -⟩
  rcases hst.rewind (new_layout (b := 4) (by decide)) with ⟨s₂, r, hseek, hl, -, -, -, hcells⟩
  refine ⟨s₁, s₂, as, hwrite, hseek, (atomic_iff hl .little (text .vint)).mpr (.inr ?_)⟩
  refine ⟨2, 1, ?_, by decide, ?_, nofun⟩
  · rw [hcells]
    rfl
  · rw [hcells, List.length_append]
    exact Nat.le_add_right _ _

/-- A number of which one byte is there: the exception comes with the cursor behind it. -/
theorem truncated_number_moves : ∃ s₁ s₂ s₃, write [0x80] (new 4) = .done () s₁ ∧
    setPosition 0 s₁ = .done () s₂ ∧ s₂.position = 0 ∧
    readUint32 .little s₂ = .raised (.outOfRange "not enough len to read") s₃ ∧
    s₃.position = 1 :=
  ⟨_, _, _, rfl, rfl, rfl, rfl, rfl⟩

end Typed

end Sylar.ByteArray
