import Sylar.ByteArray.Cursor
import Sylar.ByteArray.Reachable

/-! # `ByteArray` as a flat byte sequence with a cursor

The abstract array is a list of bytes and a position in it. Blocks, capacities
and node pointers do not appear: the block list refines it for every base size.
-/
namespace Sylar.ByteArray
open Memory

/-- What a client of the class sees. -/
structure Flat where
  data : List UInt8
  pos : ℕ
  pos_le : pos ≤ data.length

/-- The answer to a call: the bytes it delivered, or `std::out_of_range`. -/
inductive Reply where
  | bytes (d : List Cell)
  | outOfRange
deriving DecidableEq, Repr

namespace Flat

def empty : Flat := ⟨[], 0, le_rfl⟩

/-- Bytes `[pos, pos + n)`. -/
def slice (f : Flat) (m : ℕ) : List Cell := ((f.data.drop f.pos).take m).map some

def write (f : Flat) (buf : List UInt8) : Flat where
  data := splice f.data f.pos buf
  pos := f.pos + buf.length
  pos_le := by rw [length_splice _ f.pos_le]; exact le_max_right _ _

def seek (f : Flat) (v : ℕ) : Flat :=
  if h : v ≤ f.data.length then ⟨f.data, v, h⟩ else f

def step (f : Flat) : Call → Reply × Flat
  | .write buf => (.bytes [], f.write buf)
  | .read m =>
    if m ≤ f.data.length - f.pos then (.bytes (f.slice m), f.seek (f.pos + m))
    else (.outOfRange, f)
  | .readForPeek m =>
    if m ≤ f.data.length - f.pos then (.bytes (f.slice m), f) else (.outOfRange, f)
  | .toString => (.bytes (f.slice (f.data.length - f.pos)), f)
  | .setPosition v => (.bytes [], f.seek v)
  | .clear => (.bytes [], empty)

def run (f : Flat) : List Call → List Reply × Flat
  | [] => ([], f)
  | c :: cs => ((f.step c).1 :: ((f.step c).2.run cs).1, ((f.step c).2.run cs).2)

/-- Reads ask for at least one byte and positions stay inside the data. -/
def Admits (f : Flat) : Call → Prop
  | .read m => 1 ≤ m
  | .readForPeek m => 1 ≤ m
  | .setPosition v => v ≤ f.data.length
  | _ => True

def AdmitsAll (f : Flat) : List Call → Prop
  | [] => True
  | c :: cs => f.Admits c ∧ (f.step c).2.AdmitsAll cs

/-- A write replaces bytes `[pos, pos + k)` and no others. -/
theorem write_getElem? (f : Flat) (buf : List UInt8) (i : ℕ) :
    (f.write buf).data[i]? =
      if f.pos ≤ i ∧ i < f.pos + buf.length then buf[i - f.pos]? else f.data[i]? := by
  rw [write, getElem?_splice buf f.pos_le]
  split_ifs <;> first | rfl | omega

theorem write_size (f : Flat) (buf : List UInt8) :
    (f.write buf).data.length = max f.data.length (f.pos + buf.length) :=
  length_splice _ f.pos_le

end Flat

/-- A call as its client sees it; `none` is a fault. -/
def exec (c : Call) (s : ByteArray) : Option (Reply × ByteArray) :=
  match c.run s with
  | .done d s' => some (.bytes d, s')
  | .raised (.outOfRange _) s' => some (.outOfRange, s')
  | .fault _ => none

def execAll : List Call → ByteArray → Option (List Reply × ByteArray)
  | [], s => some ([], s)
  | c :: cs, s => do
    let (r, s') ← exec c s
    let (rs, s'') ← execAll cs s'
    pure (r :: rs, s'')

/-- The block list `s` stands for the flat array `f`. -/
structure Refines (b : ℕ) (s : ByteArray) (f : Flat) : Prop where
  position : s.position = f.pos
  size : s.size = f.data.length
  stored : ∃ as, Layout b s as ∧ (contents s.heap as).take s.size = f.data.map some

variable {b : ℕ} {s : ByteArray} {f : Flat}

theorem new_refines (hb : 0 < b) : Refines b (new b) Flat.empty :=
  ⟨rfl, rfl, [0], new_layout hb, rfl⟩

namespace Refines

/-- Below the size the contents of the blocks are the flat bytes. -/
theorem take_drop {as : List ℕ} (hr : Refines b s f)
    (hc : (contents s.heap as).take s.size = f.data.map some) {m : ℕ}
    (hm : m ≤ s.size - s.position) :
    ((contents s.heap as).drop s.position).take m = f.slice m := by
  have hcut : ((contents s.heap as).drop s.position).take m =
      (((contents s.heap as).take s.size).drop s.position).take m := by
    rw [List.drop_take, List.take_take, min_eq_left hm]
  rw [hcut, hc, Flat.slice, hr.position, List.map_take, List.map_drop]

theorem seek (hr : Refines b s f) {v : ℕ} (hv : v ≤ f.data.length) {c : Option ℕ} {as : List ℕ}
    (hl : Layout b { s with position := v, cur := c } as)
    (hc : (contents s.heap as).take s.size = f.data.map some) :
    Refines b { s with position := v, cur := c } (f.seek v) := by
  rw [Flat.seek, dif_pos hv]
  exact ⟨rfl, hr.size, as, hl, hc⟩

theorem write (hr : Refines b s f) (buf : List UInt8) :
    ∃ s', ByteArray.write buf s = .done () s' ∧ Refines b s' (f.write buf) ∧
      s'.endian = s.endian := by
  obtain ⟨as, hl, hc⟩ := hr.stored
  obtain ⟨s', as', hrun, hstores, -⟩ := write_stores hl buf
  refine ⟨s', hrun, ⟨?_, ?_, as', hstores.layout, ?_⟩, hstores.endian⟩
  · rw [hstores.position, hr.position]
    rfl
  · rw [hstores.size, hr.size, hr.position, Flat.write_size]
  · have hstored := hstores.stored_eq hl
    rw [ByteArray.stored, ByteArray.stored, hc, hr.position, ← map_splice] at hstored
    exact hstored

theorem read (hr : Refines b s f) {m : ℕ} (hm : 1 ≤ m) (hle : m ≤ f.data.length - f.pos) :
    ∃ s', ByteArray.read m s = .done (f.slice m) s' ∧ Refines b s' (f.seek (f.pos + m)) ∧
      s'.endian = s.endian := by
  obtain ⟨as, hl, hc⟩ := hr.stored
  rw [← hr.size, ← hr.position] at hle
  obtain ⟨hrun, hl'⟩ := read_spec hl hm hle
  rw [hr.take_drop hc hle] at hrun
  have hin : s.position + m ≤ f.data.length := by
    have := hr.size
    omega
  refine ⟨_, hrun, ?_, rfl⟩
  rw [← hr.position]
  exact hr.seek hin hl' hc

theorem setPosition (hr : Refines b s f) {v : ℕ} (hv : v ≤ f.data.length) :
    ∃ s', ByteArray.setPosition v s = .done () s' ∧ Refines b s' (f.seek v) ∧
      s'.endian = s.endian := by
  obtain ⟨as, hl, hc⟩ := hr.stored
  have hv' : v ≤ s.size := hr.size ▸ hv
  obtain ⟨hrun, hl'⟩ := setPosition_spec hl (hv'.trans hl.size_le)
  rw [max_eq_left hv'] at hrun hl'
  exact ⟨_, hrun, hr.seek hv hl' hc, rfl⟩

/-- One call: the same reply, and the results correspond. A throw changes nothing. -/
theorem step (hr : Refines b s f) (c : Call) (ha : f.Admits c) :
    ∃ s', exec c s = some ((f.step c).1, s') ∧ Refines b s' (f.step c).2 ∧
      ((f.step c).1 = .outOfRange → s' = s) := by
  obtain ⟨as, hl, hc⟩ := hr.stored
  have hp := hr.position
  have hs := hr.size
  cases c with
  | write buf =>
    obtain ⟨s', hrun, hr', -⟩ := hr.write buf
    refine ⟨s', ?_, hr', by simp [Flat.step]⟩
    simp [exec, Call.run, Command.bind_done hrun, Flat.step]
  | read m =>
    by_cases hm : m ≤ f.data.length - f.pos
    · obtain ⟨s', hrun, hr', -⟩ := hr.read ha hm
      rw [exec, Call.run, hrun, Flat.step, if_pos hm]
      exact ⟨s', rfl, hr', by simp⟩
    · have hrun := read_raises hl (m := m) (by omega)
      rw [exec, Call.run, hrun, Flat.step, if_neg hm]
      exact ⟨s, rfl, hr, fun _ => rfl⟩
  | readForPeek m =>
    by_cases hm : m ≤ f.data.length - f.pos
    · have hm' : m ≤ s.size - s.position := by omega
      rw [exec, Call.run, readForPeek_spec hl ha hm', Flat.step, if_pos hm, hr.take_drop hc hm']
      exact ⟨s, rfl, hr, fun _ => rfl⟩
    · have hrun := readForPeek_raises (s := s) (m := m) (by omega)
      rw [exec, Call.run, hrun, Flat.step, if_neg hm]
      exact ⟨s, rfl, hr, fun _ => rfl⟩
  | toString =>
    refine ⟨s, ?_, hr, fun _ => rfl⟩
    rw [exec, Call.run, toString_spec hl, hr.take_drop hc le_rfl, hs, hp]
    rfl
  | setPosition v =>
    obtain ⟨s', hrun, hr', -⟩ := hr.setPosition ha
    refine ⟨s', ?_, hr', by simp [Flat.step]⟩
    simp [exec, Call.run, Command.bind_done hrun, Flat.step]
  | clear =>
    obtain ⟨s', a, hrun, hl', -, hpos, hsize⟩ := clear_spec hl
    refine ⟨s', ?_, ⟨hpos, hsize, [a], hl', ?_⟩, by simp [Flat.step]⟩
    · simp [exec, Call.run, Command.bind_done hrun, Flat.step]
    · rw [hsize]
      rfl

theorem run (hr : Refines b s f) (cs : List Call) (ha : f.AdmitsAll cs) :
    ∃ s', execAll cs s = some ((f.run cs).1, s') ∧ Refines b s' (f.run cs).2 := by
  induction cs generalizing s f with
  | nil => exact ⟨s, rfl, hr⟩
  | cons c cs ih =>
    obtain ⟨s₁, hstep, hr₁, -⟩ := hr.step c ha.1
    obtain ⟨s₂, hrest, hr₂⟩ := ih hr₁ ha.2
    refine ⟨s₂, ?_, hr₂⟩
    simp [execAll, hstep, hrest, Flat.run]

end Refines

/-- For every base size and every script the block list answers as the flat array does and
ends up standing for it; a write replaces exactly the bytes under it; a read throws exactly
when it asks for more than is left, and then nothing has changed; and two base sizes cannot be
told apart by their answers. -/
theorem execAll_refines_flat (hb : 1 ≤ b) (cs : List Call) (ha : Flat.empty.AdmitsAll cs) :
    (∃ s, execAll cs (new b) = some ((Flat.empty.run cs).1, s) ∧
      Refines b s (Flat.empty.run cs).2 ∧
      (∀ buf, ∃ s' f', exec (.write buf) s = some (.bytes [], s') ∧ Refines b s' f' ∧
        s'.position = s.position + buf.length ∧
        s'.size = max s.size (s.position + buf.length) ∧
        ∀ i, f'.data[i]? = if s.position ≤ i ∧ i < s.position + buf.length
          then buf[i - s.position]? else (Flat.empty.run cs).2.data[i]?) ∧
      ∀ m, 1 ≤ m →
        ((∃ s', exec (.read m) s = some (.outOfRange, s')) ↔ s.size - s.position < m) ∧
        ((∃ s', exec (.readForPeek m) s = some (.outOfRange, s')) ↔ s.size - s.position < m) ∧
        ∀ s', exec (.read m) s = some (.outOfRange, s') ∨
          exec (.readForPeek m) s = some (.outOfRange, s') → s' = s) ∧
      ∀ b', 1 ≤ b' → (execAll cs (new b')).map Prod.fst = (execAll cs (new b)).map Prod.fst := by
  obtain ⟨s, hrun, hr⟩ := (new_refines hb).run cs ha
  refine ⟨⟨s, hrun, hr, fun buf => ?_, fun m hm => ?_⟩, fun b' hb' => ?_⟩
  · obtain ⟨s', hwrite, hr', -⟩ := hr.step (.write buf) trivial
    refine ⟨s', _, hwrite, hr', ?_, ?_, fun i => ?_⟩
    · rw [hr'.position, hr.position]
      rfl
    · rw [hr'.size, hr.size, hr.position]
      exact Flat.write_size _ buf
    · rw [hr.position]
      exact Flat.write_getElem? _ buf i
  · obtain ⟨s₁, hread, -, hsame₁⟩ := hr.step (.read m) hm
    obtain ⟨s₂, hpeek, -, hsame₂⟩ := hr.step (.readForPeek m) hm
    have hout : (Flat.empty.run cs).2.data.length - (Flat.empty.run cs).2.pos =
        s.size - s.position := by rw [hr.size, hr.position]
    rw [hread, hpeek]
    simp only [Flat.step, hout] at hsame₁ hsame₂ ⊢
    by_cases hle : m ≤ s.size - s.position
    · simp [hle, Nat.not_lt.mpr hle]
    · rw [if_neg hle] at hsame₁ hsame₂
      simp [hle, hsame₁ rfl, hsame₂ rfl, Nat.lt_of_not_le hle, eq_comm]
  · obtain ⟨s', hrun', -⟩ := (new_refines hb').run cs ha
    rw [hrun, hrun']
    rfl

theorem execAll_refines_flat_three :
    1 ≤ 3 ∧ Flat.empty.AdmitsAll [.write [1, 2, 3, 4], .setPosition 2, .write [9], .toString] ∧
      (execAll [.write [1, 2, 3, 4], .setPosition 2, .write [9], .toString] (new 3)).map
        Prod.fst = some [.bytes [], .bytes [], .bytes [], .bytes [some 4]] := by
  have ha : Flat.empty.AdmitsAll [.write [1, 2, 3, 4], .setPosition 2, .write [9], .toString] :=
    ⟨trivial, show 2 ≤ 4 by decide, trivial, trivial, trivial⟩
  obtain ⟨⟨s, hrun, -⟩, -⟩ := execAll_refines_flat (b := 3) (by decide) _ ha
  refine ⟨by decide, ha, ?_⟩
  rw [hrun]
  rfl

end Sylar.ByteArray
