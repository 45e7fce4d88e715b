import Sylar.ByteArray.Layout

/-! # Reads and stores at the cursor

A read sees the stored bytes from the cursor on; if it returns, the cursor has moved over what was
read and nothing else has changed. A store replaces the bytes at the cursor and may add nodes
behind the last one; adjacent stores are one store.
-/
namespace Sylar.ByteArray
open Memory

variable {b : ℕ} {s s₁ s₂ : ByteArray} {as as₁ as₂ : List ℕ} {m n : ℕ}

/-- The stored bytes from the cursor on. -/
def unread (s : ByteArray) (as : List ℕ) : List Cell :=
  ((contents s.heap as).drop s.position).take (s.size - s.position)

/-- The array with its cursor moved forward. -/
def advance (as : List ℕ) (n : ℕ) (s : ByteArray) : ByteArray :=
  { s with position := s.position + n, cur := as[(s.position + n) / s.baseSize]? }

/-- The bytes below the high-water mark. -/
def stored (s : ByteArray) (as : List ℕ) : List Cell := (contents s.heap as).take s.size

section Reads

theorem length_unread (hl : Layout b s as) : (unread s as).length = s.size - s.position := by
  have h := hl.size_le
  rw [unread, List.length_take, List.length_drop, hl.length_contents]
  omega

theorem advance_zero (hl : Layout b s as) : advance as 0 s = s := by
  have hcur : s.cur = as[s.position / s.baseSize]? := by rw [hl.base, hl.cur]
  rw [advance, Nat.add_zero, ← hcur]

theorem advance_advance (as : List ℕ) (m n : ℕ) (s : ByteArray) :
    advance as n (advance as m s) = advance as (m + n) s := by
  simp [advance, Nat.add_assoc]

@[simp] theorem advance_position (as : List ℕ) (n : ℕ) (s : ByteArray) :
    (advance as n s).position = s.position + n := rfl

@[simp] theorem advance_size (as : List ℕ) (n : ℕ) (s : ByteArray) :
    (advance as n s).size = s.size := rfl

@[simp] theorem advance_capacity (as : List ℕ) (n : ℕ) (s : ByteArray) :
    (advance as n s).capacity = s.capacity := rfl

@[simp] theorem advance_endian (as : List ℕ) (n : ℕ) (s : ByteArray) :
    (advance as n s).endian = s.endian := rfl

theorem Layout.advance (hl : Layout b s as) (hn : n ≤ (unread s as).length) :
    Layout b (advance as n s) as := by
  have hpos := hl.position_le
  rw [length_unread hl] at hn
  refine ⟨hl.base, hl.spine, hl.length_pos, hl.capacity, ?_, hl.size_le, ?_⟩
  · rw [advance_position, advance_size]
    omega
  · rw [ByteArray.advance, hl.base]

theorem unread_advance (s : ByteArray) (as : List ℕ) (n : ℕ) :
    unread (advance as n s) as = (unread s as).drop n := by
  rw [unread, unread, advance, List.drop_take, List.drop_drop, Nat.sub_add_eq]

theorem read_done (hl : Layout b s as) (hm : 0 < m) (hle : m ≤ (unread s as).length) :
    read m s = .done ((unread s as).take m) (advance as m s) := by
  rw [length_unread hl] at hle
  rw [(read_spec hl hm hle).1, unread, List.take_take, min_eq_left hle, advance, hl.base]

theorem read_short (hl : Layout b s as) (h : (unread s as).length < m) :
    read m s = .raised (.outOfRange "not enough len to read") s := by
  rw [length_unread hl] at h
  exact read_raises hl h

/-- A read of nothing looks at the node of the cursor all the same. -/
theorem read_zero (hl : Layout b s as) :
    read 0 s = if s.position < s.capacity then .done [] s else .fault .nullPointer := by
  rw [read, Command.state_bind_apply, if_neg (Nat.not_lt_zero _)]
  split_ifs with hlt
  · rcases hl.cur_eq_some hlt with ⟨a, n, hcur, hn, -⟩
    rw [Command.bind_done (deref_eq hcur hn)]
    rfl
  · have hpos := hl.position_le.trans hl.size_le
    have hcur := hl.cur_eq_none_iff.mpr (by omega)
    rw [hcur]
    rfl

end Reads

section Stores

/-- `s₁` is `s` after the bytes `d` have been stored at its cursor. -/
structure Stores (b : ℕ) (s : ByteArray) (as : List ℕ) (d : List UInt8) (s₁ : ByteArray)
    (as₁ : List ℕ) : Prop where
  layout : Layout b s₁ as₁
  endian : s₁.endian = s.endian
  position : s₁.position = s.position + d.length
  size : s₁.size = max s.size (s.position + d.length)
  contents : ∃ pad, s₁.capacity = s.capacity + pad ∧ ByteArray.contents s₁.heap as₁ =
    splice (ByteArray.contents s.heap as ++ List.replicate pad none) s.position (d.map some)

/-- No more nodes have been added than were needed. -/
def Snug (b : ℕ) (s s₁ : ByteArray) : Prop :=
  s₁.capacity = s.capacity ∨ s₁.capacity < s₁.position + b

namespace Stores

theorem nil (hl : Layout b s as) : Stores b s as [] s as := by
  refine ⟨hl, rfl, rfl, ?_, 0, rfl, by simp⟩
  have := hl.position_le
  simpa using this

theorem trans {d₁ d₂ : List UInt8} (hl : Layout b s as) (h₁ : Stores b s as d₁ s₁ as₁)
    (h₂ : Stores b s₁ as₁ d₂ s₂ as₂) : Stores b s as (d₁ ++ d₂) s₂ as₂ := by
  rcases h₁.contents with ⟨pad₁, hcap₁, hcont₁⟩
  rcases h₂.contents with ⟨pad₂, hcap₂, hcont₂⟩
  refine ⟨h₂.layout, h₂.endian.trans h₁.endian, ?_, ?_, pad₁ + pad₂, ?_, ?_⟩
  · rw [h₂.position, h₁.position, List.length_append, Nat.add_assoc]
  · rw [h₂.size, h₁.size, h₁.position, List.length_append]
    omega
  · rw [hcap₂, hcap₁, Nat.add_assoc]
  · -- the first store ends below the capacity it left
    have hroom : s.position + (d₁.map some : List Cell).length ≤
        (ByteArray.contents s.heap as ++ List.replicate pad₁ none).length := by
      have hle := h₁.layout.position_le.trans h₁.layout.size_le
      rw [List.length_append, hl.length_contents, List.length_replicate, ← hcap₁, List.length_map,
        ← h₁.position]
      exact hle
    have hjoin := splice_splice (l := ByteArray.contents s.heap as ++
      List.replicate (pad₁ + pad₂) none) (p := s.position) (d₁.map some) (d₂.map some) (by
        rw [List.length_append, List.length_replicate] at hroom ⊢
        omega)
    rw [List.map_append, ← hjoin, hcont₂, hcont₁, h₁.position, List.length_map,
      ← splice_append_left _ hroom, List.append_assoc, ← List.replicate_add]

/-- Below the high-water mark the bytes at the cursor are replaced. -/
theorem stored_eq {d : List UInt8} (hl : Layout b s as) (h : Stores b s as d s₁ as₁) :
    stored s₁ as₁ = splice (stored s as) s.position (d.map some) := by
  rcases h.contents with ⟨pad, -, hcont⟩
  have hcap := hl.size_le
  have htake := take_splice (l := ByteArray.contents s.heap as ++ List.replicate pad none)
    (d.map some) hl.position_le (by rw [List.length_append, hl.length_contents]; omega)
  rw [List.length_map] at htake
  rw [stored, stored, hcont, h.size, htake,
    List.take_append_of_le_length (by rw [hl.length_contents]; exact hcap)]

end Stores

theorem write_stores (hl : Layout b s as) (d : List UInt8) :
    ∃ s₁ as₁, write d s = .done () s₁ ∧ Stores b s as d s₁ as₁ ∧ Snug b s s₁ := by
  rcases write_spec hl d with ⟨s₁, as₁, pad, hrun, hl₁, hend, hpos, hsize, hcont, hcap, hsnug⟩
  refine ⟨s₁, as₁, hrun, ⟨hl₁, hend, hpos, hsize, pad, hcap, hcont⟩, ?_⟩
  rcases hsnug with rfl | hlt
  · exact .inl hcap
  · right
    rw [hpos]
    exact hlt

theorem Snug.refl (s : ByteArray) : Snug b s s := .inl rfl

theorem Snug.trans (h₁ : Snug b s s₁) (h₂ : Snug b s₁ s₂) (hpos : s₁.position ≤ s₂.position) :
    Snug b s s₂ := by
  rcases h₂ with heq | hlt
  · rcases h₁ with heq' | hlt'
    · exact .inl (heq.trans heq')
    · right
      omega
  · exact .inr hlt

/-- The cursor stands at the capacity only where the nodes there were and those needed end. -/
theorem Snug.position_eq_capacity_iff {d : List UInt8} (hl : Layout b s as)
    (h : Stores b s as d s₁ as₁) (hsnug : Snug b s s₁) :
    s₁.position = s₁.capacity ↔
      s.capacity ≤ s.position + d.length ∧ b ∣ s.position + d.length := by
  rcases h.contents with ⟨pad, hcap, -⟩
  have hle := h.layout.position_le.trans h.layout.size_le
  have hb := hl.spine.pos
  rw [← h.position]
  constructor
  · intro heq
    refine ⟨by omega, ?_⟩
    rw [heq, h.layout.capacity]
    exact Nat.dvd_mul_left _ _
  · rintro ⟨hge, hdvd⟩
    rcases hsnug with hsame | hlt
    · omega
    · have hdvd' : b ∣ s₁.capacity - s₁.position := by
        apply Nat.dvd_sub _ hdvd
        rw [h.layout.capacity]
        exact Nat.dvd_mul_left _ _
      have := Nat.eq_zero_of_dvd_of_lt hdvd' (by omega)
      omega

end Stores

end Sylar.ByteArray
