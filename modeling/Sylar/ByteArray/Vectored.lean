import Sylar.ByteArray.Layout

/-! # Transfers through the buffers of a `ByteArray`

`recvmsg` and `sendmsg` walk a list of buffers front to back. Over the lists that
`getWriteBuffers` and `getReadBuffers` return this is one store into, and one
load from, the contents at the cursor.
-/
namespace Sylar.ByteArray
open Memory

/-- `recvmsg`: the received bytes fill the buffers in order. -/
def scatter : List Iovec → List UInt8 → Cmd Unit
  | [], _ => pure ()
  | v :: vs, d => do
    copyTo v.node v.offset (d.take v.len)
    scatter vs (d.drop v.len)

/-- `sendmsg`: the first `count` bytes of the buffers. -/
def gather : List Iovec → ℕ → Cmd (List Cell)
  | [], _ => pure []
  | v :: vs, count => do
    let x ← copyFrom v.node v.offset (min count v.len)
    let xs ← gather vs (count - v.len)
    pure (x ++ xs)

variable {b : ℕ} {as : List ℕ}

@[simp] theorem totalLen_cons (v : Iovec) (vs : List Iovec) :
    totalLen (v :: vs) = v.len + totalLen vs := by
  simp [totalLen]

theorem scatter_spec (vs : List Iovec) (d : List UInt8) (p : ℕ) (s : ByteArray)
    (hs : Spine b s.heap s.root as) (hcov : Covers b as p vs)
    (hroom : p + totalLen vs ≤ as.length * b) :
    ∃ h, scatter vs d s = .done () { s with heap := h } ∧ Spine b h s.root as ∧
      contents h as = splice (contents s.heap as) p ((d.take (totalLen vs)).map some) := by
  induction vs generalizing d p s with
  | nil => exact ⟨s.heap, rfl, hs, by simp [totalLen]⟩
  | cons v vs ih =>
    rcases hcov with ⟨hnode, hoff, hlen, hfit, hrest⟩
    rw [totalLen_cons] at hroom
    obtain ⟨a, ha⟩ := hs.exists_node (p := p) (by omega)
    obtain ⟨n, hn, -, -, hptr⟩ := hs.node_at ha
    have hd : (d.take v.len).length ≤ v.len := by simp
    have hq : p % b + ((d.take v.len).map some : List Cell).length ≤ b := by
      rw [List.length_map]
      omega
    obtain ⟨hs', hc'⟩ := hs.overwrite ha hn hq
    have hcopy := copyTo_eq (s := s) (q := p % b) (d := d.take v.len) (hnode.trans ha) hn
      (by rw [hptr]; rw [List.length_map] at hq; exact hq)
    obtain ⟨h, hrun, hs'', hc''⟩ := ih (d.drop v.len) (p + v.len)
      { s with heap := s.heap.set a { n with
        ptr := splice n.ptr (p % b) ((d.take v.len).map some) } } hs' hrest (by omega)
    refine ⟨h, ?_, hs'', ?_⟩
    · rw [scatter, hoff, Command.bind_done hcopy, hrun]
    · have hcontents := hs.length_contents
      rw [hc'', hc', Nat.div_add_mod', totalLen_cons, List.take_add, List.map_append]
      by_cases hshort : d.length ≤ v.len
      · simp [List.drop_eq_nil_of_le hshort]
      · have hfull : ((d.take v.len).map some : List Cell).length = v.len := by
          rw [List.length_map, List.length_take]
          omega
        have hjoin := splice_splice (l := contents s.heap as) (p := p) ((d.take v.len).map some)
          (((d.drop v.len).take (totalLen vs)).map some) (by omega)
        rw [hfull] at hjoin
        exact hjoin

theorem gather_spec (vs : List Iovec) (count p : ℕ) (s : ByteArray)
    (hs : Spine b s.heap s.root as) (hcov : Covers b as p vs)
    (hroom : p + totalLen vs ≤ as.length * b) :
    gather vs count s =
      .done (((contents s.heap as).drop p).take (min count (totalLen vs))) s := by
  induction vs generalizing count p with
  | nil => simp [gather, totalLen]
  | cons v vs ih =>
    rcases hcov with ⟨hnode, hoff, hlen, hfit, hrest⟩
    rw [totalLen_cons] at hroom
    obtain ⟨a, ha⟩ := hs.exists_node (p := p) (by omega)
    obtain ⟨n, hn, -, -, hptr⟩ := hs.node_at ha
    have hq : p % b + min count v.len ≤ b := by omega
    have hcopy := copyFrom_eq (s := s) (q := p % b) (m := min count v.len) (hnode.trans ha) hn
      (by omega)
    rw [hs.read_node ha hn hq, Nat.div_add_mod'] at hcopy
    rw [gather, hoff, Command.bind_done hcopy,
      Command.bind_done (ih (count - v.len) (p + v.len) hrest (by omega)), Command.pure_apply,
      totalLen_cons]
    by_cases hcount : count ≤ v.len
    · rw [Nat.sub_eq_zero_of_le hcount, Nat.zero_min, List.take_zero, List.append_nil,
        min_eq_left hcount, min_eq_left (by omega)]
    · have hsplit : min count (v.len + totalLen vs) =
          v.len + min (count - v.len) (totalLen vs) := by omega
      rw [hsplit, min_eq_right (by omega), take_add_drop]

variable {s : ByteArray}

/-- A receive into the buffers of `getWriteBuffers` stores at the cursor what fits into them. -/
theorem receive_spec (hl : Layout b s as) (len : ℕ) (d : List UInt8) :
    ∃ vs s₁ s₂ as' pad, getWriteBuffers [] len s = .done (len, vs) s₁ ∧
      scatter vs d s₁ = .done () s₂ ∧ Layout b s₂ as' ∧ s₂.position = s.position ∧
      s.position + len ≤ s₂.capacity ∧ s₂.capacity = s.capacity + pad ∧
      contents s₂.heap as' = splice (contents s.heap as ++ List.replicate pad none) s.position
        ((d.take len).map some) := by
  obtain ⟨s₁, as', vs, pad, hget, hl₁, -, hpos, -, hcap, hcont, hcov, htot⟩ :=
    getWriteBuffers_spec hl [] len
  rw [List.nil_append] at hget
  obtain ⟨h, hrun, hs, hc⟩ := scatter_spec vs d s.position s₁ hl₁.spine hcov
    (by rw [htot, ← hl₁.capacity]; exact hcap)
  have hgrown : s₁.capacity = s.capacity + pad := by
    rw [← hl₁.length_contents, hcont, List.length_append, hl.length_contents,
      List.length_replicate]
  rw [htot, hcont] at hc
  exact ⟨vs, s₁, _, as', pad, hget, hrun, ⟨hl₁.base, hs, hl₁.length_pos, hl₁.capacity,
    hl₁.position_le, hl₁.size_le, hl₁.cur⟩, hpos, hcap, hgrown, hc⟩

/-- A send from the buffers of `getReadBuffers` takes bytes from the cursor on. -/
theorem send_spec (hl : Layout b s as) (len w : ℕ) :
    ∃ vs, getReadBuffers [] len s = .done (min len (s.size - s.position), vs) s ∧
      gather vs w s = .done (((contents s.heap as).drop s.position).take
        (min w (min len (s.size - s.position)))) s := by
  have h₁ := hl.size_le
  have h₂ := hl.position_le
  obtain ⟨vs, hget, hcov, htot⟩ := getReadBuffers_spec hl [] len
  rw [List.nil_append] at hget
  have hgather := gather_spec vs w s.position s hl.spine hcov
    (by rw [htot, ← hl.capacity]; omega)
  rw [htot] at hgather
  exact ⟨vs, hget, hgather⟩

end Sylar.ByteArray
