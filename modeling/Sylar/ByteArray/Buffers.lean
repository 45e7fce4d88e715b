import Sylar.ByteArray.Cursor
import Sylar.ByteArray.Vectored

/-! # The buffers of a `ByteArray` against `read` and `write`

The buffers for reading show the stored bytes. Storing into the buffers for writing and then moving
the cursor is a write, whatever the alignment, also where less is stored than was asked for.
-/
namespace Sylar.ByteArray
open Memory

variable {b : ℕ} {s : ByteArray} {as : List ℕ}

def Iovec.Inside (s : ByteArray) (v : Iovec) : Prop :=
  ∃ a n, v.node = some a ∧ s.heap.get a = some n ∧ v.offset + v.len ≤ n.ptr.length

theorem inside_of_covers {p : ℕ} {vs : List Iovec} (hs : Spine b s.heap s.root as)
    (hcov : Covers b as p vs) (hroom : p + totalLen vs ≤ as.length * b) :
    ∀ v ∈ vs, v.Inside s := by
  induction vs generalizing p with
  | nil => nofun
  | cons v vs ih =>
    rcases hcov with ⟨hnode, hoff, hlen, hfit, hrest⟩
    rw [totalLen_cons] at hroom
    rw [List.forall_mem_cons]
    refine ⟨?_, ih hrest (by omega)⟩
    rcases hs.exists_node (p := p) (by omega) with ⟨a, ha⟩
    rcases hs.node_at ha with ⟨n, hn, -, -, hptr⟩
    exact ⟨a, n, hnode.trans ha, hn, by omega⟩

theorem gather_covers {p len : ℕ} {vs : List Iovec} (hl : Layout b s as) (hcov : Covers b as p vs)
    (htot : totalLen vs = min len (s.size - p)) :
    (∀ v ∈ vs, v.Inside s) ∧
      gather vs (totalLen vs) s = .done (((stored s as).drop p).take len) s := by
  have hsize := hl.size_le
  have hcut : ((contents s.heap as).drop p).take (min len (s.size - p)) =
      ((stored s as).drop p).take len := by
    rw [stored, List.drop_take, List.take_take]
  cases vs with
  | nil =>
    change 0 = _ at htot
    rw [← hcut, ← htot]
    exact ⟨List.forall_mem_nil _, rfl⟩
  | cons v vs =>
    have hlen := hcov.2.2.1
    have hroom : p + totalLen (v :: vs) ≤ as.length * b := by
      rw [htot, ← hl.capacity]
      rw [totalLen_cons] at htot
      omega
    have hgather := gather_spec (v :: vs) (totalLen (v :: vs)) p s hl.spine hcov hroom
    rw [min_self, htot, hcut, ← htot] at hgather
    exact ⟨inside_of_covers hl.spine hcov hroom, hgather⟩

/-- Storing into the buffers of `getWriteBuffers` and moving the cursor is a store. -/
theorem getWriteBuffers_stores (hl : Layout b s as) (buffers : List Iovec) {n : ℕ}
    {d : List UInt8} (hd : d.length ≤ n) :
    ∃ vs s₁ s₂ s₃ as₃, getWriteBuffers buffers n s = .done (n, buffers ++ vs) s₁ ∧
      totalLen vs = n ∧ (∀ v ∈ vs, v.Inside s₁) ∧ scatter vs d s₁ = .done () s₂ ∧
      setPosition (s₂.position + d.length) s₂ = .done () s₃ ∧ Stores b s as d s₃ as₃ := by
  rcases getWriteBuffers_spec hl buffers n with
    ⟨s₁, as₁, vs, pad, hget, hl₁, hend, hpos, hsize, hcap, hcont, hcov, htot⟩
  have hroom : s.position + totalLen vs ≤ as₁.length * b := by
    rw [htot, ← hl₁.capacity]
    exact hcap
  rcases scatter_spec vs d s.position s₁ hl₁.spine hcov hroom with ⟨h, hscatter, hspine, hc⟩
  have hl₂ : Layout b { s₁ with heap := h } as₁ :=
    ⟨hl₁.base, hspine, hl₁.length_pos, hl₁.capacity, hl₁.position_le, hl₁.size_le, hl₁.cur⟩
  rcases setPosition_spec hl₂ (v := s₁.position + d.length) (by dsimp only; omega) with
    ⟨hseek, hl₃⟩
  have hgrown : s₁.capacity = s.capacity + pad := by
    rw [← hl₁.length_contents, hcont, List.length_append, hl.length_contents,
      List.length_replicate]
  rw [htot, hcont, List.take_of_length_le hd] at hc
  refine ⟨vs, s₁, _, _, as₁, hget, htot, inside_of_covers hl₁.spine hcov hroom, hscatter, hseek,
    hl₃, hend, ?_, ?_, pad, hgrown, hc⟩
  · dsimp only
    rw [hpos]
  · dsimp only
    rw [hsize, hpos]

/-- In every laid out state, `getReadBuffers` and `getReadBuffersAt` append buffers inside the
nodes that show the stored bytes asked for; and `k ≤ n` bytes stored into the buffers of
`getWriteBuffers(n)`, followed by a move of the cursor by `k`, leave what `write` leaves. -/
theorem buffers_exact (hl : Layout b s as) :
    (∀ buffers len, ∃ vs, getReadBuffers buffers len s = .done (totalLen vs, buffers ++ vs) s ∧
      totalLen vs = min len (s.size - s.position) ∧ (∀ v ∈ vs, v.Inside s) ∧
      gather vs (totalLen vs) s = .done (((stored s as).drop s.position).take len) s) ∧
    (∀ buffers len position, ∃ vs,
      getReadBuffersAt buffers len position s = .done (totalLen vs, buffers ++ vs) s ∧
      totalLen vs = min len (s.size - position) ∧ (∀ v ∈ vs, v.Inside s) ∧
      gather vs (totalLen vs) s = .done (((stored s as).drop position).take len) s) ∧
    ∀ buffers n (d : List UInt8), 1 ≤ n → d.length ≤ n →
      ∃ vs s₁ s₂ s₃ s' as₃ as', getWriteBuffers buffers n s = .done (n, buffers ++ vs) s₁ ∧
        totalLen vs = n ∧ (∀ v ∈ vs, v.Inside s₁) ∧ scatter vs d s₁ = .done () s₂ ∧
        setPosition (s₂.position + d.length) s₂ = .done () s₃ ∧ write d s = .done () s' ∧
        Layout b s₃ as₃ ∧ Layout b s' as' ∧ s₃.position = s'.position ∧ s₃.size = s'.size ∧
        stored s₃ as₃ = stored s' as' := by
  refine ⟨fun buffers len => ?_, fun buffers len position => ?_, fun buffers n d _ hd => ?_⟩
  · rcases getReadBuffers_spec hl buffers len with ⟨vs, hget, hcov, htot⟩
    rw [← htot] at hget
    exact ⟨vs, hget, htot, gather_covers hl hcov htot⟩
  · rcases getReadBuffersAt_spec hl buffers len position with ⟨vs, hget, hcov, htot⟩
    rw [← htot] at hget
    exact ⟨vs, hget, htot, gather_covers hl hcov htot⟩
  · rcases getWriteBuffers_stores hl buffers hd with
      ⟨vs, s₁, s₂, s₃, as₃, hget, htot, hin, hscatter, hseek, hst₃⟩
    rcases write_stores hl d with ⟨s', as', hwrite, hst', -⟩
    refine ⟨vs, s₁, s₂, s₃, s', as₃, as', hget, htot, hin, hscatter, hseek, hwrite, hst₃.layout,
      hst'.layout, ?_, ?_, ?_⟩
    · rw [hst₃.position, hst'.position]
    · rw [hst₃.size, hst'.size]
    · rw [hst₃.stored_eq hl, hst'.stored_eq hl]

/-- Five bytes are stored in blocks of four and the cursor is set back to the second one: what the
buffers for reading show, and three bytes stored into the buffers for nine. -/
theorem buffers_exact_three : ∃ s₁ s as, write [1, 2, 3, 4, 5] (new 4) = .done () s₁ ∧
    setPosition 1 s₁ = .done () s ∧ Layout 4 s as ∧
    (∃ vs, getReadBuffers [] 4 s = .done (totalLen vs, [] ++ vs) s ∧ totalLen vs = 4 ∧
      (∀ v ∈ vs, v.Inside s) ∧
      gather vs (totalLen vs) s = .done [some 2, some 3, some 4, some 5] s) ∧
    (∃ vs, getReadBuffersAt [] 9 3 s = .done (totalLen vs, [] ++ vs) s ∧ totalLen vs = 2 ∧
      (∀ v ∈ vs, v.Inside s) ∧ gather vs (totalLen vs) s = .done [some 4, some 5] s) ∧
    ∃ vs s₂ s₃ s₄ s' as₄ as', getWriteBuffers [] 9 s = .done (9, [] ++ vs) s₂ ∧ totalLen vs = 9 ∧
      (∀ v ∈ vs, v.Inside s₂) ∧ scatter vs [6, 7, 8] s₂ = .done () s₃ ∧
      setPosition (s₃.position + 3) s₃ = .done () s₄ ∧ write [6, 7, 8] s = .done () s' ∧
      Layout 4 s₄ as₄ ∧ Layout 4 s' as' ∧ s₄.position = s'.position ∧ s₄.size = s'.size ∧
      stored s₄ as₄ = stored s' as' := by
  have hnew := new_layout (b := 4) (by decide)
  obtain ⟨s₁, as, hwrite, hst, -⟩ := write_stores hnew [1, 2, 3, 4, 5]
  obtain ⟨s, hseek, hl, hpos, hsize, hstored⟩ : ∃ s, setPosition 1 s₁ = .done () s ∧
      Layout 4 s as ∧ s.position = 1 ∧ s.size = 5 ∧
      stored s as = [some 1, some 2, some 3, some 4, some 5] := by
    have hsize : s₁.size = 5 := hst.size
    have hsame : max s₁.size 1 = s₁.size := max_eq_left (by omega)
    obtain ⟨hseek, hl⟩ := setPosition_spec hst.layout (v := 1) (by
      have hle := hst.layout.size_le
      omega)
    rw [hsame] at hseek hl
    exact ⟨_, hseek, hl, rfl, hsize, hst.stored_eq hnew⟩
  obtain ⟨hread, hat, hstore⟩ := buffers_exact hl
  rw [hpos, hsize, hstored] at hread
  rw [hsize, hstored] at hat
  exact ⟨s₁, s, as, hwrite, hseek, hl, hread [] 4, hat [] 9 3,
    hstore [] 9 [6, 7, 8] (by decide) (by decide)⟩

end Sylar.ByteArray
