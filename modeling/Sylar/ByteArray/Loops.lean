import Sylar.ByteArray.Spine

/-! # What each loop of `ByteArray` does to the contents

Every loop starts at node number `position / b` with offset `position % b` and
leaves the node pointer at the node of the position it reached, or at null when
that position is the capacity.
-/
namespace Sylar.ByteArray
open Memory

section Offsets
variable {p b k : ℕ}

theorem add_div_of_lt (h : p % b + k < b) : (p + k) / b = p / b := by
  have hb : 0 < b := by omega
  have hp : p + k = b * (p / b) + (p % b + k) := by rw [← Nat.add_assoc, Nat.div_add_mod]
  rw [hp, Nat.mul_add_div hb, Nat.div_eq_of_lt h, Nat.add_zero]

theorem add_div_of_eq (hb : 0 < b) (h : p % b + k = b) : (p + k) / b = p / b + 1 := by
  have hp : p + k = b * (p / b) + (p % b + k) := by rw [← Nat.add_assoc, Nat.div_add_mod]
  rw [hp, h, Nat.mul_add_div hb, Nat.div_self hb]

theorem add_mod_of_eq (h : p % b + k = b) : (p + k) % b = 0 := by
  have hp : p + k = b * (p / b) + (p % b + k) := by rw [← Nat.add_assoc, Nat.div_add_mod]
  rw [hp, h, Nat.mul_add_mod, Nat.mod_self]

theorem div_mul_add_mod (p b : ℕ) : p / b * b + p % b = p := by
  rw [Nat.mul_comm, Nat.div_add_mod]

/-- Reading or writing `k` bytes that end in the current block moves the cursor by the one
comparison the code makes. -/
theorem cursor_after (as : List ℕ) (hb : 0 < b) (h : p % b + k ≤ b) :
    (if b = p % b + k then as[p / b + 1]? else as[p / b]?) = as[(p + k) / b]? := by
  split_ifs with he
  · rw [add_div_of_eq hb he.symm]
  · rw [add_div_of_lt (by omega)]

end Offsets

variable {b : ℕ} {as : List ℕ}

theorem writeLoop_zero (buf : List UInt8) (fuel npos ncap bpos : ℕ) (s : ByteArray) :
    writeLoop buf (fuel + 1) 0 npos ncap bpos s = .done () s := by
  simp [writeLoop]

theorem writeLoop_spec (buf : List UInt8) (fuel size bpos : ℕ) (s : ByteArray)
    (hs : Spine b s.heap s.root as) (hcur : s.cur = as[s.position / b]?)
    (hroom : s.position + size ≤ as.length * b) (hbuf : bpos + size ≤ buf.length)
    (hfuel : size < fuel) :
    ∃ h, writeLoop buf fuel size (s.position % b) (b - s.position % b) bpos s =
        .done () { s with
          position := s.position + size, cur := as[(s.position + size) / b]?, heap := h } ∧
      Spine b h s.root as ∧
      contents h as =
        splice (contents s.heap as) s.position (((buf.drop bpos).take size).map some) := by
  induction fuel generalizing size bpos s with
  | zero => omega
  | succ fuel ih =>
    by_cases hsize : size = 0
    · subst hsize
      refine ⟨s.heap, ?_, hs, by simp⟩
      rw [writeLoop_zero, Nat.add_zero, ← hcur]
    obtain ⟨a, ha⟩ := hs.exists_node (p := s.position) (by omega)
    obtain ⟨n, hn, hnext, hnsize, hnptr⟩ := hs.node_at ha
    have hmod : s.position % b < b := Nat.mod_lt _ hs.pos
    rw [ha] at hcur
    have hlen (m : ℕ) (hm : m ≤ size) : ((buf.drop bpos).take m).length = m := by
      simp; omega
    by_cases hncap : b - s.position % b ≥ size
    · have hq : s.position % b + ((buf.drop bpos).take size).length ≤ b := by
        rw [hlen size le_rfl]; omega
      obtain ⟨hs', hc'⟩ := hs.overwrite (d := ((buf.drop bpos).take size).map some) ha hn
        (by simpa using hq)
      refine ⟨_, ?_, hs', by rw [hc', div_mul_add_mod]⟩
      simp only [writeLoop, if_neg hsize, if_pos hncap, Command.state_bind_apply]
      rw [Command.bind_done (copyTo_eq hcur hn (by omega)),
        Command.bind_done (deref_eq hcur (Heap.get_set_self _ _ _))]
      have hfinal := cursor_after as hs.pos (show s.position % b + size ≤ b by omega)
      obtain ⟨fuel, rfl⟩ : ∃ f, fuel = f + 1 := ⟨fuel - 1, by omega⟩
      by_cases he : n.size = s.position % b + size
      · rw [if_pos he, Command.modify_bind_apply, Command.modify_bind_apply, writeLoop_zero]
        rw [if_pos (hnsize ▸ he), ← hnext] at hfinal
        rw [← hfinal]
      · rw [if_neg he, Command.modify_bind_apply, writeLoop_zero]
        rw [if_neg (hnsize ▸ he), ha] at hfinal
        rw [← hfinal, ← hcur]
    · have hq : s.position % b + ((buf.drop bpos).take (b - s.position % b)).length ≤ b := by
        rw [hlen _ (by omega)]; omega
      obtain ⟨hs', hc'⟩ := hs.overwrite
        (d := ((buf.drop bpos).take (b - s.position % b)).map some) ha hn (by simpa using hq)
      have hend : s.position % b + (b - s.position % b) = b := by omega
      have hdiv := add_div_of_eq hs.pos hend
      have hmod' := add_mod_of_eq hend
      -- the rest of the data starts at offset 0 of the next node
      obtain ⟨a', ha'⟩ := hs'.exists_node (p := s.position + (b - s.position % b)) (by omega)
      obtain ⟨n', hn', -, hnsize', -⟩ := hs'.node_at ha'
      obtain ⟨h, hrun, hspine, hcont⟩ := ih (size - (b - s.position % b))
        (bpos + (b - s.position % b))
        { s with
          position := s.position + (b - s.position % b)
          cur := n.next
          heap := s.heap.set a { n with
            ptr := splice n.ptr (s.position % b)
              (((buf.drop bpos).take (b - s.position % b)).map some) } }
        hs' (by rw [hnext, hdiv]) (by dsimp only; omega) (by omega) (by omega)
      dsimp only at hrun hcont
      refine ⟨h, ?_, hspine, ?_⟩
      · have hsum : s.position + (b - s.position % b) + (size - (b - s.position % b)) =
            s.position + size := by omega
        rw [hmod', Nat.sub_zero, hsum] at hrun
        simp only [writeLoop, if_neg hsize, if_neg hncap, Command.state_bind_apply]
        rw [Command.bind_done (copyTo_eq hcur hn (by omega)), Command.modify_bind_apply,
          Command.bind_done (deref_eq hcur (Heap.get_set_self _ _ _)), Command.modify_bind_apply,
          Command.bind_done (deref_eq (by rw [hnext, ← hdiv, ha']) hn'), hnsize', hrun]
      · rw [hcont, hc', div_mul_add_mod]
        have hsplit : (buf.drop bpos).take size =
            (buf.drop bpos).take (b - s.position % b) ++
              (buf.drop (bpos + (b - s.position % b))).take (size - (b - s.position % b)) := by
          rw [← take_add_drop, Nat.add_sub_cancel' (by omega)]
        rw [hsplit, List.map_append, ← splice_splice _ _ (by rw [hs.length_contents]; omega),
          List.length_map, hlen _ (by omega)]

theorem readLoop_zero (fuel npos ncap : ℕ) (buf : List Cell) (s : ByteArray) :
    readLoop (fuel + 1) 0 npos ncap buf s = .done buf s := by
  simp [readLoop]

theorem readLoop_spec (fuel m : ℕ) (buf : List Cell) (s : ByteArray)
    (hs : Spine b s.heap s.root as) (hcur : s.cur = as[s.position / b]?)
    (hroom : s.position + m ≤ as.length * b) (hfuel : m < fuel) :
    readLoop fuel m (s.position % b) (b - s.position % b) buf s =
      .done (buf ++ ((contents s.heap as).drop s.position).take m)
        { s with position := s.position + m, cur := as[(s.position + m) / b]? } := by
  induction fuel generalizing m buf s with
  | zero => omega
  | succ fuel ih =>
    by_cases hm : m = 0
    · subst hm
      rw [readLoop_zero, Nat.add_zero, ← hcur]
      simp
    obtain ⟨a, ha⟩ := hs.exists_node (p := s.position) (by omega)
    obtain ⟨n, hn, hnext, hnsize, hnptr⟩ := hs.node_at ha
    have hmod : s.position % b < b := Nat.mod_lt _ hs.pos
    have hpos := div_mul_add_mod s.position b
    rw [ha] at hcur
    by_cases hncap : b - s.position % b ≥ m
    · simp only [readLoop, if_neg hm, if_pos hncap, Command.state_bind_apply]
      rw [Command.bind_done (copyFrom_eq hcur hn (by omega)), Command.bind_done (deref_eq hcur hn),
        hs.read_node ha hn (by omega), hpos]
      have hfinal := cursor_after as hs.pos (show s.position % b + m ≤ b by omega)
      obtain ⟨fuel, rfl⟩ : ∃ f, fuel = f + 1 := ⟨fuel - 1, by omega⟩
      by_cases he : n.size = s.position % b + m
      · rw [if_pos he, Command.modify_bind_apply, Command.modify_bind_apply, readLoop_zero]
        rw [if_pos (hnsize ▸ he), ← hnext] at hfinal
        rw [← hfinal]
      · rw [if_neg he, Command.modify_bind_apply, readLoop_zero]
        rw [if_neg (hnsize ▸ he), ha] at hfinal
        rw [← hfinal, ← hcur]
    · have hend : s.position % b + (b - s.position % b) = b := by omega
      have hdiv := add_div_of_eq hs.pos hend
      obtain ⟨a', ha'⟩ := hs.exists_node (p := s.position + (b - s.position % b)) (by omega)
      obtain ⟨n', hn', -, hnsize', -⟩ := hs.node_at ha'
      have hrun := ih (m - (b - s.position % b))
        (buf ++ ((contents s.heap as).drop s.position).take (b - s.position % b))
        { s with position := s.position + (b - s.position % b), cur := n.next }
        hs (by rw [hnext, hdiv]) (by dsimp only; omega) (by omega)
      have hsum : s.position + (b - s.position % b) + (m - (b - s.position % b)) =
          s.position + m := by omega
      dsimp only at hrun
      rw [add_mod_of_eq hend, Nat.sub_zero, hsum, List.append_assoc, ← take_add_drop,
        Nat.add_sub_cancel' (by omega)] at hrun
      simp only [readLoop, if_neg hm, if_neg hncap, Command.state_bind_apply]
      rw [Command.bind_done (copyFrom_eq hcur hn (by omega)), Command.modify_bind_apply,
        Command.bind_done (deref_eq hcur (by exact hn)), Command.modify_bind_apply,
        Command.bind_done (deref_eq (by rw [hnext, ← hdiv, ha']) (by exact hn')),
        hs.read_node ha hn (by omega), hpos, hnsize', hrun]

theorem peekLoop_spec (fuel m p : ℕ) (cur : Option ℕ) (buf : List Cell) (s : ByteArray)
    (hs : Spine b s.heap s.root as) (hcur : cur = as[p / b]?) (hroom : p + m ≤ as.length * b)
    (hfuel : m < fuel) :
    peekLoop fuel m (p % b) (b - p % b) cur buf s =
      .done (buf ++ ((contents s.heap as).drop p).take m) s := by
  induction fuel generalizing m p cur buf with
  | zero => omega
  | succ fuel ih =>
    by_cases hm : m = 0
    · subst hm
      simp [peekLoop]
    obtain ⟨a, ha⟩ := hs.exists_node (p := p) (by omega)
    obtain ⟨n, hn, hnext, hnsize, hnptr⟩ := hs.node_at ha
    have hmod : p % b < b := Nat.mod_lt _ hs.pos
    have hpos := div_mul_add_mod p b
    rw [ha] at hcur
    by_cases hncap : b - p % b ≥ m
    · simp only [peekLoop, if_neg hm, if_pos hncap]
      rw [Command.bind_done (copyFrom_eq hcur hn (by omega)), hs.read_node ha hn (by omega), hpos,
        Command.pure_apply]
    · have hend : p % b + (b - p % b) = b := by omega
      have hdiv := add_div_of_eq hs.pos hend
      obtain ⟨a', ha'⟩ := hs.exists_node (p := p + (b - p % b)) (by omega)
      obtain ⟨n', hn', -, hnsize', -⟩ := hs.node_at ha'
      have hrun := ih (m - (b - p % b)) (p + (b - p % b)) n.next
        (buf ++ ((contents s.heap as).drop p).take (b - p % b))
        (by rw [hnext, hdiv]) (by omega) (by omega)
      rw [add_mod_of_eq hend, Nat.sub_zero, List.append_assoc, ← take_add_drop,
        Nat.add_sub_cancel' (by omega)] at hrun
      simp only [peekLoop, if_neg hm, if_neg hncap]
      rw [Command.bind_done (copyFrom_eq hcur hn (by omega)), Command.bind_done (deref_eq hcur hn),
        Command.bind_done (deref_eq (by rw [hnext, ← hdiv, ha']) hn'),
        hs.read_node ha hn (by omega), hpos, hnsize', hrun]

/-- The buffers of a list describe the contents from position `p` on, block by block. -/
def Covers (b : ℕ) (as : List ℕ) : ℕ → List Iovec → Prop
  | _, [] => True
  | p, v :: vs => v.node = as[p / b]? ∧ v.offset = p % b ∧ 0 < v.len ∧ v.offset + v.len ≤ b ∧
      Covers b as (p + v.len) vs

def totalLen (vs : List Iovec) : ℕ := (vs.map Iovec.len).sum

theorem iovLoop_zero (fuel npos ncap : ℕ) (cur : Option ℕ) (buffers : List Iovec) (s : ByteArray) :
    iovLoop (fuel + 1) 0 npos ncap cur buffers s = .done buffers s := by
  simp [iovLoop]

theorem iovLoop_spec (fuel len p : ℕ) (cur : Option ℕ) (buffers : List Iovec) (s : ByteArray)
    (hs : Spine b s.heap s.root as) (hcur : cur = as[p / b]?) (hroom : p + len ≤ as.length * b)
    (hfuel : len < fuel) :
    ∃ vs, iovLoop fuel len (p % b) (b - p % b) cur buffers s = .done (buffers ++ vs) s ∧
      Covers b as p vs ∧ totalLen vs = len := by
  induction fuel generalizing len p cur buffers with
  | zero => omega
  | succ fuel ih =>
    by_cases hlen : len = 0
    · subst hlen
      exact ⟨[], by rw [iovLoop_zero, List.append_nil], trivial, rfl⟩
    have hmod : p % b < b := Nat.mod_lt _ hs.pos
    by_cases hncap : b - p % b ≥ len
    · obtain ⟨fuel, rfl⟩ : ∃ f, fuel = f + 1 := ⟨fuel - 1, by omega⟩
      refine ⟨[⟨cur, p % b, len⟩], ?_, ⟨hcur, rfl, Nat.pos_of_ne_zero hlen, ?_, trivial⟩,
        by simp [totalLen]⟩
      · rw [iovLoop, if_neg hlen, if_pos hncap, iovLoop_zero]
      · dsimp only
        omega
    · obtain ⟨a, ha⟩ := hs.exists_node (p := p) (by omega)
      obtain ⟨n, hn, hnext, hnsize, hnptr⟩ := hs.node_at ha
      have hend : p % b + (b - p % b) = b := by omega
      have hdiv := add_div_of_eq hs.pos hend
      obtain ⟨a', ha'⟩ := hs.exists_node (p := p + (b - p % b)) (by omega)
      obtain ⟨n', hn', -, hnsize', -⟩ := hs.node_at ha'
      obtain ⟨vs, hrun, hcov, htot⟩ := ih (len - (b - p % b)) (p + (b - p % b)) n.next
        (buffers ++ [⟨cur, p % b, b - p % b⟩]) (by rw [hnext, hdiv]) (by omega) (by omega)
      refine ⟨⟨cur, p % b, b - p % b⟩ :: vs, ?_,
        ⟨hcur, rfl, Nat.sub_pos_of_lt hmod, hend.le, hcov⟩, ?_⟩
      · rw [add_mod_of_eq hend, Nat.sub_zero, List.append_assoc, List.singleton_append] at hrun
        rw [iovLoop, if_neg hlen, if_neg hncap]
        rw [Command.bind_done (deref_eq (hcur.trans ha) hn),
          Command.bind_done (deref_eq (by rw [hnext, ← hdiv, ha']) hn'), hnsize', hrun]
      · simp only [totalLen, List.map_cons, List.sum_cons] at htot ⊢
        omega

end Sylar.ByteArray
