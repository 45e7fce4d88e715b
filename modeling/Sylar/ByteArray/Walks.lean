import Sylar.ByteArray.Loops

/-! # The loops that follow or rebuild the node list

Growing appends nodes behind the last one, seeking and counting only move along
the list, and clearing frees every node but the first.
-/
namespace Sylar.ByteArray
open Memory

variable {b : ℕ} {as : List ℕ}

theorem lastLoop_spec (fuel i : ℕ) (p : Option ℕ) (s : ByteArray) (hs : Spine b s.heap s.root as)
    (hp : p = as[i]?) (hi : i < as.length) (hfuel : as.length ≤ i + fuel) :
    lastLoop fuel p s = .done as[as.length - 1]? s := by
  induction fuel generalizing i p with
  | zero => omega
  | succ fuel ih =>
    obtain ⟨n, hn, hnext, -, -⟩ := hs.node_at (List.getElem?_eq_getElem hi)
    rw [lastLoop, Command.bind_done (deref_eq (hp.trans (List.getElem?_eq_getElem hi)) hn)]
    by_cases hlast : i + 1 < as.length
    · rw [if_pos (by rw [hnext, List.getElem?_eq_getElem hlast]; rfl)]
      exact ih (i + 1) n.next hnext hlast (by omega)
    · rw [if_neg (by rw [hnext, List.getElem?_eq_none (by omega)]; simp), Command.pure_apply, hp,
        show as.length - 1 = i by omega]

theorem growLoop_spec (count : ℕ) (tmp first : Option ℕ) (s : ByteArray)
    (hs : Spine b s.heap s.root as) (hbase : s.baseSize = b) (htmp : tmp = as[as.length - 1]?)
    (has : 0 < as.length) :
    ∃ h new, growLoop count tmp first s =
        .done (if first.isNone then new[0]? else first)
          { s with heap := h, capacity := s.capacity + count * b } ∧
      new.length = count ∧ Spine b h s.root (as ++ new) ∧
      contents h (as ++ new) = contents s.heap as ++ List.replicate (count * b) none := by
  induction count generalizing tmp first s as with
  | zero =>
    refine ⟨s.heap, [], ?_, rfl, by simpa using hs, by simp⟩
    cases first <;> simp [growLoop]
  | succ count ih =>
    subst hbase
    have hlt : as.length - 1 < as.length := by omega
    have hlast := List.getElem?_eq_getElem hlt
    obtain ⟨n, hn, -, -, -⟩ := hs.node_at hlast
    obtain ⟨hs', hc'⟩ := hs.grow hlast (by omega) hn
    obtain ⟨h, new, hrun, hlen, hspine, hcont⟩ := ih
      (some s.heap.brk) (if first.isNone then some s.heap.brk else first)
      { s with
        heap := (s.heap.alloc (Node.ofSize s.baseSize)).set as[as.length - 1]
          { n with next := some s.heap.brk }
        capacity := s.capacity + s.baseSize }
      hs' rfl (by simp) (by simp)
    dsimp only at hrun hcont
    refine ⟨h, s.heap.brk :: new, ?_, by simp [hlen], by simpa using hspine, ?_⟩
    · rw [growLoop, Command.bind_done (deref_eq (htmp.trans hlast) hn), Command.state_bind_apply,
        Command.modify_bind_apply, htmp, hlast]
      simp only [store, Command.modify_bind_apply]
      rw [hrun, Nat.succ_mul, Nat.add_comm (count * s.baseSize), ← Nat.add_assoc]
      cases first <;> simp
    · rw [List.append_cons, hcont, hc', List.append_assoc, ← List.replicate_add, Nat.succ_mul,
        Nat.add_comm (count * s.baseSize)]

theorem seekLoop_spec (fuel i v : ℕ) (s : ByteArray) (hs : Spine b s.heap s.root as)
    (hcur : s.cur = as[i]?) (hi : i < as.length) (hv : i * b + v ≤ as.length * b)
    (hfuel : v < fuel) :
    ∃ j v', seekLoop fuel v s = .done v' { s with cur := as[j]? } ∧ j < as.length ∧
      i * b + v = j * b + v' ∧ v' ≤ b := by
  induction fuel generalizing i v s with
  | zero => omega
  | succ fuel ih =>
    obtain ⟨n, hn, hnext, hnsize, -⟩ := hs.node_at (List.getElem?_eq_getElem hi)
    have hb := hs.pos
    rw [seekLoop, Command.state_bind_apply,
      Command.bind_done (deref_eq (hcur.trans (List.getElem?_eq_getElem hi)) hn), hnsize]
    by_cases hvb : v > b
    · have hsucc : (i + 1) * b + (v - b) = i * b + v := by rw [Nat.succ_mul]; omega
      have hi' : i + 1 < as.length := by
        by_contra hge
        have hle : as.length * b ≤ (i + 1) * b := Nat.mul_le_mul_right b (by omega)
        rw [Nat.succ_mul] at hle
        omega
      obtain ⟨j, v', hrun, hj, hsum, hv'⟩ := ih (i + 1) (v - b) { s with cur := n.next } hs hnext
        hi' (by omega) (by omega)
      refine ⟨j, v', ?_, hj, by omega, hv'⟩
      rw [if_pos hvb, Command.modify_bind_apply, hrun]
    · refine ⟨i, v, ?_, hi, rfl, by omega⟩
      rw [if_neg hvb, Command.pure_apply, ← hcur]

theorem nthLoop_spec (count i : ℕ) (p : Option ℕ) (s : ByteArray) (hs : Spine b s.heap s.root as)
    (hp : p = as[i]?) (hi : i + count ≤ as.length) :
    nthLoop count p s = .done as[i + count]? s := by
  induction count generalizing i p with
  | zero => simp [nthLoop, hp]
  | succ count ih =>
    have hlt : i < as.length := by omega
    obtain ⟨n, hn, hnext, -, -⟩ := hs.node_at (List.getElem?_eq_getElem hlt)
    rw [nthLoop, Command.bind_done (deref_eq (hp.trans (List.getElem?_eq_getElem hlt)) hn),
      ih (i + 1) n.next hnext (by omega), Nat.add_right_comm, Nat.add_assoc]

/-- Freeing the nodes from number `i` on leaves every other address as it was. -/
theorem freeLoop_spec (fuel i : ℕ) (p : Option ℕ) (s : ByteArray) (hnodup : as.Nodup)
    (hlink : ∀ j a, i ≤ j → as[j]? = some a →
      ∃ n, s.heap.get a = some n ∧ n.next = as[j + 1]?)
    (hp : p = as[i]?) (hfuel : as.length ≤ i + fuel) :
    ∃ h c, freeLoop fuel p s = .done () { s with cur := c, heap := h } ∧
      ∀ a, a ∉ as.drop i → h.get a = s.heap.get a := by
  induction fuel generalizing i p s with
  | zero =>
    rw [hp, List.getElem?_eq_none (by omega)]
    exact ⟨s.heap, s.cur, by simp [freeLoop], fun _ _ => rfl⟩
  | succ fuel ih =>
    cases ha : as[i]? with
    | none =>
      rw [hp, ha]
      exact ⟨s.heap, s.cur, by simp [freeLoop], fun _ _ => rfl⟩
    | some a =>
      obtain ⟨n, hn, hnext⟩ := hlink i a le_rfl ha
      have hlt : i < as.length := (List.getElem?_eq_some_iff.mp ha).1
      obtain ⟨h, c, hrun, hkeep⟩ := ih (i + 1) n.next
        { s with cur := some a, heap := s.heap.free a }
        (by
          intro j c hj hc
          have hca : c ≠ a := by
            rintro rfl
            have hjl : j < as.length := (List.getElem?_eq_some_iff.mp hc).1
            have hji := (List.getElem?_inj hjl hnodup).mp (hc.trans ha.symm)
            omega
          obtain ⟨m, hm, hmnext⟩ := hlink j c (by omega) hc
          exact ⟨m, by simp [hca, hm], hmnext⟩)
        hnext (by omega)
      refine ⟨h, c, ?_, fun c hc => ?_⟩
      · rw [hp, ha, freeLoop, Command.bind_done (deref_eq rfl hn), Command.modify_bind_apply, hrun]
      · rw [List.drop_eq_getElem_cons hlt, List.mem_cons, not_or] at hc
        rw [List.getElem?_eq_getElem hlt, Option.some.injEq] at ha
        rw [hkeep c hc.2]
        exact Heap.get_free_of_ne _ (ha ▸ hc.1)

end Sylar.ByteArray
