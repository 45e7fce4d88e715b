import Sylar.ByteArray.Walks

/-! # The representation invariant and one specification per operation

`Layout b s as` says that the nodes at the addresses `as` are the whole list,
that each has the base size, and that the cached node pointer is the node of
the cursor. Each operation is described once, by what it returns and by the
layout and contents it leaves.
-/
namespace Sylar.ByteArray
open Memory

structure Layout (b : ℕ) (s : ByteArray) (as : List ℕ) : Prop where
  base : s.baseSize = b
  spine : Spine b s.heap s.root as
  length_pos : 0 < as.length
  capacity : s.capacity = as.length * b
  position_le : s.position ≤ s.size
  size_le : s.size ≤ s.capacity
  cur : s.cur = as[s.position / b]?

variable {b : ℕ} {s : ByteArray} {as : List ℕ}

theorem new_layout (hb : 0 < b) : Layout b (new b) [0] where
  base := rfl
  spine := by
    refine ⟨hb, ⟨rfl, fun i a hi => ?_⟩, fun a ha n hn => ?_⟩
    · obtain ⟨rfl, rfl⟩ : i = 0 ∧ a = 0 := by
        cases i <;> simp_all
      exact ⟨Node.ofSize b, by simp [new, Heap.get, Heap.alloc, Heap.set, Heap.empty], rfl⟩
    · rw [List.mem_singleton.mp ha] at hn
      simp only [new, Heap.get, Heap.alloc, Heap.set, Heap.empty, Function.update_self,
        Option.some.injEq] at hn
      subst hn
      simp [Node.ofSize]
  length_pos := by simp
  capacity := by simp [new]
  position_le := le_rfl
  size_le := Nat.zero_le _
  cur := by simp [new]

namespace Layout

theorem length_contents (hl : Layout b s as) : (contents s.heap as).length = s.capacity := by
  rw [hl.spine.length_contents, hl.capacity]

theorem sizeForRead (hl : Layout b s as) : s.getSizeForRead = s.size - s.position := by
  have h := hl.position_le
  rw [getSizeForRead, if_neg (by omega)]

/-- Below the capacity the cached pointer is the node of the cursor. -/
theorem cur_eq_some (hl : Layout b s as) (hlt : s.position < s.capacity) :
    ∃ a n, s.cur = some a ∧ s.heap.get a = some n ∧ n.size = b := by
  obtain ⟨a, ha⟩ := hl.spine.exists_node (p := s.position) (by rw [← hl.capacity]; exact hlt)
  obtain ⟨n, hn, -, hsize, -⟩ := hl.spine.node_at ha
  exact ⟨a, n, hl.cur.trans ha, hn, hsize⟩

theorem cur_eq_none_iff (hl : Layout b s as) : s.cur = none ↔ s.position = s.capacity := by
  have hb := hl.spine.pos
  have h₁ := hl.position_le
  have h₂ := hl.size_le
  rw [hl.cur, List.getElem?_eq_none_iff, Nat.le_div_iff_mul_le hb, ← hl.capacity]
  omega

end Layout

/-- The node count `⌈e / b⌉` computed by the code is the least that holds `e` bytes. -/
theorem nodeCount_spec {e : ℕ} (hb : 0 < b) :
    e ≤ (e / b + (if e % b ≠ 0 then 1 else 0)) * b ∧
      ∀ k, e ≤ k * b → e / b + (if e % b ≠ 0 then 1 else 0) ≤ k := by
  have hdm := Nat.div_add_mod' e b
  have hmod := Nat.mod_lt e hb
  split_ifs with h
  · refine ⟨by rw [Nat.succ_mul]; omega, fun k hk => ?_⟩
    by_contra hlt
    have hle : k * b ≤ e / b * b := Nat.mul_le_mul_right b (by omega)
    omega
  · refine ⟨by rw [Nat.add_zero]; omega, fun k hk => ?_⟩
    rw [Nat.add_zero]
    exact Nat.le_of_mul_le_mul_right (by omega) hb

/-- Growth appends the least number of fresh nodes that gives the requested room, and
reattaches a cursor that stood at the old capacity to the first of them. -/
theorem addCapacityIfNeeded_spec (hl : Layout b s as) (m : ℕ) :
    ∃ h new, addCapacityIfNeeded m s = .done () { s with
        heap := h
        capacity := s.capacity + new.length * b
        cur := (as ++ new)[s.position / b]? } ∧
      Layout b { s with
        heap := h
        capacity := s.capacity + new.length * b
        cur := (as ++ new)[s.position / b]? } (as ++ new) ∧
      contents h (as ++ new) =
        contents s.heap as ++ List.replicate (new.length * b) none ∧
      m ≤ s.capacity + new.length * b - s.position ∧
      ∀ k, m ≤ s.capacity + k * b - s.position → new.length ≤ k := by
  have hb := hl.spine.pos
  have hpos : s.position ≤ s.capacity := hl.position_le.trans hl.size_le
  by_cases henough : m ≤ s.getSizeForWrite
  · have hrun : addCapacityIfNeeded m s = .done () s := by
      rw [addCapacityIfNeeded]
      by_cases hm : m = 0
      · rw [if_pos hm, Command.pure_apply]
      · rw [if_neg hm, Command.state_bind_apply, if_pos henough, Command.pure_apply]
    rw [getSizeForWrite] at henough
    refine ⟨s.heap, [], ?_, ?_, by simp, by simpa using henough, by simp⟩
    · simpa [← hl.cur] using hrun
    · simpa [← hl.cur] using hl
  · have henough' : ¬ m ≤ s.capacity - s.position := henough
    have hm : m ≠ 0 := by omega
    have hlt : as.length - 1 < as.length := by have := hl.length_pos; omega
    obtain ⟨hcount, hleast⟩ := nodeCount_spec (e := m - s.getSizeForWrite) hb
    set count := (m - s.getSizeForWrite) / b +
      (if (m - s.getSizeForWrite) % b ≠ 0 then 1 else 0) with hcountdef
    obtain ⟨h, new, hgrow, hlen, hspine, hcont⟩ := growLoop_spec count as[as.length - 1]? none s
      hl.spine hl.base rfl hl.length_pos
    rw [Option.isNone_none, if_pos rfl] at hgrow
    rw [getSizeForWrite] at hcount hleast
    have hcountpos : 0 < count := by
      by_contra h0
      rw [Nat.eq_zero_of_not_pos h0] at hcount
      omega
    have hcur : (if s.getSizeForWrite = 0 then new[0]? else s.cur) =
        (as ++ new)[s.position / b]? := by
      rw [getSizeForWrite]
      split_ifs with hfull
      · rw [show s.position = as.length * b by rw [← hl.capacity]; omega,
          Nat.mul_div_cancel _ hb, List.getElem?_append_right le_rfl, Nat.sub_self]
      · rw [hl.cur, List.getElem?_append_left]
        rw [Nat.div_lt_iff_lt_mul hb, ← hl.capacity]
        omega
    refine ⟨h, new, ?_, ⟨hl.base, hspine, by simp; have := hl.length_pos; omega, ?_, hl.position_le,
      ?_, rfl⟩, by rw [hlen]; exact hcont, by rw [hlen]; omega, fun k hk => ?_⟩
    · rw [addCapacityIfNeeded, if_neg hm, Command.state_bind_apply, if_neg henough, hl.base,
        Command.bind_done (lastLoop_spec _ 0 _ s hl.spine hl.spine.chain.head hl.length_pos
          (by have := hl.spine.chain.length_le_brk; omega))]
      rw [← hcountdef, Command.bind_done hgrow, ← hcur, hlen]
      split_ifs with hfull
      · rw [Command.modify_apply, hl.base]
      · rw [Command.pure_apply, hl.base]
    · dsimp only
      rw [List.length_append, Nat.add_mul, hl.capacity]
    · exact hl.size_le.trans (Nat.le_add_right _ _)
    · rw [hlen]
      exact hleast k (by omega)

theorem write_spec (hl : Layout b s as) (buf : List UInt8) :
    ∃ s' as' pad, write buf s = .done () s' ∧ Layout b s' as' ∧ s'.endian = s.endian ∧
      s'.position = s.position + buf.length ∧ s'.size = max s.size (s.position + buf.length) ∧
      contents s'.heap as' =
        splice (contents s.heap as ++ List.replicate pad none) s.position (buf.map some) ∧
      s'.capacity = s.capacity + pad ∧
      (pad = 0 ∨ s'.capacity < s.position + buf.length + b) := by
  by_cases hbuf : buf.length = 0
  · have hnil := List.length_eq_zero_iff.mp hbuf
    subst hnil
    have hle := hl.position_le
    exact ⟨s, as, 0, by simp [write], hl, rfl, rfl, by simp [hle], by simp, rfl, .inl rfl⟩
  obtain ⟨h, new, hadd, hl', hcont, hroom, hleast⟩ := addCapacityIfNeeded_spec hl buf.length
  have hsnug : new.length * b = 0 ∨
      s.capacity + new.length * b < s.position + buf.length + b := by
    cases hnew : new.length with
    | zero => exact .inl (Nat.zero_mul b)
    | succ k =>
      right
      have hk := hleast k
      rw [Nat.succ_mul]
      omega
  set s₁ : ByteArray := { s with
    heap := h
    capacity := s.capacity + new.length * b
    cur := (as ++ new)[s.position / b]? } with hs₁
  have hcap : s₁.position + buf.length ≤ s₁.capacity := by
    have := hl.position_le.trans hl.size_le
    simp only [hs₁]
    omega
  obtain ⟨a, n, hcur, hn, hnsize⟩ := hl'.cur_eq_some (by omega)
  obtain ⟨h', hrun, hspine, hcont'⟩ := writeLoop_spec buf (buf.length + 1) buf.length 0 s₁
    hl'.spine hl'.cur (by rw [← hl'.capacity]; exact hcap) (by omega) (by omega)
  rw [List.drop_zero, List.take_length, hcont] at hcont'
  refine ⟨{ s₁ with
      position := s₁.position + buf.length
      size := max s₁.size (s₁.position + buf.length)
      cur := (as ++ new)[(s₁.position + buf.length) / b]?
      heap := h' }, as ++ new, _, ?_, ⟨hl'.base, hspine, hl'.length_pos, hl'.capacity, ?_, ?_, rfl⟩,
    rfl, rfl, rfl, hcont', rfl, hsnug⟩
  · rw [write, if_neg hbuf, Command.bind_done hadd, Command.state_bind_apply,
      Command.bind_done (deref_eq hcur hn), hnsize, hl'.base, Command.bind_done hrun,
      Command.modify_apply]
    dsimp only
    congr 1
    by_cases hmax : s₁.position + buf.length > s₁.size
    · rw [if_pos hmax, max_eq_right (by omega), hl'.base]
    · rw [if_neg hmax, max_eq_left (by omega), hl'.base]
  · exact le_max_right _ _
  · have := hl'.size_le
    exact max_le this hcap

theorem read_spec (hl : Layout b s as) {m : ℕ} (hm : 0 < m) (hle : m ≤ s.size - s.position) :
    read m s = .done (((contents s.heap as).drop s.position).take m)
        { s with position := s.position + m, cur := as[(s.position + m) / b]? } ∧
      Layout b { s with position := s.position + m, cur := as[(s.position + m) / b]? } as := by
  have h₁ := hl.size_le
  obtain ⟨a, n, hcur, hn, hnsize⟩ := hl.cur_eq_some (by omega)
  have hrun := readLoop_spec (m + 1) m [] s hl.spine hl.cur (by rw [← hl.capacity]; omega)
    (by omega)
  refine ⟨?_, hl.base, hl.spine, hl.length_pos, hl.capacity, ?_, hl.size_le, rfl⟩
  · rw [read, Command.state_bind_apply, hl.sizeForRead, if_neg (by omega),
      Command.bind_done (deref_eq hcur hn), hnsize, hl.base, hrun, List.nil_append, hl.base]
  · dsimp only
    omega

theorem read_raises (hl : Layout b s as) {m : ℕ} (hgt : s.size - s.position < m) :
    read m s = .raised (.outOfRange "not enough len to read") s := by
  rw [read, Command.state_bind_apply, hl.sizeForRead, if_pos hgt, Command.raise_apply]

theorem readForPeek_spec (hl : Layout b s as) {m : ℕ} (hm : 0 < m)
    (hle : m ≤ s.size - s.position) :
    readForPeek m s = .done (((contents s.heap as).drop s.position).take m) s := by
  have h₁ := hl.size_le
  obtain ⟨a, n, hcur, hn, hnsize⟩ := hl.cur_eq_some (by omega)
  rw [readForPeek, Command.state_bind_apply, if_neg (by omega),
    Command.bind_done (deref_eq hcur hn), hnsize, hl.base,
    peekLoop_spec (m + 1) m s.position s.cur [] s hl.spine hl.cur (by rw [← hl.capacity]; omega)
      (by omega), List.nil_append]

theorem readForPeek_raises {m : ℕ} (hgt : s.size - s.position < m) :
    readForPeek m s = .raised (.outOfRange "not enough len") s := by
  rw [readForPeek, Command.state_bind_apply, if_pos hgt, Command.raise_apply]

theorem toString_spec (hl : Layout b s as) :
    toString s = .done (((contents s.heap as).drop s.position).take (s.size - s.position)) s := by
  rw [toString, Command.state_bind_apply, hl.sizeForRead]
  by_cases h0 : s.size - s.position = 0
  · simp [h0]
  · rw [if_neg h0, readForPeek_spec hl (Nat.pos_of_ne_zero h0) le_rfl]

theorem setPosition_spec (hl : Layout b s as) {v : ℕ} (hv : v ≤ s.capacity) :
    setPosition v s = .done () { s with
        position := v, size := max s.size v, cur := as[v / b]? } ∧
      Layout b { s with position := v, size := max s.size v, cur := as[v / b]? } as := by
  have hb := hl.spine.pos
  refine ⟨?_, hl.base, hl.spine, hl.length_pos, hl.capacity, le_max_right _ _,
    max_le hl.size_le hv, rfl⟩
  have hsize : (if v > s.size then { s with position := v, size := v }
      else { s with position := v }) = { s with position := v, size := max s.size v } := by
    split_ifs with h
    · rw [max_eq_right (by omega)]
    · rw [max_eq_left (by omega)]
  obtain ⟨j, v', hseek, hj, hsum, hv'⟩ := seekLoop_spec (v + 1) 0 v
    { s with position := v, size := max s.size v, cur := s.root } hl.spine hl.spine.chain.head
    hl.length_pos (by rw [← hl.capacity]; omega) (by omega)
  dsimp only at hseek
  obtain ⟨n, hn, hnext, hnsize, -⟩ := hl.spine.node_at (List.getElem?_eq_getElem hj)
  rw [setPosition, Command.state_bind_apply, if_neg (by omega), Command.modify_bind_apply,
    Command.modify_bind_apply]
  dsimp only
  rw [hsize, Command.modify_bind_apply, Command.bind_done hseek, Command.state_bind_apply,
    Command.bind_done (deref_eq (List.getElem?_eq_getElem hj) (by exact hn)), hnsize]
  by_cases he : v' = b
  · rw [if_pos he, Command.modify_apply, hnext]
    have hdiv : v / b = j + 1 := by
      rw [show v = (j + 1) * b by rw [Nat.succ_mul]; omega, Nat.mul_div_cancel _ hb]
    rw [hdiv]
  · rw [if_neg he, Command.pure_apply]
    have hdiv : v / b = j := by
      rw [show v = b * j + v' by rw [Nat.mul_comm]; omega, Nat.mul_add_div hb,
        Nat.div_eq_of_lt (by omega), Nat.add_zero]
    rw [hdiv]

theorem setPosition_raises {v : ℕ} (hv : s.capacity < v) :
    setPosition v s = .raised (.outOfRange "ByteArray set position out of range") s := by
  rw [setPosition, Command.state_bind_apply, if_pos hv, Command.raise_apply]

/-- Clearing keeps the first node only. -/
theorem clear_spec (hl : Layout b s as) :
    ∃ s' a, clear s = .done () s' ∧ Layout b s' [a] ∧ s'.endian = s.endian ∧
      s'.position = 0 ∧ s'.size = 0 := by
  have hb := hl.spine.pos
  obtain ⟨a, rest, rfl⟩ := List.exists_cons_of_length_pos hl.length_pos
  have hp : s.root = some a := hl.spine.chain.head
  have hnodup := hl.spine.chain.nodup
  obtain ⟨n, hn, hnext, hnsize, hnptr⟩ := hl.spine.node_at (i := 0) (a := a) rfl
  obtain ⟨h, c, hfree, hkeep⟩ := freeLoop_spec s.heap.brk 1 n.next
    { s with position := 0, size := 0, capacity := s.baseSize } hnodup
    (fun j a _ ha => hl.spine.chain.link j a ha) hnext
    (by have := hl.spine.chain.length_le_brk; omega)
  have hn' : h.get a = some n := by
    rw [hkeep a (List.nodup_cons.mp hnodup).1]
    exact hn
  refine ⟨{ s with
      position := 0, size := 0, capacity := s.baseSize, cur := s.root
      heap := h.set a { n with next := none } }, a, ?_,
    ⟨hl.base, ⟨hb, ⟨hp, fun i c hi => ?_⟩, fun c hc m hm => ?_⟩, by simp, by simp [hl.base],
      le_rfl, Nat.zero_le _, ?_⟩, rfl, rfl, rfl⟩
  · rw [clear, Command.modify_bind_apply, Command.state_bind_apply,
      Command.bind_done (deref_eq hp (by exact hn)), Command.bind_done hfree,
      Command.modify_bind_apply, Command.bind_done (deref_eq hp (by exact hn'))]
    simp only [hp, store, Command.modify_apply]
  · obtain ⟨rfl, rfl⟩ : i = 0 ∧ a = c := by
      cases i <;> simp_all
    exact ⟨_, Heap.get_set_self _ _ _, rfl⟩
  · rw [List.mem_singleton.mp hc, Heap.get_set_self, Option.some.injEq] at hm
    subst hm
    exact ⟨hnsize, hnptr⟩
  · dsimp only
    rw [Nat.zero_div, hp]
    rfl

theorem getReadBuffers_spec (hl : Layout b s as) (buffers : List Iovec) (len : ℕ) :
    ∃ vs, getReadBuffers buffers len s =
        .done (min len (s.size - s.position), buffers ++ vs) s ∧
      Covers b as s.position vs ∧ totalLen vs = min len (s.size - s.position) := by
  have h₁ := hl.size_le
  have h₂ := hl.position_le
  have hmin : (if len > s.size - s.position then s.size - s.position else len) =
      min len (s.size - s.position) := by
    split_ifs <;> omega
  rw [getReadBuffers, Command.state_bind_apply, hl.sizeForRead, hmin]
  by_cases h0 : min len (s.size - s.position) = 0
  · exact ⟨[], by simp [h0], trivial, h0.symm⟩
  · obtain ⟨a, n, hcur, hn, hnsize⟩ := hl.cur_eq_some (by omega)
    obtain ⟨vs, hrun, hcov, htot⟩ := iovLoop_spec (min len (s.size - s.position) + 1)
      (min len (s.size - s.position)) s.position s.cur buffers s hl.spine hl.cur
      (by rw [← hl.capacity]; omega) (by omega)
    refine ⟨vs, ?_, hcov, htot⟩
    rw [if_neg h0, Command.bind_done (deref_eq hcur hn), hnsize, hl.base, Command.bind_done hrun,
      Command.pure_apply]

theorem getReadBuffersAt_spec (hl : Layout b s as) (buffers : List Iovec) (len position : ℕ) :
    ∃ vs, getReadBuffersAt buffers len position s =
        .done (min len (s.size - position), buffers ++ vs) s ∧
      Covers b as position vs ∧ totalLen vs = min len (s.size - position) := by
  have h₁ := hl.size_le
  by_cases hpos : position ≥ s.size
  · refine ⟨[], ?_, trivial, ?_⟩
    · rw [getReadBuffersAt, Command.state_bind_apply, if_pos hpos, Command.pure_apply,
        Nat.sub_eq_zero_of_le hpos, Nat.min_zero, List.append_nil]
    · rw [Nat.sub_eq_zero_of_le hpos, Nat.min_zero]
      rfl
  · obtain ⟨a, ha⟩ := hl.spine.exists_node (p := position) (by rw [← hl.capacity]; omega)
    have hdiv : position / b < as.length := (List.getElem?_eq_some_iff.mp ha).1
    obtain ⟨n, hn, -, hnsize, -⟩ := hl.spine.node_at ha
    obtain ⟨vs, hrun, hcov, htot⟩ := iovLoop_spec (min len (s.size - position) + 1)
      (min len (s.size - position)) position (some a) buffers s hl.spine ha.symm
      (by rw [← hl.capacity]; omega) (by omega)
    refine ⟨vs, ?_, hcov, htot⟩
    have hnth := nthLoop_spec (position / b) 0 s.root s hl.spine hl.spine.chain.head (by omega)
    rw [Nat.zero_add, ha] at hnth
    rw [getReadBuffersAt, Command.state_bind_apply, if_neg hpos, hl.base, Command.bind_done hnth,
      Option.isNone_some, if_neg (by simp), Command.bind_done (deref_eq rfl hn), hnsize,
      Command.bind_done hrun, Command.pure_apply]
    split_ifs with hne
    · rfl
    · have hvs : vs = [] := by
        have := List.length_eq_zero_iff.mp (not_not.mp hne)
        exact (List.append_eq_nil_iff.mp this).2
      rw [hvs] at htot
      rw [← htot]
      rfl

theorem getWriteBuffers_spec (hl : Layout b s as) (buffers : List Iovec) (len : ℕ) :
    ∃ s' as' vs pad, getWriteBuffers buffers len s = .done (len, buffers ++ vs) s' ∧
      Layout b s' as' ∧ s'.endian = s.endian ∧ s'.position = s.position ∧ s'.size = s.size ∧
      s.position + len ≤ s'.capacity ∧
      contents s'.heap as' = contents s.heap as ++ List.replicate pad none ∧
      Covers b as' s.position vs ∧ totalLen vs = len := by
  by_cases h0 : len = 0
  · subst h0
    exact ⟨s, as, [], 0, by simp [getWriteBuffers], hl, rfl, rfl, rfl,
      hl.position_le.trans hl.size_le, by simp, trivial, rfl⟩
  obtain ⟨h, new, hadd, hl', hcont, hroom, -⟩ := addCapacityIfNeeded_spec hl len
  set s₁ : ByteArray := { s with
    heap := h
    capacity := s.capacity + new.length * b
    cur := (as ++ new)[s.position / b]? } with hs₁
  have hcap : s₁.position + len ≤ s₁.capacity := by
    have := hl.position_le.trans hl.size_le
    simp only [hs₁]
    omega
  obtain ⟨a, n, hcur, hn, hnsize⟩ := hl'.cur_eq_some (by omega)
  obtain ⟨vs, hrun, hcov, htot⟩ := iovLoop_spec (len + 1) len s₁.position s₁.cur buffers s₁
    hl'.spine hl'.cur (by rw [← hl'.capacity]; exact hcap) (by omega)
  refine ⟨s₁, as ++ new, vs, _, ?_, hl', rfl, rfl, rfl, hcap, hcont, hcov, htot⟩
  rw [getWriteBuffers, if_neg h0, Command.bind_done hadd, Command.state_bind_apply,
    Command.bind_done (deref_eq hcur hn), hnsize, hl'.base, Command.bind_done hrun,
    Command.pure_apply]
  split_ifs with hne
  · rfl
  · have hvs : vs = [] := by
      have := List.length_eq_zero_iff.mp (not_not.mp hne)
      exact (List.append_eq_nil_iff.mp this).2
    rw [hvs] at htot
    exact absurd htot.symm h0

end Sylar.ByteArray
