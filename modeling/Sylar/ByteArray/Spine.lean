import Sylar.ByteArray.Blocks
import Mathlib.Tactic.Ring

/-! # The block list as one sequence of cells

A spine is a chain of nodes that all have the base size. Its contents are the
blocks joined together, and each loop over the nodes is one operation on them.
-/
namespace Sylar.ByteArray
open Memory

def block (h : Heap Node) (a : ℕ) : List Cell := ((h.get a).map Node.ptr).getD []

def contents (h : Heap Node) (as : List ℕ) : List Cell := (as.map (block h)).flatten

structure Spine (b : ℕ) (h : Heap Node) (root : Option ℕ) (as : List ℕ) : Prop where
  pos : 0 < b
  chain : Chain Node.next h root as
  node : ∀ a ∈ as, ∀ n, h.get a = some n → n.size = b ∧ n.ptr.length = b

theorem block_of_get {h : Heap Node} {a : ℕ} {n : Node} (hn : h.get a = some n) :
    block h a = n.ptr := by
  simp [block, hn]

/-- A place in a node is below the capacity. -/
theorem node_lt {b i q : ℕ} {as : List ℕ} (hi : i < as.length) (hq : q < b) :
    i * b + q < as.length * b := by
  have hle := Nat.mul_le_mul_right b (Nat.succ_le_of_lt hi)
  rw [Nat.succ_mul] at hle
  omega

namespace Spine
variable {b : ℕ} {h : Heap Node} {root : Option ℕ} {as : List ℕ}

theorem block_length (hs : Spine b h root as) : ∀ blk ∈ as.map (block h), blk.length = b := by
  intro blk hblk
  obtain ⟨a, ha, rfl⟩ := List.mem_map.mp hblk
  obtain ⟨n, hn⟩ := hs.chain.get_isSome ha
  rw [block_of_get hn]
  exact (hs.node a ha n hn).2

theorem length_contents (hs : Spine b h root as) : (contents h as).length = as.length * b := by
  rw [contents, length_flatten_of_uniform hs.block_length, List.length_map]

/-- Everything a dereference of node number `i` can see. -/
theorem node_at (hs : Spine b h root as) {i a : ℕ} (hi : as[i]? = some a) :
    ∃ n, h.get a = some n ∧ n.next = as[i + 1]? ∧ n.size = b ∧ n.ptr.length = b := by
  obtain ⟨n, hn, hnext⟩ := hs.chain.link i a hi
  obtain ⟨hsize, hptr⟩ := hs.node a (List.mem_of_getElem? hi) n hn
  exact ⟨n, hn, hnext, hsize, hptr⟩

theorem getElem?_block {i a : ℕ} {n : Node} (hi : as[i]? = some a)
    (hn : h.get a = some n) : (as.map (block h))[i]? = some n.ptr := by
  rw [List.getElem?_map, hi, Option.map_some, block_of_get hn]

/-- The node that holds position `p` exists exactly below the capacity. -/
theorem exists_node (hs : Spine b h root as) {p : ℕ} (hp : p < as.length * b) :
    ∃ a, as[p / b]? = some a := by
  have hlt : p / b < as.length := (Nat.div_lt_iff_lt_mul hs.pos).mpr hp
  exact ⟨as[p / b], List.getElem?_eq_getElem hlt⟩

/-- Writing inside node number `i` keeps the spine and overwrites that part of the contents. -/
theorem overwrite (hs : Spine b h root as) {i a q : ℕ} {n : Node} {d : List Cell}
    (hi : as[i]? = some a) (hn : h.get a = some n) (hq : q + d.length ≤ b) :
    Spine b (h.set a { n with ptr := splice n.ptr q d }) root as ∧
      contents (h.set a { n with ptr := splice n.ptr q d }) as =
        splice (contents h as) (i * b + q) d := by
  obtain ⟨hsize, hptr⟩ := hs.node a (List.mem_of_getElem? hi) n hn
  refine ⟨⟨hs.pos, hs.chain.set_of_next_eq hn rfl, fun c hc m hm => ?_⟩, ?_⟩
  · by_cases hca : c = a
    · subst hca
      rw [Heap.get_set_self, Option.some.injEq] at hm
      subst hm
      exact ⟨hsize, by rw [length_splice _ (by omega)]; omega⟩
    · rw [Heap.get_set_of_ne _ hca] at hm
      exact hs.node c hc m hm
  · have hmap : as.map (block (h.set a { n with ptr := splice n.ptr q d })) =
        (as.map (block h)).set i (splice n.ptr q d) := by
      apply List.ext_getElem?
      intro j
      rw [List.getElem?_map, List.getElem?_set]
      split_ifs with hij hlt
      · subst hij
        rw [hi, Option.map_some, block_of_get (Heap.get_set_self h a _)]
      · subst hij
        rw [List.length_map] at hlt
        rw [List.getElem?_eq_none (by omega), Option.map_none]
      · rw [List.getElem?_map]
        cases hj : as[j]? with
        | none => rfl
        | some c =>
          have hca : c ≠ a := by
            rintro rfl
            have hjl : j < as.length := (List.getElem?_eq_some_iff.mp hj).1
            exact hij ((List.getElem?_inj hjl hs.chain.nodup).mp (hj.trans hi.symm)).symm
          simp [block, hca]
    rw [contents, hmap, flatten_set_splice hs.block_length (getElem?_block hi hn) hq, contents]

/-- Reading inside node number `i` reads that part of the contents. -/
theorem read_node (hs : Spine b h root as) {i a q m : ℕ} {n : Node} (hi : as[i]? = some a)
    (hn : h.get a = some n) (hq : q + m ≤ b) :
    (n.ptr.drop q).take m = ((contents h as).drop (i * b + q)).take m := by
  rw [contents, take_drop_flatten hs.block_length (getElem?_block hi hn) hq]

/-- One more node behind the last one: the old contents followed by indeterminate cells. -/
theorem grow (hs : Spine b h root as) {i a : ℕ} {n : Node} (hi : as[i]? = some a)
    (hlast : i + 1 = as.length) (hn : h.get a = some n) :
    Spine b ((h.alloc (Node.ofSize b)).set a { n with next := some h.brk }) root
        (as ++ [h.brk]) ∧
      contents ((h.alloc (Node.ofSize b)).set a { n with next := some h.brk }) (as ++ [h.brk]) =
        contents h as ++ List.replicate b none := by
  have hne : h.brk ≠ a := (Heap.lt_brk hn).ne'
  have hmem : a ∈ as := List.mem_of_getElem? hi
  have hnew : ((h.alloc (Node.ofSize b)).set a { n with next := some h.brk }).get h.brk =
      some (Node.ofSize b) := by
    rw [Heap.get_set_of_ne _ hne, Heap.get_alloc_self]
  have hold : ∀ c ∈ as, block ((h.alloc (Node.ofSize b)).set a { n with next := some h.brk }) c =
      block h c := by
    intro c hc
    by_cases hca : c = a
    · subst hca
      rw [block_of_get (Heap.get_set_self _ _ _), block_of_get hn]
    · obtain ⟨m, hm⟩ := hs.chain.get_isSome hc
      rw [block_of_get hm, block_of_get (n := m)]
      rw [Heap.get_set_of_ne _ hca, Heap.get_alloc_of_get _ hm]
  refine ⟨⟨hs.pos, hs.chain.snoc hi hlast hn rfl rfl, fun c hc m hm => ?_⟩, ?_⟩
  · rcases List.mem_append.mp hc with hc | hc
    · by_cases hca : c = a
      · subst hca
        rw [Heap.get_set_self, Option.some.injEq] at hm
        subst hm
        exact hs.node c hc n hn
      · obtain ⟨m', hm'⟩ := hs.chain.get_isSome hc
        rw [Heap.get_set_of_ne _ hca, Heap.get_alloc_of_get _ hm', Option.some.injEq] at hm
        subst hm
        exact hs.node c hc m' hm'
    · rw [List.mem_singleton.mp hc, hnew, Option.some.injEq] at hm
      subst hm
      simp [Node.ofSize]
  · rw [contents, List.map_append, List.map_congr_left hold, List.flatten_append, contents,
      List.map_singleton, List.flatten_singleton, block_of_get hnew]
    rfl

end Spine

section Primitives
variable {s : ByteArray} {p : Option ℕ} {a : ℕ} {n : Node}

theorem deref_eq (hp : p = some a) (hn : s.heap.get a = some n) : deref p s = .done n s := by
  subst hp
  exact Command.lookup_done hn

theorem copyTo_eq {q : ℕ} {d : List UInt8} (hp : p = some a) (hn : s.heap.get a = some n)
    (hq : q + d.length ≤ n.ptr.length) :
    copyTo p q d s = .done () { s with
      heap := s.heap.set a { n with ptr := splice n.ptr q (d.map some) } } := by
  rw [copyTo, Command.bind_done (deref_eq hp hn)]
  subst hp
  simp [hq, store]

theorem copyFrom_eq {q m : ℕ} (hp : p = some a) (hn : s.heap.get a = some n)
    (hq : q + m ≤ n.ptr.length) : copyFrom p q m s = .done ((n.ptr.drop q).take m) s := by
  rw [copyFrom, Command.bind_done (deref_eq hp hn)]
  simp [hq]

end Primitives

end Sylar.ByteArray
