import Mathlib.Data.Finset.Card
import Mathlib.Data.Finset.Range
import Mathlib.Data.List.Nodup
import Mathlib.Logic.Function.Basic

/-! # A heap of records and the chains threaded through it

Addresses are natural numbers handed out in increasing order and never reused.
A chain is the list of addresses visited by following a `next` field from a
given pointer until it is null; every chain is free of repetitions.
-/
namespace Sylar.Memory

/-- A finite store. Addresses from `brk` on have never been allocated. -/
structure Heap (ν : Type) where
  cells : ℕ → Option ν
  brk : ℕ
  fresh : ∀ a, brk ≤ a → cells a = none

namespace Heap
variable {ν : Type}

def empty : Heap ν := ⟨fun _ => none, 0, fun _ _ => rfl⟩

def get (h : Heap ν) (a : ℕ) : Option ν := h.cells a

def set (h : Heap ν) (a : ℕ) (v : ν) : Heap ν where
  cells := Function.update h.cells a (some v)
  brk := max h.brk (a + 1)
  fresh := by
    intro b hb
    rw [Function.update_of_ne (by omega)]
    exact h.fresh b (by omega)

/-- `new`: the record is placed at the first address that was never used. -/
def alloc (h : Heap ν) (v : ν) : Heap ν := h.set h.brk v

/-- `delete`: the address stays unusable for ever. -/
def free (h : Heap ν) (a : ℕ) : Heap ν where
  cells := Function.update h.cells a none
  brk := h.brk
  fresh := by
    intro b hb
    by_cases hab : b = a
    · subst hab; simp
    · rw [Function.update_of_ne hab]; exact h.fresh b hb

theorem lt_brk {h : Heap ν} {a : ℕ} {v : ν} (hv : h.get a = some v) : a < h.brk := by
  by_contra hlt
  have hn : h.get a = none := h.fresh a (by omega)
  simp [hn] at hv

@[simp] theorem get_set_self (h : Heap ν) (a : ℕ) (v : ν) : (h.set a v).get a = some v := by
  simp [get, set]

@[simp] theorem get_set_of_ne (h : Heap ν) {a b : ℕ} (hab : b ≠ a) (v : ν) :
    (h.set a v).get b = h.get b := by
  simp [get, set, hab]

@[simp] theorem get_free_self (h : Heap ν) (a : ℕ) : (h.free a).get a = none := by
  simp [get, free]

@[simp] theorem get_free_of_ne (h : Heap ν) {a b : ℕ} (hab : b ≠ a) :
    (h.free a).get b = h.get b := by
  simp [get, free, hab]

@[simp] theorem get_alloc_self (h : Heap ν) (v : ν) : (h.alloc v).get h.brk = some v := by
  simp [alloc]

theorem get_alloc_of_get {h : Heap ν} {a : ℕ} {w : ν} (v : ν) (hw : h.get a = some w) :
    (h.alloc v).get a = some w := by
  rw [alloc, get_set_of_ne _ (lt_brk hw).ne, hw]

/-- The addresses in use. -/
def dom (h : Heap ν) : Finset ℕ := (Finset.range h.brk).filter fun a => (h.get a).isSome

/-- The number of records. -/
def size (h : Heap ν) : ℕ := h.dom.card

theorem mem_dom {h : Heap ν} {a : ℕ} : a ∈ h.dom ↔ (h.get a).isSome := by
  rw [dom, Finset.mem_filter, Finset.mem_range, and_iff_right_iff_imp]
  intro ha
  rcases Option.isSome_iff_exists.mp ha with ⟨v, hv⟩
  exact lt_brk hv

theorem size_alloc (h : Heap ν) (v : ν) : (h.alloc v).size = h.size + 1 := by
  have hdom : (h.alloc v).dom = insert h.brk h.dom := by
    ext a
    rw [Finset.mem_insert, mem_dom, mem_dom, alloc]
    by_cases ha : a = h.brk
    · simp [ha]
    · simp [ha]
  have hbrk : h.brk ∉ h.dom := by
    rw [mem_dom, get, h.fresh h.brk le_rfl]
    simp
  rw [size, hdom, Finset.card_insert_of_notMem hbrk, size]

theorem size_free {h : Heap ν} {a : ℕ} {v : ν} (hv : h.get a = some v) :
    (h.free a).size + 1 = h.size := by
  have hdom : (h.free a).dom = h.dom.erase a := by
    ext b
    rw [Finset.mem_erase, mem_dom, mem_dom]
    by_cases hb : b = a
    · simp [hb]
    · simp [hb]
  have ha : a ∈ h.dom := by
    rw [mem_dom, hv]
    rfl
  rw [size, hdom, Finset.card_erase_add_one ha, size]

theorem size_set {h : Heap ν} {a : ℕ} {v : ν} (w : ν) (hv : h.get a = some v) :
    (h.set a w).size = h.size := by
  have hdom : (h.set a w).dom = h.dom := by
    ext b
    rw [mem_dom, mem_dom]
    by_cases hb : b = a
    · simp [hb, hv]
    · simp [hb]
  rw [size, hdom, size]

end Heap

section Chain
variable {ν : Type} (next : ν → Option ℕ)

/-- `as` is the whole list of addresses reached from the pointer `p`. -/
structure Chain (h : Heap ν) (p : Option ℕ) (as : List ℕ) : Prop where
  head : p = as[0]?
  link : ∀ i a, as[i]? = some a → ∃ v, h.get a = some v ∧ next v = as[i + 1]?

variable {next} {h h' : Heap ν} {p : Option ℕ} {as : List ℕ}

namespace Chain

theorem get_isSome (hc : Chain next h p as) {a : ℕ} (ha : a ∈ as) : ∃ v, h.get a = some v := by
  obtain ⟨i, hi⟩ := List.mem_iff_getElem?.mp ha
  obtain ⟨v, hv, -⟩ := hc.link i a hi
  exact ⟨v, hv⟩

/-- Equal addresses continue equally, so their suffixes would end at the same place. -/
theorem getElem?_add_eq (hc : Chain next h p as) {i j : ℕ} (hij : as[i]? = as[j]?) (d : ℕ) :
    as[i + d]? = as[j + d]? := by
  induction d with
  | zero => exact hij
  | succ d ih =>
    cases ha : as[j + d]? with
    | none =>
      rw [ha] at ih
      rw [List.getElem?_eq_none_iff] at ih ha
      rw [List.getElem?_eq_none (by omega), List.getElem?_eq_none (by omega)]
    | some a =>
      obtain ⟨v, hv, hi⟩ := hc.link (i + d) a (ih.trans ha)
      obtain ⟨w, hw, hj⟩ := hc.link (j + d) a ha
      rw [hv, Option.some.injEq] at hw
      subst hw
      exact hi.symm.trans hj

/-- A chain that ends is acyclic. -/
theorem nodup (hc : Chain next h p as) : as.Nodup := by
  rw [List.nodup_iff_getElem?_ne_getElem?]
  intro i j hij hj heq
  have hend := hc.getElem?_add_eq heq (as.length - j)
  rw [show j + (as.length - j) = as.length by omega, List.getElem?_length,
    List.getElem?_eq_none_iff] at hend
  omega

theorem length_le_brk (hc : Chain next h p as) : as.length ≤ h.brk := by
  have hsub : as.toFinset ⊆ Finset.range h.brk := by
    intro a ha
    obtain ⟨v, hv⟩ := hc.get_isSome (List.mem_toFinset.mp ha)
    exact Finset.mem_range.mpr (Heap.lt_brk hv)
  have hcard := Finset.card_le_card hsub
  rwa [List.toFinset_card_of_nodup hc.nodup, Finset.card_range] at hcard

/-- Only the `next` fields of its own records matter to a chain. -/
theorem congr (hc : Chain next h p as)
    (hget : ∀ a ∈ as, ∀ v, h.get a = some v → ∃ v', h'.get a = some v' ∧ next v' = next v) :
    Chain next h' p as := by
  refine ⟨hc.head, fun i a hi => ?_⟩
  obtain ⟨v, hv, hn⟩ := hc.link i a hi
  obtain ⟨v', hv', hn'⟩ := hget a (List.mem_of_getElem? hi) v hv
  exact ⟨v', hv', hn'.trans hn⟩

theorem set_of_next_eq (hc : Chain next h p as) {a : ℕ} {v v' : ν} (ha : h.get a = some v)
    (hv : next v' = next v) : Chain next (h.set a v') p as := by
  refine hc.congr fun b hb w hw => ?_
  by_cases hab : b = a
  · subst hab
    rw [ha, Option.some.injEq] at hw
    subst hw
    exact ⟨v', by simp, hv⟩
  · exact ⟨w, by simp [hab, hw], rfl⟩

/-- Hanging a fresh record behind the last one extends the chain by its address. -/
theorem snoc (hc : Chain next h p as) {i a : ℕ} (hi : as[i]? = some a)
    (hlast : i + 1 = as.length) {v v' w : ν} (hv : h.get a = some v) (hw : next w = none)
    (hv' : next v' = some h.brk) : Chain next ((h.alloc w).set a v') p (as ++ [h.brk]) := by
  have hmem : a ∈ as := List.mem_of_getElem? hi
  have hne : a ≠ h.brk := (Heap.lt_brk hv).ne
  refine ⟨?_, fun j b hj => ?_⟩
  · rw [hc.head, List.getElem?_append_left (by omega)]
  · by_cases hjl : j < as.length
    · rw [List.getElem?_append_left hjl] at hj
      by_cases hji : j = i
      · subst hji
        rw [hi, Option.some.injEq] at hj
        subst hj
        exact ⟨v', by simp, by rw [hv', hlast, List.getElem?_concat_length]⟩
      · obtain ⟨u, hu, hn⟩ := hc.link j b hj
        have hba : b ≠ a := by
          rintro rfl
          exact hji ((List.getElem?_inj hjl hc.nodup).mp (hj.trans hi.symm))
        refine ⟨u, by rw [Heap.get_set_of_ne _ hba, Heap.get_alloc_of_get w hu], ?_⟩
        rw [hn, List.getElem?_append_left (by omega)]
    · have hjlen : j = as.length := by
        have hlt := (List.getElem?_eq_some_iff.mp hj).1
        simp at hlt
        omega
      subst hjlen
      rw [List.getElem?_concat_length, Option.some.injEq] at hj
      subst hj
      refine ⟨w, by rw [Heap.get_set_of_ne _ hne.symm, Heap.get_alloc_self], ?_⟩
      rw [hw, List.getElem?_eq_none (by simp)]

end Chain
end Chain
end Sylar.Memory
