import Mathlib.Data.List.Pairwise
import Mathlib.Data.List.TakeWhile
import Mathlib.Order.Lattice

/-! # Sorted sets

`std::set` with a comparison of its own, as the list of its elements in order and with
iterators as indices. The comparison is a parameter of every operation, since it may depend on a state
that changes while the elements are in the set.
-/
namespace Sylar.Memory.SortedSet

variable {α R : Type} (lt : α → α → Bool)

@[simp] def lowerBound (x : α) : List α → ℕ
  | [] => 0
  | y :: l => if lt y x then lowerBound x l + 1 else 0

/-- `set.find(x)`, `none` being `set.end()`. -/
def find (x : α) : List α → Option ℕ
  | [] => none
  | y :: l => if lt y x then (find x l).map (· + 1) else if lt x y then none else some 0

@[simp] def insert (x : α) : List α → List α
  | [] => [x]
  | y :: l =>
    if lt y x then y :: insert x l
    else if lt x y then x :: y :: l
    else y :: l

theorem take_lowerBound (x : α) (l : List α) :
    l.take (lowerBound lt x l) = l.takeWhile (lt · x) := by
  induction l with
  | nil => rfl
  | cons y l ih =>
    rw [lowerBound, List.takeWhile_cons]
    split_ifs
    · rw [List.take_succ_cons, ih]
    · rfl

theorem drop_lowerBound (x : α) (l : List α) :
    l.drop (lowerBound lt x l) = l.dropWhile (lt · x) := by
  induction l with
  | nil => rfl
  | cons y l ih =>
    rw [lowerBound, List.dropWhile_cons]
    split_ifs
    · rw [List.drop_succ_cons, ih]
    · rfl

theorem mem_of_mem_insert {x y : α} {l : List α} (h : y ∈ insert lt x l) : y = x ∨ y ∈ l := by
  induction l with
  | nil => exact .inl (List.mem_singleton.mp h)
  | cons z l ih =>
    rw [insert] at h
    split_ifs at h
    · rcases List.mem_cons.mp h with rfl | h
      · exact .inr List.mem_cons_self
      · exact (ih h).imp_right (List.mem_cons_of_mem _)
    · exact List.mem_cons.mp h
    · exact .inr h

/-- An element that comes after all others is put at the end. -/
theorem insert_eq_concat {x : α} {l : List α} (h : ∀ y ∈ l, lt y x = true) :
    insert lt x l = l ++ [x] := by
  induction l with
  | nil => rfl
  | cons z l ih =>
    rw [List.forall_mem_cons] at h
    rw [insert, if_pos h.1, ih h.2]
    rfl

section Rank

variable {lt} [LinearOrder R] {rank : α → R} (hlt : ∀ x y, lt x y = true ↔ rank x < rank y)
  (hrank : Function.Injective rank) {x y : α} {l : List α}

include hlt

theorem eq_of_incomparable (hrank : Function.Injective rank) (h : ¬lt y x = true)
    (h' : ¬lt x y = true) : y = x := by
  rw [hlt, not_lt] at h h'
  exact hrank (le_antisymm h' h)

theorem nodup_of_pairwise (h : l.Pairwise fun x y => lt x y = true) : l.Nodup := by
  refine h.imp ?_
  rintro a _ hab rfl
  exact lt_irrefl _ ((hlt a a).mp hab)

theorem pairwise_insert (h : l.Pairwise fun x y => lt x y = true) :
    (insert lt x l).Pairwise fun x y => lt x y = true := by
  induction l with
  | nil => exact List.pairwise_singleton _ _
  | cons z l ih =>
    rw [List.pairwise_cons] at h
    rw [insert]
    split_ifs with hz hx
    · rw [List.pairwise_cons]
      refine ⟨fun y hy => ?_, ih h.2⟩
      rcases mem_of_mem_insert lt hy with rfl | hy
      · exact hz
      · exact h.1 y hy
    · rw [List.pairwise_cons]
      refine ⟨fun y hy => ?_, List.pairwise_cons.mpr h⟩
      rcases List.mem_cons.mp hy with rfl | hy
      · exact hx
      · rw [hlt] at hx ⊢
        exact lt_trans hx ((hlt z y).mp (h.1 y hy))
    · exact List.pairwise_cons.mpr h

include hrank

theorem mem_insert : y ∈ insert lt x l ↔ y = x ∨ y ∈ l := by
  refine ⟨mem_of_mem_insert lt, ?_⟩
  induction l with
  | nil => simp [insert]
  | cons z l ih =>
    intro hy
    rw [insert]
    split_ifs with h h'
    · rw [List.mem_cons]
      rcases hy with hy | hy
      · exact .inr (ih (.inl hy))
      · exact (List.mem_cons.mp hy).imp_right fun hy => ih (.inr hy)
    · rw [List.mem_cons]
      exact hy
    · rcases hy with rfl | hy
      · rw [eq_of_incomparable hlt hrank h h']
        exact List.mem_cons_self
      · exact hy

theorem getElem?_of_find {i : ℕ} (h : find lt x l = some i) : l[i]? = some x := by
  induction l generalizing i with
  | nil => simp [find] at h
  | cons y l ih =>
    rw [find] at h
    split_ifs at h with hy hx
    · obtain ⟨j, hj, rfl⟩ := Option.map_eq_some_iff.mp h
      rw [List.getElem?_cons_succ]
      exact ih hj
    · rw [← Option.some.inj h, eq_of_incomparable hlt hrank hy hx]
      rfl

omit hrank in
/-- In a set that is in order every element is found. -/
theorem exists_find (h : l.Pairwise fun x y => lt x y = true) (hx : x ∈ l) :
    ∃ i, find lt x l = some i := by
  induction l with
  | nil => simp at hx
  | cons y l ih =>
    rw [List.pairwise_cons] at h
    rw [find]
    rcases List.mem_cons.mp hx with rfl | hx
    · have hirr : ¬lt x x = true := fun h => lt_irrefl _ ((hlt x x).mp h)
      exact ⟨0, by rw [if_neg hirr, if_neg hirr]⟩
    · obtain ⟨i, hi⟩ := ih h.2 hx
      exact ⟨i + 1, by rw [if_pos (h.1 x hx), hi]; rfl⟩

theorem mem_eraseIdx_find {i : ℕ} (h : l.Pairwise fun x y => lt x y = true)
    (hi : find lt x l = some i) : y ∈ l.eraseIdx i ↔ y ∈ l ∧ y ≠ x := by
  have hget := getElem?_of_find hlt hrank hi
  have hnodup := nodup_of_pairwise hlt h
  rw [List.mem_eraseIdx_iff_getElem?]
  constructor
  · rintro ⟨j, hj, hy⟩
    refine ⟨List.mem_of_getElem? hy, ?_⟩
    rintro rfl
    exact hj ((List.getElem?_inj (List.getElem?_eq_some_iff.mp hy).1 hnodup).mp (hy.trans hget.symm))
  · rintro ⟨hy, hne⟩
    obtain ⟨j, hj⟩ := List.mem_iff_getElem?.mp hy
    refine ⟨j, ?_, hj⟩
    rintro rfl
    exact hne (Option.some.inj (hj.symm.trans hget))

end Rank

section Initial

variable {P : α → Bool} {l : List α}

/-- Where a test fails it fails for what comes later. -/
theorem not_of_mem_dropWhile (h : l.Pairwise fun x y => P y = true → P x = true) :
    ∀ x ∈ l.dropWhile P, ¬P x = true := by
  induction l with
  | nil => simp
  | cons y l ih =>
    rw [List.pairwise_cons] at h
    rw [List.dropWhile_cons]
    split_ifs with hy
    · exact ih h.2
    · intro x hx
      rcases List.mem_cons.mp hx with rfl | hx
      · exact hy
      · exact fun hPx => hy (h.1 x hx hPx)

theorem takeWhile_eq_filter (h : l.Pairwise fun x y => P y = true → P x = true) :
    l.takeWhile P = l.filter P := by
  have htake : (l.takeWhile P).filter P = l.takeWhile P := by
    rw [List.filter_eq_self]
    exact fun x hx => List.mem_takeWhile_imp hx
  have hdrop : (l.dropWhile P).filter P = [] := by
    rw [List.filter_eq_nil_iff]
    exact not_of_mem_dropWhile h
  have hsplit := congrArg (List.filter P) (List.takeWhile_append_dropWhile (p := P) (l := l))
  rw [List.filter_append, htake, hdrop, List.append_nil] at hsplit
  exact hsplit

end Initial

section Congr

variable {lt} {lt' : α → α → Bool} {l : List α}

/-- The order of a set only depends on the comparison of its elements. -/
theorem pairwise_congr (h : ∀ x ∈ l, ∀ y ∈ l, lt x y = lt' x y)
    (hl : l.Pairwise fun x y => lt x y = true) : l.Pairwise fun x y => lt' x y = true := by
  refine hl.imp_of_mem ?_
  intro x y hx hy hxy
  rw [← h x hx y hy]
  exact hxy

end Congr

end Sylar.Memory.SortedSet
