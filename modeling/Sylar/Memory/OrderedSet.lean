import Sylar.Memory.SortedSet

/-! # Sets ordered by a rank

`std::set` whose comparison is that of a rank: elements of equal rank are the same element, and
the set keeps the one that came first.
-/
namespace Sylar.Memory

structure OrderedSet (α : Type) {R : Type} [LinearOrder R] (rank : α → R) where
  elems : List α
  sorted : elems.Pairwise fun x y => rank x < rank y
deriving DecidableEq

namespace OrderedSet

variable {α R : Type} [LinearOrder R] {rank : α → R}

def empty : OrderedSet α rank := ⟨[], .nil⟩

def insert (s : OrderedSet α rank) (x : α) : OrderedSet α rank where
  elems := SortedSet.insert (fun x y => rank x < rank y) x s.elems
  sorted := by
    have hsorted := s.sorted.imp fun h => decide_eq_true h
    exact (SortedSet.pairwise_insert (fun _ _ => decide_eq_true_iff) hsorted).imp of_decide_eq_true

/-- `set.insert(x)` for each of some elements in turn. -/
def insertAll (s : OrderedSet α rank) (l : List α) : OrderedSet α rank := l.foldl insert s

def find (s : OrderedSet α rank) (x : α) : Option α := s.elems.find? fun y => rank y = rank x

variable {s t : OrderedSet α rank} {x y : α} {l : List α}

@[ext] theorem ext (h : s.elems = t.elems) : s = t := by
  cases s
  cases t
  congr

theorem elems_insertAll (h : (s.elems ++ l).Pairwise fun x y => rank x < rank y) :
    (s.insertAll l).elems = s.elems ++ l := by
  induction l generalizing s with
  | nil => exact (List.append_nil _).symm
  | cons x l ih =>
    have hinsert : (s.insert x).elems = s.elems ++ [x] := by
      apply SortedSet.insert_eq_concat
      intro y hy
      rw [decide_eq_true_eq]
      exact (List.pairwise_append.mp h).2.2 y hy x List.mem_cons_self
    change ((s.insert x).insertAll l).elems = _
    rw [ih, hinsert, List.append_assoc, List.singleton_append]
    rw [hinsert, List.append_assoc, List.singleton_append]
    exact h

theorem eq_of_rank_eq (hx : x ∈ s.elems) (hy : y ∈ s.elems) (h : rank x = rank y) : x = y := by
  by_contra hne
  have hranks : s.elems.Pairwise fun x y => rank x ≠ rank y := s.sorted.imp ne_of_lt
  have hsymm : Std.Symm fun x y : α => rank x ≠ rank y := ⟨fun _ _ => Ne.symm⟩
  exact hranks.forall hx hy hne h

theorem rank_of_find (h : s.find x = some y) : rank y = rank x := by
  have hy := List.find?_some h
  rwa [decide_eq_true_eq] at hy

theorem find_eq_some_iff : s.find x = some y ↔ y ∈ s.elems ∧ rank y = rank x := by
  constructor
  · intro h
    exact ⟨List.mem_of_find?_eq_some h, rank_of_find h⟩
  · rintro ⟨hy, hrank⟩
    cases h : s.find x with
    | none =>
      have hno := List.find?_eq_none.mp h y hy
      exact absurd (decide_eq_true hrank) hno
    | some z =>
      rw [eq_of_rank_eq (List.mem_of_find?_eq_some h) hy ((rank_of_find h).trans hrank.symm)]

theorem find_eq_none_iff : s.find x = none ↔ ∀ y ∈ s.elems, rank y ≠ rank x := by
  rw [find, List.find?_eq_none]
  simp only [decide_eq_true_eq, ne_eq]

theorem find_self (hx : x ∈ s.elems) : s.find x = some x := find_eq_some_iff.mpr ⟨hx, rfl⟩

end OrderedSet

end Sylar.Memory
