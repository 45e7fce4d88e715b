import Mathlib.Algebra.BigOperators.Group.List.Basic
import Mathlib.Algebra.GroupWithZero.Nat
import Mathlib.Data.Nat.Notation

/-! # Weights over a list of parties

Every party of a list contributes a weight, and a step replaces one party. What the total becomes
follows from the two weights alone.
-/
namespace Sylar.Memory

variable {α : Type} {w v : α → ℕ} {l : List α} {i : ℕ} {a b : α}

/-- The sum of the weights. -/
def tally (w : α → ℕ) (l : List α) : ℕ := (l.map w).sum

@[simp] theorem tally_nil : tally w [] = 0 := rfl

@[simp] theorem tally_cons : tally w (a :: l) = w a + tally w l := List.sum_cons

@[simp] theorem tally_concat : tally w (l ++ [a]) = tally w l + w a := by
  simp [tally]

/-- The party `a` at a position becomes `b`. -/
theorem tally_set (h : l[i]? = some a) : tally w (l.set i b) + w a = tally w l + w b := by
  induction l generalizing i with
  | nil => simp at h
  | cons c l ih =>
    cases i with
    | zero =>
      rw [List.getElem?_cons_zero, Option.some.injEq] at h
      rw [h, List.set_cons_zero, tally_cons, tally_cons]
      omega
    | succ i =>
      rw [List.getElem?_cons_succ] at h
      rw [List.set_cons_succ, tally_cons, tally_cons]
      have := ih h
      omega

theorem le_tally (h : l[i]? = some a) : w a ≤ tally w l := by
  induction l generalizing i with
  | nil => simp at h
  | cons c l ih =>
    rw [tally_cons]
    cases i with
    | zero =>
      rw [List.getElem?_cons_zero, Option.some.injEq] at h
      rw [h]
      omega
    | succ i =>
      rw [List.getElem?_cons_succ] at h
      have := ih h
      omega

theorem tally_le_tally (h : ∀ a, w a ≤ v a) : tally w l ≤ tally v l := by
  induction l with
  | nil => exact Nat.le_refl 0
  | cons a l ih =>
    rw [tally_cons, tally_cons]
    have := h a
    omega

theorem tally_eq_zero (h : ∀ a ∈ l, w a = 0) : tally w l = 0 := by
  induction l with
  | nil => rfl
  | cons a l ih =>
    rw [tally_cons, h a List.mem_cons_self, ih fun b hb => h b (List.mem_cons_of_mem _ hb)]

end Sylar.Memory
