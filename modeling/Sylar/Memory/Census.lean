import Mathlib.Algebra.BigOperators.Group.Finset.Piecewise
import Mathlib.Data.Fintype.BigOperators

/-! # Counting the members of a finite family

One member changes at a time, and with it the number of those that have a property.
-/
namespace Sylar.Memory

variable {T : Type} [Fintype T] {p q : T → Bool} {t : T}

/-- The number of members with a property. -/
def census (p : T → Bool) : ℕ := (Finset.univ.filter fun t => p t).card

theorem census_eq_sum (p : T → Bool) : census p = ∑ t, (p t).toNat := by
  rw [census, Finset.card_filter]
  apply Finset.sum_congr rfl
  intro t _
  cases p t <;> rfl

/-- Only the member `t` may have changed. -/
theorem census_change [DecidableEq T] (h : ∀ t', t' ≠ t → q t' = p t') :
    census q + (p t).toNat = census p + (q t).toNat := by
  have hrest : ∑ x ∈ {t}ᶜ, (q x).toNat = ∑ x ∈ {t}ᶜ, (p x).toNat := by
    apply Finset.sum_congr rfl
    intro x hx
    rw [h x (by simpa using hx)]
  rw [census_eq_sum, census_eq_sum, Fintype.sum_eq_add_sum_compl t,
    Fintype.sum_eq_add_sum_compl t (fun x => (p x).toNat), hrest]
  omega

theorem census_eq_zero : census p = 0 ↔ ∀ t, p t = false := by
  simp [census, Finset.filter_eq_empty_iff]

end Sylar.Memory
