import Sylar.Ragel.Actions

/-! # The words of an expression

Which words an expression accepts, and bytes that none of them has.
-/
namespace Sylar.Ragel

namespace Expr

variable {A : Type}

/-- Some way of matching the expression consumes the whole word. -/
def accepts : Expr A → List UInt8 → Bool
  | e, [] => e.null.isSome
  | e, b :: w => (e.deriv b).any fun t => accepts t.rest w

/-- Neither actions nor guards. -/
@[simp] def plain : Expr A → Bool
  | eps => true
  | cls _ => true
  | seq e f => plain e && plain f
  | alt e f => plain e && plain f
  | star e => plain e
  | _ => false

/-- The byte is in no class of the expression. -/
@[simp] def avoids (b : UInt8) : Expr A → Bool
  | eps => true
  | cls c => !c.mem b
  | seq e f => avoids b e && avoids b f
  | alt e f => avoids b e && avoids b f
  | star e => avoids b e
  | enter _ _ e => avoids b e
  | leave _ _ e => avoids b e
  | finish _ _ e => avoids b e
  | yields _ e => avoids b e
  | guardEntry _ e => avoids b e
  | guardFinish _ e => avoids b e

variable {b c : UInt8} {e f r : Expr A} {t : Transition A}

theorem avoids_cat (he : e.avoids c = true) (hf : f.avoids c = true) :
    (cat e f).avoids c = true := by
  cases e <;> simp_all [cat, avoids]

theorem null_seq_of_right (h : f.null = none) : (seq e f).null = none := by
  rw [null, h]
  cases e.null <;> rfl

theorem Moves.avoids (h : Moves b e t) (he : e.avoids c = true) :
    b ≠ c ∧ t.rest.avoids c = true := by
  induction h with
  | cls h =>
    refine ⟨?_, rfl⟩
    rintro rfl
    rw [Expr.avoids, h] at he
    cases he
  | left h ih =>
    rw [Expr.avoids, Bool.and_eq_true] at he
    exact ⟨(ih he.1).1, avoids_cat (ih he.1).2 he.2⟩
  | right ho h ih =>
    rw [Expr.avoids, Bool.and_eq_true] at he
    exact ih he.2
  | altLeft h ih =>
    rw [Expr.avoids, Bool.and_eq_true] at he
    exact ih he.1
  | altRight h ih =>
    rw [Expr.avoids, Bool.and_eq_true] at he
    exact ih he.2
  | star h ih => exact ⟨(ih he).1, avoids_cat (ih he).2 he⟩
  | enter h ih | leave h ih | finish h ih | yields h ih | guardEntry h ih | guardFinish h ih =>
    exact ih he

theorem deriv_of_avoids (h : e.avoids b = true) : e.deriv b = [] :=
  List.eq_nil_iff_forall_not_mem.mpr fun _ ht => ((moves_of_mem_deriv ht).avoids h).1 rfl

section Accepts

variable {w : List UInt8} {n : ℕ} {a : A}

theorem accepts_leave : (leave n a e).accepts w = e.accepts w := by
  induction w generalizing e with
  | nil => rw [accepts, accepts, null, Option.isSome_map]
  | cons b w ih => simp [accepts, deriv, ih, Function.comp_def]

theorem accepts_enter : (enter n a e).accepts w = e.accepts w := by
  cases w with
  | nil => simp [accepts, null]
  | cons b w => simp [accepts, deriv, Function.comp_def]

theorem accepts_star_cls {c : Cls} : (star (cls c) : Expr A).accepts w = w.all c.mem := by
  induction w with
  | nil => rfl
  | cons b w ih =>
    rw [accepts, deriv, deriv, List.all_cons]
    by_cases hb : c.mem b = true <;> simp [hb, cat, ih]

theorem accepts_plus_cls {c : Cls} :
    (plus (cls c) : Expr A).accepts w = (!w.isEmpty && w.all c.mem) := by
  cases w with
  | nil => rfl
  | cons b w =>
    rw [accepts, plus, deriv, deriv, List.all_cons]
    by_cases hb : c.mem b = true <;> simp [hb, cat, null, accepts_star_cls]

/-- A byte that is in no class of the expression is in no word of it. -/
theorem not_mem_of_accepts (h : e.avoids c = true) (hw : e.accepts w = true) : c ∉ w := by
  induction w generalizing e with
  | nil => exact List.not_mem_nil
  | cons b w ih =>
    rw [accepts, List.any_eq_true] at hw
    rcases hw with ⟨t, ht, hw⟩
    rw [List.mem_cons]
    rintro (rfl | hmem)
    · rw [deriv_of_avoids h] at ht
      cases ht
    · exact ih ((moves_of_mem_deriv ht).avoids h).2 hw hmem

theorem deriv_of_accepts (h : e.accepts (b :: w) = true) : e.deriv b ≠ [] := by
  intro hnil
  rw [accepts, hnil] at h
  cases h

end Accepts

end Expr

end Sylar.Ragel
