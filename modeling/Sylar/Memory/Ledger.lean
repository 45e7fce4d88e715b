import Mathlib.Logic.Function.Basic

/-! # Exclusive possession

Places hold items, each at some stage, and every item carries a record. A
discipline says what a holder may rely on and which holdings tolerate another
holder of the same item; all other holdings are exclusive.
-/
namespace Sylar.Memory

@[ext] structure Ledger (P F A X : Type) where
  holds : P → Option (F × A)
  record : F → X

structure Discipline (P A X : Type) where
  good : X → Prop
  ok : P → A → X → Prop
  shared : P → A → X → Prop

/-- What may become of a holding and of the record of its item: another holder of the item must not
notice. -/
def Discipline.Allows {P A X : Type} (D : Discipline P A X) (p : P) (a : A) (x : X)
    (stage : Option A) (x' : X) : Prop :=
  D.good x' ∧ (∀ b, stage = some b → D.ok p b x') ∧
    (D.shared p a x → ∀ q b, D.ok q b x → D.shared q b x →
      D.ok q b x' ∧ D.shared q b x' ∧ ∀ c, stage = some c → D.shared p c x')

namespace Ledger

variable {P F A X : Type} {D : Discipline P A X} {L : Ledger P F A X}

/-- Every record is good, every holder has what it relies on, and an item with two holders is
shared by both. -/
structure Inv (D : Discipline P A X) (L : Ledger P F A X) : Prop where
  good : ∀ f, D.good (L.record f)
  ok : ∀ p f a, L.holds p = some (f, a) → D.ok p a (L.record f)
  shared : ∀ p q f a b, L.holds p = some (f, a) → L.holds q = some (f, b) → p ≠ q →
    D.shared p a (L.record f)

/-- A holding that is not shared excludes all others. -/
theorem Inv.sole (h : Inv D L) {p q : P} {f : F} {a b : A} (hp : L.holds p = some (f, a))
    (hexcl : ¬D.shared p a (L.record f)) (hq : L.holds q = some (f, b)) : q = p := by
  by_contra hne
  exact hexcl (h.shared p q f a b hp hq (Ne.symm hne))

/-- Letting go of an item changes nothing for the others. -/
theorem Inv.release [DecidableEq P] (h : Inv D L) (p : P) :
    Inv D ⟨Function.update L.holds p none, L.record⟩ := by
  have hold : ∀ q g a, Function.update L.holds p none q = some (g, a) →
      L.holds q = some (g, a) := by
    intro q g a hq
    by_cases hqp : q = p
    · rw [hqp, Function.update_self] at hq
      cases hq
    · rwa [Function.update_of_ne hqp] at hq
  constructor
  · exact h.good
  · intro q g a hq
    exact h.ok q g a (hold q g a hq)
  · intro q r g a b hq hr hne
    exact h.shared q r g a b (hold q g a hq) (hold r g b hr) hne

/-- The record of an item changes under its holders. -/
theorem Inv.setRecord [DecidableEq F] (h : Inv D L) {f : F} {x : X} (hgood : D.good x)
    (hholders : ∀ p a, L.holds p = some (f, a) →
      D.ok p a x ∧ (D.shared p a (L.record f) → D.shared p a x)) :
    Inv D ⟨L.holds, Function.update L.record f x⟩ := by
  constructor
  · intro g
    by_cases hg : g = f
    · subst hg
      simpa using hgood
    · simpa [Function.update_of_ne hg] using h.good g
  · intro p g a hp
    by_cases hg : g = f
    · subst hg
      simpa using (hholders p a hp).1
    · simpa [Function.update_of_ne hg] using h.ok p g a hp
  · intro p q g a b hp hq hne
    by_cases hg : g = f
    · subst hg
      simpa using (hholders p a hp).2 (h.shared p q g a b hp hq hne)
    · simpa [Function.update_of_ne hg] using h.shared p q g a b hp hq hne

section Change

variable [DecidableEq P] [DecidableEq F] {p : P} {f : F} {stage : Option A} {x : X}

/-- The place `p` now holds `f` at the given stage, or nothing, and the record of `f` changes. -/
def change (L : Ledger P F A X) (p : P) (f : F) (stage : Option A) (x : X) : Ledger P F A X :=
  ⟨Function.update L.holds p (stage.map fun a => (f, a)), Function.update L.record f x⟩

@[simp] theorem change_holds_self :
    (L.change p f stage x).holds p = stage.map fun a => (f, a) := Function.update_self _ _ _

@[simp] theorem change_holds_of_ne {q : P} (hq : q ≠ p) :
    (L.change p f stage x).holds q = L.holds q := Function.update_of_ne hq _ _

@[simp] theorem change_record_self : (L.change p f stage x).record f = x :=
  Function.update_self _ _ _

@[simp] theorem change_record_of_ne {g : F} (hg : g ≠ f) :
    (L.change p f stage x).record g = L.record g := Function.update_of_ne hg _ _

theorem eq_change {L' : Ledger P F A X} (hp : L'.holds p = stage.map fun a => (f, a))
    (hq : ∀ q, q ≠ p → L'.holds q = L.holds q) (hf : ∀ g, g ≠ f → L'.record g = L.record g) :
    L' = L.change p f stage (L'.record f) := by
  apply Ledger.ext
  · exact Function.eq_update_iff.mpr ⟨hp, hq⟩
  · exact Function.eq_update_iff.mpr ⟨rfl, hf⟩

theorem change_holds_eq_some {g : F} {a : A}
    (hp : (L.change p f stage x).holds p = some (g, a)) : g = f ∧ stage = some a := by
  rw [change_holds_self, Option.map_eq_some_iff] at hp
  rcases hp with ⟨a', hstage, hpair⟩
  cases hpair
  exact ⟨rfl, hstage⟩

/-- The new holder needs what it relies on, and whoever else holds the item must share it. -/
theorem Inv.change (h : Inv D L) (hgood : D.good x) (hok : ∀ a, stage = some a → D.ok p a x)
    (hothers : ∀ q b, q ≠ p → L.holds q = some (f, b) →
      D.ok q b x ∧ D.shared q b x ∧ ∀ a, stage = some a → D.shared p a x) :
    Inv D (L.change p f stage x) := by
  constructor
  · intro g
    by_cases hg : g = f
    · rw [hg, change_record_self]
      exact hgood
    · rw [change_record_of_ne hg]
      exact h.good g
  · intro q g a hq
    by_cases hqp : q = p
    · subst hqp
      rcases change_holds_eq_some hq with ⟨rfl, ha⟩
      rw [change_record_self]
      exact hok a ha
    · rw [change_holds_of_ne hqp] at hq
      by_cases hg : g = f
      · subst hg
        rw [change_record_self]
        exact (hothers q a hqp hq).1
      · rw [change_record_of_ne hg]
        exact h.ok q g a hq
  · intro q r g a b hq hr hne
    by_cases hg : g = f
    · subst hg
      rw [change_record_self]
      by_cases hqp : q = p
      · subst hqp
        rw [change_holds_of_ne (Ne.symm hne)] at hr
        exact (hothers r b (Ne.symm hne) hr).2.2 a (change_holds_eq_some hq).2
      · rw [change_holds_of_ne hqp] at hq
        exact (hothers q a hqp hq).2.1
    · rw [change_record_of_ne hg]
      have hkeep : ∀ o c, (L.change p f stage x).holds o = some (g, c) → o ≠ p := by
        rintro o c ho rfl
        exact hg (change_holds_eq_some ho).1
      rw [change_holds_of_ne (hkeep q a hq)] at hq
      rw [change_holds_of_ne (hkeep r b hr)] at hr
      exact h.shared q r g a b hq hr hne

theorem Inv.move (h : Inv D L) {a : A} (hp : L.holds p = some (f, a))
    (hx : D.Allows p a (L.record f) stage x) : Inv D (L.change p f stage x) := by
  apply h.change hx.1 hx.2.1
  intro q b hne hq
  exact hx.2.2 (h.shared p q f a b hp hq hne.symm) q b (h.ok q f b hq) (h.shared q p f b a hq hp hne)

/-- An item that nobody holds may change at will. -/
theorem Inv.changeNew (h : Inv D L) (hnew : ∀ q b, L.holds q ≠ some (f, b))
    (hgood : D.good x) (hok : ∀ a, stage = some a → D.ok p a x) :
    Inv D (L.change p f stage x) := by
  apply h.change hgood hok
  intro q b _ hq
  exact absurd hq (hnew q b)

end Change

end Ledger

end Sylar.Memory
