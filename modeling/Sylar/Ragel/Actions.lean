import Mathlib.Data.List.Basic
import Sylar.Ragel.Exec

/-! # The order of embedded actions

What can be said about the actions of a machine without running it: which actions there
are, that a finishing action is executed exactly where the machine accepts, and that
one action is never executed before another.
-/
namespace Sylar.Ragel

namespace Expr

variable {A : Type}

/-- The actions of an expression with their numbers. -/
@[simp] def embedded : Expr A → List (ℕ × A)
  | eps => []
  | cls _ => []
  | seq e f => embedded e ++ embedded f
  | alt e f => embedded e ++ embedded f
  | star e => embedded e
  | enter n a e => (n, a) :: embedded e
  | leave n a e => (n, a) :: embedded e
  | finish n a e => (n, a) :: embedded e
  | yields _ e => embedded e
  | guardEntry _ e => embedded e
  | guardFinish _ e => embedded e

/-- The transitions of an expression, one rule for each way in which `deriv` makes them. -/
inductive Moves (b : UInt8) : Expr A → Transition A → Prop where
  | cls {c} (h : c.mem b = true) : Moves b (cls c) ⟨eps, [], [], []⟩
  | left {e f t} (h : Moves b e t) : Moves b (seq e f) { t with rest := cat t.rest f }
  | right {e f o t} (ho : null e = some o) (h : Moves b f t) :
      Moves b (seq e f) { t with acts := o ++ t.acts }
  | altLeft {e f t} (h : Moves b e t) : Moves b (alt e f) t
  | altRight {e f t} (h : Moves b f t) : Moves b (alt e f) t
  | star {e t} (h : Moves b e t) : Moves b (star e) { t with rest := cat t.rest (star e) }
  | enter {n a e t} (h : Moves b e t) : Moves b (enter n a e) { t with acts := (n, a) :: t.acts }
  | leave {n a e t} (h : Moves b e t) : Moves b (leave n a e) { t with rest := leave n a t.rest }
  | finish {n a e t} (h : Moves b e t) : Moves b (finish n a e) { t with
      rest := finish n a t.rest
      acts := if (null t.rest).isSome then t.acts ++ [(n, a)] else t.acts }
  | yields {key e t} (h : Moves b e t) :
      Moves b (yields key e) { t with rest := yields key t.rest, low := key :: t.low }
  | guardEntry {key e t} (h : Moves b e t) :
      Moves b (guardEntry key e) { t with high := key :: t.high }
  | guardFinish {key e t} (h : Moves b e t) : Moves b (guardFinish key e) { t with
      rest := guardFinish key t.rest
      high := if (null t.rest).isSome then key :: t.high else t.high }

theorem moves_of_mem_deriv {b : UInt8} {e : Expr A} {t : Transition A} (h : t ∈ deriv b e) :
    Moves b e t := by
  induction e generalizing t with
  | eps => simp [deriv] at h
  | cls c =>
    rw [deriv] at h
    split_ifs at h with hc
    · rw [List.mem_singleton.mp h]
      exact .cls hc
    · simp at h
  | seq e f ihe ihf =>
    rw [deriv] at h
    rcases List.mem_append.mp h with h | h
    · obtain ⟨t', ht', rfl⟩ := List.mem_map.mp h
      exact .left (ihe ht')
    · cases ho : null e with
      | none => simp [ho] at h
      | some o =>
        rw [ho] at h
        obtain ⟨t', ht', rfl⟩ := List.mem_map.mp h
        exact .right ho (ihf ht')
  | alt e f ihe ihf =>
    rcases List.mem_append.mp h with h | h
    · exact .altLeft (ihe h)
    · exact .altRight (ihf h)
  | star e ih =>
    obtain ⟨t', ht', rfl⟩ := List.mem_map.mp h
    exact .star (ih ht')
  | enter n a e ih =>
    obtain ⟨t', ht', rfl⟩ := List.mem_map.mp h
    exact .enter (ih ht')
  | leave n a e ih =>
    obtain ⟨t', ht', rfl⟩ := List.mem_map.mp h
    exact .leave (ih ht')
  | finish n a e ih =>
    obtain ⟨t', ht', rfl⟩ := List.mem_map.mp h
    exact .finish (ih ht')
  | yields key e ih =>
    obtain ⟨t', ht', rfl⟩ := List.mem_map.mp h
    exact .yields (ih ht')
  | guardEntry key e ih =>
    obtain ⟨t', ht', rfl⟩ := List.mem_map.mp h
    exact .guardEntry (ih ht')
  | guardFinish key e ih =>
    obtain ⟨t', ht', rfl⟩ := List.mem_map.mp h
    exact .guardFinish (ih ht')

/-- The two ways in which a sequence matches nothing, and what is pending then. -/
theorem null_seq {e f : Expr A} {o : List (ℕ × A)} (h : null (seq e f) = some o) :
    ∃ o₁ o₂, null e = some o₁ ∧ null f = some o₂ ∧ o = o₁ ++ o₂ := by
  rw [null] at h
  split at h
  · next o₁ o₂ h₁ h₂ => exact ⟨o₁, o₂, h₁, h₂, (Option.some.inj h).symm⟩
  · simp at h

theorem null_alt {e f : Expr A} {o : List (ℕ × A)} (h : null (alt e f) = some o) :
    (∃ o₁ o₂, null e = some o₁ ∧ null f = some o₂ ∧ o = o₁ ++ o₂) ∨
      (null e = some o ∧ null f = none) ∨ (null e = none ∧ null f = some o) := by
  rw [null] at h
  split at h
  · next o₁ o₂ h₁ h₂ => exact .inl ⟨o₁, o₂, h₁, h₂, (Option.some.inj h).symm⟩
  · next o₁ h₁ h₂ => exact .inr (.inl ⟨by rw [h₁, Option.some.inj h], h₂⟩)
  · next h₁ => exact .inr (.inr ⟨h₁, h⟩)

theorem null_leave {n : ℕ} {a : A} {e : Expr A} {o : List (ℕ × A)}
    (h : null (leave n a e) = some o) : ∃ o', null e = some o' ∧ o = o' ++ [(n, a)] := by
  rw [null, Option.map_eq_some_iff] at h
  obtain ⟨o', h', rfl⟩ := h
  exact ⟨o', h', rfl⟩

theorem null_enter {n : ℕ} {a : A} {e : Expr A} {o : List (ℕ × A)}
    (h : null (enter n a e) = some o) : ∃ o', null e = some o' ∧ o = (n, a) :: o' := by
  rw [null, Option.map_eq_some_iff] at h
  obtain ⟨o', h', rfl⟩ := h
  exact ⟨o', h', rfl⟩

theorem mem_null {e : Expr A} {o : List (ℕ × A)} (h : null e = some o) {x : ℕ × A}
    (hx : x ∈ o) : x ∈ embedded e := by
  induction e generalizing o with
  | eps =>
    rw [null, Option.some.injEq] at h
    rw [← h] at hx
    simp at hx
  | cls c => simp [null] at h
  | seq e f ihe ihf =>
    obtain ⟨o₁, o₂, h₁, h₂, rfl⟩ := null_seq h
    rcases List.mem_append.mp hx with hx | hx
    · exact List.mem_append_left _ (ihe h₁ hx)
    · exact List.mem_append_right _ (ihf h₂ hx)
  | alt e f ihe ihf =>
    rcases null_alt h with ⟨o₁, o₂, h₁, h₂, rfl⟩ | ⟨h₁, -⟩ | ⟨-, h₂⟩
    · rcases List.mem_append.mp hx with hx | hx
      · exact List.mem_append_left _ (ihe h₁ hx)
      · exact List.mem_append_right _ (ihf h₂ hx)
    · exact List.mem_append_left _ (ihe h₁ hx)
    · exact List.mem_append_right _ (ihf h₂ hx)
  | star e ih =>
    rw [null, Option.some.injEq] at h
    cases he : null e with
    | none =>
      rw [he] at h
      rw [← h] at hx
      simp at hx
    | some o' =>
      rw [he] at h
      exact ih he (by rw [← h] at hx; exact hx)
  | enter n a e ih =>
    obtain ⟨o', h', rfl⟩ := null_enter h
    rcases List.mem_cons.mp hx with rfl | hx
    · exact List.mem_cons_self
    · exact List.mem_cons_of_mem _ (ih h' hx)
  | leave n a e ih =>
    obtain ⟨o', h', rfl⟩ := null_leave h
    rcases List.mem_append.mp hx with hx | hx
    · exact List.mem_cons_of_mem _ (ih h' hx)
    · rw [List.mem_singleton.mp hx]
      exact List.mem_cons_self
  | finish n a e ih => exact List.mem_cons_of_mem _ (ih h hx)
  | yields key e ih => exact ih h hx
  | guardEntry key e ih => exact ih h hx
  | guardFinish key e ih => exact ih h hx

theorem embedded_cat (e f : Expr A) : embedded (cat e f) = embedded e ++ embedded f := by
  cases e <;> rfl

/-- A transition executes actions of the expression, and no others remain. -/
theorem Moves.embedded {b : UInt8} {e : Expr A} {t : Transition A} (h : Moves b e t) :
    t.acts ⊆ e.embedded ∧ t.rest.embedded ⊆ e.embedded := by
  induction h with
  | cls h => exact ⟨List.nil_subset _, List.nil_subset _⟩
  | left h ih =>
    refine ⟨fun x hx => List.mem_append_left _ (ih.1 hx), ?_⟩
    rw [embedded_cat]
    exact List.append_subset.mpr ⟨fun x hx => List.mem_append_left _ (ih.2 hx),
      List.subset_append_right _ _⟩
  | right ho h ih =>
    refine ⟨List.append_subset.mpr ⟨fun x hx => List.mem_append_left _ (mem_null ho hx),
      fun x hx => List.mem_append_right _ (ih.1 hx)⟩, fun x hx => ?_⟩
    exact List.mem_append_right _ (ih.2 hx)
  | altLeft h ih =>
    exact ⟨fun x hx => List.mem_append_left _ (ih.1 hx),
      fun x hx => List.mem_append_left _ (ih.2 hx)⟩
  | altRight h ih =>
    exact ⟨fun x hx => List.mem_append_right _ (ih.1 hx),
      fun x hx => List.mem_append_right _ (ih.2 hx)⟩
  | star h ih =>
    refine ⟨ih.1, ?_⟩
    rw [embedded_cat]
    exact List.append_subset.mpr ⟨ih.2, List.Subset.refl _⟩
  | enter h ih =>
    exact ⟨List.cons_subset_cons _ ih.1, fun x hx => List.mem_cons_of_mem _ (ih.2 hx)⟩
  | leave h ih =>
    exact ⟨fun x hx => List.mem_cons_of_mem _ (ih.1 hx), List.cons_subset_cons _ ih.2⟩
  | finish h ih =>
    refine ⟨fun x hx => ?_, List.cons_subset_cons _ ih.2⟩
    dsimp only at hx
    split_ifs at hx
    · rcases List.mem_append.mp hx with hx | hx
      · exact List.mem_cons_of_mem _ (ih.1 hx)
      · rw [List.mem_singleton.mp hx]
        exact List.mem_cons_self
    · exact List.mem_cons_of_mem _ (ih.1 hx)
  | yields h ih => exact ih
  | guardEntry h ih => exact ih
  | guardFinish h ih => exact ih

end Expr

section Step

variable {A : Type} [DecidableEq A] {s s' : State A} {b : UInt8} {as : List A}

theorem mem_actionsOf {ts : List (Transition A)} {a : A} :
    a ∈ actionsOf ts ↔ ∃ t ∈ ts, ∃ n, (n, a) ∈ t.acts := by
  rw [actionsOf, List.mem_eraseDups, List.mem_map]
  constructor
  · rintro ⟨⟨n, x⟩, hx, rfl⟩
    rw [List.mem_insertionSort, List.mem_flatMap] at hx
    obtain ⟨t, ht, hx⟩ := hx
    exact ⟨t, ht, n, hx⟩
  · rintro ⟨t, ht, n, hx⟩
    refine ⟨(n, a), ?_, rfl⟩
    rw [List.mem_insertionSort, List.mem_flatMap]
    exact ⟨t, ht, hx⟩

/-- A step of the machine is made of transitions of the expressions of its state. -/
theorem step_eq_some (h : step s b = some (s', as)) :
    ∃ ts : List (Transition A), (∀ t ∈ ts, ∃ e ∈ s, e.Moves b t) ∧
      (∀ e, e ∈ s' ↔ ∃ t ∈ ts, t.rest = e) ∧ as = actionsOf ts := by
  rw [step] at h
  split at h
  · simp at h
  · next ts _ hts =>
    rw [Option.some.injEq, Prod.mk.injEq] at h
    refine ⟨_, fun t ht => ?_, fun e => ?_, h.2.symm⟩
    · rw [live, List.mem_filter, List.mem_flatMap] at ht
      obtain ⟨⟨e, he, ht⟩, -⟩ := ht
      exact ⟨e, he, Expr.moves_of_mem_deriv ht⟩
    · rw [← h.1, List.mem_eraseDups, List.mem_map]

/-- Every expression of the state is to be finished by `a`, which occurs nowhere else. -/
def Ending (n : ℕ) (a : A) (s : State A) : Prop :=
  ∀ e ∈ s, ∃ r : Expr A, e = .finish n a r ∧ ∀ x ∈ r.embedded, x.2 ≠ a

variable {n : ℕ} {a : A}

/-- A finishing action is executed when the machine enters a final state. -/
theorem Ending.step (h : Ending n a s) (hs : step s b = some (s', as)) :
    Ending n a s' ∧ (a ∈ as ↔ final s' = true) := by
  obtain ⟨ts, hts, hrest, rfl⟩ := step_eq_some hs
  have hmoves : ∀ t ∈ ts, ∃ r : Expr A, t.rest = .finish n a r ∧ (∀ x ∈ r.embedded, x.2 ≠ a) ∧
      ((∃ m, (m, a) ∈ t.acts) ↔ r.null.isSome = true) := by
    intro t ht
    obtain ⟨e, he, hm⟩ := hts t ht
    obtain ⟨r, rfl, hr⟩ := h e he
    cases hm with
    | @finish _ _ _ t' ht' =>
      have hsub := ht'.embedded
      refine ⟨t'.rest, rfl, fun x hx => hr x (hsub.2 hx), ?_⟩
      dsimp only
      split_ifs with hnull
      · exact ⟨fun _ => hnull, fun _ => ⟨n, by simp⟩⟩
      · refine ⟨?_, fun hn => absurd hn hnull⟩
        rintro ⟨m, hm⟩
        exact absurd rfl (hr _ (hsub.1 hm))
  constructor
  · intro e he
    obtain ⟨t, ht, rfl⟩ := (hrest e).mp he
    obtain ⟨r, hr, hfree, -⟩ := hmoves t ht
    exact ⟨r, hr, hfree⟩
  · rw [mem_actionsOf, final, List.any_eq_true]
    constructor
    · rintro ⟨t, ht, m, hm⟩
      obtain ⟨r, hr, -, hiff⟩ := hmoves t ht
      refine ⟨t.rest, (hrest _).mpr ⟨t, ht, rfl⟩, ?_⟩
      rw [hr]
      exact hiff.mp ⟨m, hm⟩
    · rintro ⟨e, he, hnull⟩
      obtain ⟨t, ht, rfl⟩ := (hrest e).mp he
      obtain ⟨r, hr, -, hiff⟩ := hmoves t ht
      rw [hr] at hnull
      exact ⟨t, ht, hiff.mpr hnull⟩

/-- If the finishing action alone breaks, the code is left exactly in a final state. -/
theorem Ending.sweep {breaks : A → Bool} (hb : ∀ x, breaks x = true ↔ x = a) {p : ℕ}
    {bs : List UInt8} (h : Ending n a s) (hne : bs ≠ [])
    (hcs : (sweep breaks s p bs).2.cs = some s') :
    (sweep breaks s p bs).2.broke = true ↔ final s' = true := by
  induction bs generalizing s p with
  | nil => exact absurd rfl hne
  | cons b bs ih =>
    cases hs : Ragel.step s b with
    | none =>
      rw [sweep_cons_error hs] at hcs
      simp at hcs
    | some next =>
      obtain ⟨hnext, hiff⟩ := h.step hs
      have hany : next.2.any breaks = true ↔ final next.1 = true := by
        rw [← hiff, List.any_eq_true]
        constructor
        · rintro ⟨x, hx, hbx⟩
          rw [← (hb x).mp hbx]
          exact hx
        · intro hx
          exact ⟨a, hx, (hb a).mpr rfl⟩
      cases hbreak : next.2.any breaks with
      | true =>
        rw [sweep_cons_break hs hbreak] at hcs ⊢
        rw [← Option.some.inj hcs]
        exact ⟨fun _ => hany.mp hbreak, fun _ => rfl⟩
      | false =>
        rw [sweep_cons_on hs hbreak] at hcs ⊢
        cases bs with
        | nil =>
          rw [sweep_nil] at hcs ⊢
          rw [← Option.some.inj hcs, ← hany, hbreak]
        | cons b' bs => exact ih hnext (List.cons_ne_nil _ _) hcs

end Step

end Sylar.Ragel
