import Sylar.Ragel.Eof
import Sylar.Ragel.Reach

/-! # Actions, constructor by constructor

Which actions an expression has at a byte, and which are pending behind a word, follows its
constructors as the words of the language do: a sequence has the actions of its second part for
every way of splitting the word. What the machine executes is the list of these actions in their
order.
-/
namespace Sylar.Ragel

namespace Expr

variable {A : Type} {e f r : Expr A} {w : List UInt8} {b : UInt8} {n : ℕ} {a : A} {x : ℕ × A}

theorem mem_actsAt : x ∈ e.actsAt w b ↔ ∃ r ∈ e.reach w, ∃ t ∈ r.deriv b, x ∈ t.acts := by
  simp only [actsAt, movesAt, List.mem_flatMap]
  constructor
  · rintro ⟨t, ⟨r, hr, ht⟩, hx⟩
    exact ⟨r, hr, t, ht, hx⟩
  · rintro ⟨r, hr, t, ht, hx⟩
    exact ⟨t, ⟨r, hr, ht⟩, hx⟩

theorem mem_exitActs : x ∈ e.exitActs w ↔ ∃ r ∈ e.reach w, ∃ o, r.null = some o ∧ x ∈ o := by
  rw [exitActs, List.mem_flatMap]
  constructor
  · rintro ⟨r, hr, hx⟩
    cases ho : r.null with
    | none => simp [ho] at hx
    | some o =>
      rw [ho] at hx
      exact ⟨r, hr, o, ho, hx⟩
  · rintro ⟨r, hr, o, ho, hx⟩
    refine ⟨r, hr, ?_⟩
    rw [ho]
    exact hx

theorem accepts_of_exitActs (h : x ∈ e.exitActs w) : e.accepts w = true := by
  rcases mem_exitActs.mp h with ⟨r, hr, o, ho, -⟩
  exact accepts_iff_reach.mpr ⟨r, hr, Option.isSome_of_eq_some ho⟩

theorem reach_singleton (e : Expr A) (b : UInt8) :
    e.reach [b] = (e.deriv b).map Transition.rest := by
  rw [reach, List.map_eq_flatMap]
  rfl

section Plain

theorem embedded_of_plain (h : e.plain = true) : e.embedded = [] := by
  induction e <;> simp_all

theorem calm_of_plain (h : e.plain = true) : e.calm = true := by
  induction e <;> simp_all

theorem actsAt_of_plain (h : e.plain = true) : e.actsAt w b = [] :=
  List.subset_nil.mp (embedded_of_plain h ▸ actsAt_subset)

theorem exitActs_of_plain (h : e.plain = true) : e.exitActs w = [] :=
  List.subset_nil.mp (embedded_of_plain h ▸ exitActs_subset)

theorem actsAt_of_avoids (h : e.avoids b = true) : e.actsAt w b = [] := by
  rw [List.eq_nil_iff_forall_not_mem]
  intro x hx
  rcases mem_actsAt.mp hx with ⟨r, hr, t, ht, hx⟩
  rw [deriv_of_avoids (avoids_of_reach h r hr)] at ht
  cases ht

theorem reach_of_avoids {c : UInt8} (h : e.avoids c = true) (hc : c ∈ w) : e.reach w = [] := by
  rcases List.append_of_mem hc with ⟨u, v, rfl⟩
  rw [reach_append, List.flatMap_eq_nil_iff]
  intro r hr
  rw [reach, deriv_of_avoids (avoids_of_reach h r hr)]
  rfl

end Plain

section Embedding

theorem reach_leave : (leave n a e).reach w = (e.reach w).map (leave n a) := by
  induction w generalizing e with
  | nil => rfl
  | cons b w ih =>
    rw [reach, reach, deriv, List.flatMap_map, List.map_flatMap]
    simp only [ih]

theorem reach_enter : (enter n a e).reach (b :: w) = e.reach (b :: w) := by
  rw [reach, reach, deriv, List.flatMap_map]

theorem mem_actsAt_leave : x ∈ (leave n a e).actsAt w b ↔ x ∈ e.actsAt w b := by
  simp only [mem_actsAt, reach_leave, List.mem_map]
  constructor
  · rintro ⟨_, ⟨r, hr, rfl⟩, t, ht, hx⟩
    rcases List.mem_map.mp ht with ⟨t', ht', rfl⟩
    exact ⟨r, hr, t', ht', hx⟩
  · rintro ⟨r, hr, t, ht, hx⟩
    exact ⟨_, ⟨r, hr, rfl⟩, _, List.mem_map_of_mem ht, hx⟩

theorem mem_exitActs_leave :
    x ∈ (leave n a e).exitActs w ↔ x ∈ e.exitActs w ∨ (e.accepts w = true ∧ x = (n, a)) := by
  simp only [mem_exitActs, reach_leave, List.mem_map, accepts_iff_reach]
  constructor
  · rintro ⟨_, ⟨r, hr, rfl⟩, o, ho, hx⟩
    rcases null_leave ho with ⟨o', ho', rfl⟩
    rcases List.mem_append.mp hx with hx | hx
    · exact .inl ⟨r, hr, o', ho', hx⟩
    · exact .inr ⟨⟨r, hr, Option.isSome_of_eq_some ho'⟩, List.mem_singleton.mp hx⟩
  · rintro (⟨r, hr, o, ho, hx⟩ | ⟨⟨r, hr, hnull⟩, rfl⟩)
    · refine ⟨_, ⟨r, hr, rfl⟩, o ++ [(n, a)], ?_, List.mem_append_left _ hx⟩
      rw [null, ho]
      rfl
    · rcases Option.isSome_iff_exists.mp hnull with ⟨o, ho⟩
      refine ⟨_, ⟨r, hr, rfl⟩, o ++ [(n, a)], ?_, List.mem_append_right _ (by simp)⟩
      rw [null, ho]
      rfl

theorem mem_actsAt_enter : x ∈ (enter n a e).actsAt w b ↔
    x ∈ e.actsAt w b ∨ (w = [] ∧ e.deriv b ≠ [] ∧ x = (n, a)) := by
  cases w with
  | cons c w => simp [mem_actsAt, reach_enter]
  | nil =>
    simp only [mem_actsAt, reach, List.mem_singleton, exists_eq_left, deriv, List.mem_map,
      true_and]
    constructor
    · rintro ⟨_, ⟨t, ht, rfl⟩, hx⟩
      rcases List.mem_cons.mp hx with hx | hx
      · exact .inr ⟨List.ne_nil_of_mem ht, hx⟩
      · exact .inl ⟨t, ht, hx⟩
    · rintro (⟨t, ht, hx⟩ | ⟨hne, rfl⟩)
      · exact ⟨_, ⟨t, ht, rfl⟩, List.mem_cons_of_mem _ hx⟩
      · rcases List.exists_mem_of_ne_nil _ hne with ⟨t, ht⟩
        exact ⟨_, ⟨t, ht, rfl⟩, List.mem_cons_self⟩

theorem mem_exitActs_enter : x ∈ (enter n a e).exitActs w ↔
    x ∈ e.exitActs w ∨ (w = [] ∧ e.null.isSome = true ∧ x = (n, a)) := by
  cases w with
  | cons c w => simp [mem_exitActs, reach_enter]
  | nil =>
    simp only [mem_exitActs, reach, List.mem_singleton, exists_eq_left, true_and]
    constructor
    · rintro ⟨o, ho, hx⟩
      obtain ⟨o', ho', rfl⟩ := null_enter ho
      rcases List.mem_cons.mp hx with rfl | hx
      · exact .inr ⟨Option.isSome_of_eq_some ho', rfl⟩
      · exact .inl ⟨o', ho', hx⟩
    · rintro (⟨o, ho, hx⟩ | ⟨hnull, rfl⟩)
      · exact ⟨_, by rw [null, ho]; rfl, List.mem_cons_of_mem _ hx⟩
      · obtain ⟨o, ho⟩ := Option.isSome_iff_exists.mp hnull
        exact ⟨_, by rw [null, ho]; rfl, List.mem_cons_self⟩

/-- What is pending behind a piece whose start and end are marked. -/
theorem mem_exitActs_piece {m : ℕ} {a' : A} (h : e.plain = true) :
    x ∈ (leave m a' (enter n a e)).exitActs w ↔
      e.accepts w = true ∧ ((w = [] ∧ x = (n, a)) ∨ x = (m, a')) := by
  rw [mem_exitActs_leave, mem_exitActs_enter, exitActs_of_plain h, accepts_enter]
  cases w with
  | nil =>
    rw [accepts]
    simp [and_or_left]
  | cons c w => simp

end Embedding

section Choice

theorem reach_alt : (alt e f).reach (b :: w) = e.reach (b :: w) ++ f.reach (b :: w) := by
  rw [reach, reach, reach, deriv, List.flatMap_append]

theorem mem_actsAt_alt :
    x ∈ (alt e f).actsAt w b ↔ x ∈ e.actsAt w b ∨ x ∈ f.actsAt w b := by
  cases w with
  | cons c w => simp only [mem_actsAt, reach_alt, List.mem_append, or_and_right, exists_or]
  | nil =>
    simp only [mem_actsAt, reach, List.mem_singleton, exists_eq_left, deriv, List.mem_append,
      or_and_right, exists_or]

theorem mem_exitActs_alt :
    x ∈ (alt e f).exitActs w ↔ x ∈ e.exitActs w ∨ x ∈ f.exitActs w := by
  cases w with
  | cons c w => simp only [mem_exitActs, reach_alt, List.mem_append, or_and_right, exists_or]
  | nil =>
    simp only [mem_exitActs, reach, List.mem_singleton, exists_eq_left, null]
    cases e.null <;> cases f.null <;> simp

theorem mem_actsAt_opt : x ∈ (opt e).actsAt w b ↔ x ∈ e.actsAt w b := by
  rw [opt, mem_actsAt_alt, actsAt_of_plain (e := eps) rfl]
  simp

theorem mem_exitActs_opt : x ∈ (opt e).exitActs w ↔ x ∈ e.exitActs w := by
  rw [opt, mem_exitActs_alt, exitActs_of_plain (e := eps) rfl]
  simp

end Choice

section Sequence

theorem mem_reach_cat : r ∈ (cat e f).reach w ↔ (∃ r' ∈ e.reach w, r = cat r' f) ∨
    ∃ u c v, w = u ++ c :: v ∧ e.accepts u = true ∧ r ∈ f.reach (c :: v) := by
  induction w generalizing e with
  | nil => simp [reach]
  | cons c w ih =>
    rw [reach, List.mem_flatMap]
    constructor
    · rintro ⟨t, ht, hr⟩
      rw [deriv_cat] at ht
      rcases List.mem_append.mp ht with ht | ht
      · rcases List.mem_map.mp ht with ⟨t', ht', rfl⟩
        rcases ih.mp hr with ⟨r', hr', rfl⟩ | ⟨u, d, v, rfl, hu, hr⟩
        · exact .inl ⟨r', List.mem_flatMap.mpr ⟨t', ht', hr'⟩, rfl⟩
        · refine .inr ⟨c :: u, d, v, rfl, ?_, hr⟩
          rw [accepts, List.any_eq_true]
          exact ⟨t', ht', hu⟩
      · cases ho : e.null with
        | none =>
          rw [ho] at ht
          cases ht
        | some o =>
          rw [ho] at ht
          rcases List.mem_map.mp ht with ⟨t', ht', rfl⟩
          refine .inr ⟨[], c, w, rfl, Option.isSome_of_eq_some ho, ?_⟩
          exact List.mem_flatMap.mpr ⟨t', ht', hr⟩
    · rintro (⟨r', hr', rfl⟩ | ⟨u, d, v, hw, hu, hr⟩)
      · rcases List.mem_flatMap.mp hr' with ⟨t, ht, hr'⟩
        refine ⟨{ t with rest := cat t.rest f }, ?_, ih.mpr (.inl ⟨r', hr', rfl⟩)⟩
        rw [deriv_cat]
        exact List.mem_append_left _ (List.mem_map_of_mem ht)
      · cases u with
        | nil =>
          rw [List.nil_append, List.cons.injEq] at hw
          rcases hw with ⟨rfl, rfl⟩
          rcases Option.isSome_iff_exists.mp hu with ⟨o, ho⟩
          rcases List.mem_flatMap.mp hr with ⟨t, ht, hr⟩
          refine ⟨{ t with acts := o ++ t.acts }, ?_, hr⟩
          rw [deriv_cat, ho]
          exact List.mem_append_right _ (List.mem_map_of_mem ht)
        | cons c' u =>
          rw [List.cons_append, List.cons.injEq] at hw
          rcases hw with ⟨rfl, rfl⟩
          rw [accepts, List.any_eq_true] at hu
          rcases hu with ⟨t, ht, hu⟩
          refine ⟨{ t with rest := cat t.rest f }, ?_, ih.mpr (.inr ⟨u, d, v, rfl, hu, hr⟩)⟩
          rw [deriv_cat]
          exact List.mem_append_left _ (List.mem_map_of_mem ht)

theorem mem_actsAt_cat : x ∈ (cat e f).actsAt w b ↔ x ∈ e.actsAt w b ∨
    ∃ u v, w = u ++ v ∧ e.accepts u = true ∧
      (x ∈ f.actsAt v b ∨ (v = [] ∧ f.deriv b ≠ [] ∧ x ∈ e.exitActs u)) := by
  constructor
  · intro h
    rcases mem_actsAt.mp h with ⟨_, hmem, t, ht, hx⟩
    rcases mem_reach_cat.mp hmem with ⟨r, hr, rfl⟩ | ⟨u, c, v, rfl, hu, hr⟩
    · rw [deriv_cat] at ht
      rcases List.mem_append.mp ht with ht | ht
      · rcases List.mem_map.mp ht with ⟨t', ht', rfl⟩
        exact .inl (mem_actsAt.mpr ⟨r, hr, t', ht', hx⟩)
      · cases ho : r.null with
        | none =>
          rw [ho] at ht
          cases ht
        | some o =>
          rw [ho] at ht
          rcases List.mem_map.mp ht with ⟨t', ht', rfl⟩
          have hw := accepts_iff_reach.mpr ⟨r, hr, Option.isSome_of_eq_some ho⟩
          refine .inr ⟨w, [], (List.append_nil w).symm, hw, ?_⟩
          rcases List.mem_append.mp hx with hx | hx
          · exact .inr ⟨rfl, List.ne_nil_of_mem ht', mem_exitActs.mpr ⟨r, hr, o, ho, hx⟩⟩
          · exact .inl (mem_actsAt.mpr ⟨f, List.mem_singleton_self f, t', ht', hx⟩)
    · exact .inr ⟨u, c :: v, rfl, hu, .inl (mem_actsAt.mpr ⟨_, hr, t, ht, hx⟩)⟩
  · rintro (hx | ⟨u, v, rfl, hu, hx⟩)
    · rcases mem_actsAt.mp hx with ⟨r, hr, t, ht, hx⟩
      refine mem_actsAt.mpr ⟨_, mem_reach_cat.mpr (.inl ⟨r, hr, rfl⟩),
        { t with rest := cat t.rest f }, ?_, hx⟩
      rw [deriv_cat]
      exact List.mem_append_left _ (List.mem_map_of_mem ht)
    -- in front of the first byte of `f` what was pending behind `e` is executed as well
    have hfirst (r : Expr A) (hr : r ∈ e.reach u) (o : List (ℕ × A)) (ho : r.null = some o)
        (t : Transition A) (ht : t ∈ f.deriv b) (hx : x ∈ o ++ t.acts) :
        x ∈ (cat e f).actsAt u b := by
      refine mem_actsAt.mpr ⟨_, mem_reach_cat.mpr (.inl ⟨r, hr, rfl⟩),
        { t with acts := o ++ t.acts }, ?_, hx⟩
      rw [deriv_cat, ho]
      exact List.mem_append_right _ (List.mem_map_of_mem ht)
    rcases hx with hthere | ⟨rfl, hne, hpending⟩
    · rcases mem_actsAt.mp hthere with ⟨r, hr, t, ht, hx⟩
      cases v with
      | nil =>
        rw [List.mem_singleton.mp hr] at ht
        rcases accepts_iff_reach.mp hu with ⟨r', hr', hnull⟩
        rcases Option.isSome_iff_exists.mp hnull with ⟨o, ho⟩
        rw [List.append_nil]
        exact hfirst r' hr' o ho t ht (List.mem_append_right _ hx)
      | cons c v =>
        exact mem_actsAt.mpr ⟨r, mem_reach_cat.mpr (.inr ⟨u, c, v, rfl, hu, hr⟩), t, ht, hx⟩
    · rcases mem_exitActs.mp hpending with ⟨r, hr, o, ho, hx⟩
      rcases List.exists_mem_of_ne_nil _ hne with ⟨t, ht⟩
      rw [List.append_nil]
      exact hfirst r hr o ho t ht (List.mem_append_left _ hx)

theorem mem_exitActs_cat : x ∈ (cat e f).exitActs w ↔
    ∃ u v, w = u ++ v ∧ e.accepts u = true ∧ f.accepts v = true ∧
      (x ∈ f.exitActs v ∨ (v = [] ∧ x ∈ e.exitActs u)) := by
  constructor
  · intro h
    rcases mem_exitActs.mp h with ⟨_, hmem, o, ho, hx⟩
    rcases mem_reach_cat.mp hmem with ⟨r, hr, rfl⟩ | ⟨u, c, v, rfl, hu, hr⟩
    · rw [null_cat, Option.bind_eq_some_iff] at ho
      rcases ho with ⟨o₁, ho₁, ho⟩
      rcases Option.map_eq_some_iff.mp ho with ⟨o₂, ho₂, rfl⟩
      have hw := accepts_iff_reach.mpr ⟨r, hr, Option.isSome_of_eq_some ho₁⟩
      refine ⟨w, [], (List.append_nil w).symm, hw, Option.isSome_of_eq_some ho₂, ?_⟩
      rcases List.mem_append.mp hx with hx | hx
      · exact .inr ⟨rfl, mem_exitActs.mpr ⟨r, hr, o₁, ho₁, hx⟩⟩
      · exact .inl (mem_exitActs.mpr ⟨f, List.mem_singleton_self f, o₂, ho₂, hx⟩)
    · have hmem : x ∈ f.exitActs (c :: v) := mem_exitActs.mpr ⟨_, hr, o, ho, hx⟩
      exact ⟨u, c :: v, rfl, hu, accepts_of_exitActs hmem, .inl hmem⟩
  · rintro ⟨u, v, rfl, hu, hv, hx⟩
    have hempty (r : Expr A) (hr : r ∈ e.reach u) (o : List (ℕ × A)) (ho : r.null = some o)
        (o' : List (ℕ × A)) (ho' : f.null = some o') (hx : x ∈ o ++ o') :
        x ∈ (cat e f).exitActs u := by
      refine mem_exitActs.mpr ⟨_, mem_reach_cat.mpr (.inl ⟨r, hr, rfl⟩), o ++ o', ?_, hx⟩
      rw [null_cat, ho, ho']
      rfl
    rcases hx with hthere | ⟨rfl, hpending⟩
    · rcases mem_exitActs.mp hthere with ⟨r, hr, o, ho, hx⟩
      cases v with
      | nil =>
        rw [List.mem_singleton.mp hr] at ho
        rcases accepts_iff_reach.mp hu with ⟨r', hr', hnull⟩
        rcases Option.isSome_iff_exists.mp hnull with ⟨o', ho'⟩
        rw [List.append_nil]
        exact hempty r' hr' o' ho' o ho (List.mem_append_right _ hx)
      | cons c v =>
        exact mem_exitActs.mpr ⟨r, mem_reach_cat.mpr (.inr ⟨u, c, v, rfl, hu, hr⟩), o, ho, hx⟩
    · rcases mem_exitActs.mp hpending with ⟨r, hr, o, ho, hx⟩
      rcases Option.isSome_iff_exists.mp hv with ⟨o', ho'⟩
      rw [List.append_nil]
      exact hempty r hr o ho o' ho' (List.mem_append_left _ hx)

theorem deriv_seq (e f : Expr A) (b : UInt8) : (seq e f).deriv b = (cat e f).deriv b :=
  (deriv_cat e f b).symm

theorem mem_actsAt_seq : x ∈ (seq e f).actsAt w b ↔ x ∈ e.actsAt w b ∨
    ∃ u v, w = u ++ v ∧ e.accepts u = true ∧
      (x ∈ f.actsAt v b ∨ (v = [] ∧ f.deriv b ≠ [] ∧ x ∈ e.exitActs u)) := by
  rw [← mem_actsAt_cat]
  cases w <;> simp [mem_actsAt, reach, deriv_seq, -deriv]

theorem mem_exitActs_seq : x ∈ (seq e f).exitActs w ↔
    ∃ u v, w = u ++ v ∧ e.accepts u = true ∧ f.accepts v = true ∧
      (x ∈ f.exitActs v ∨ (v = [] ∧ x ∈ e.exitActs u)) := by
  rw [← mem_exitActs_cat]
  cases w with
  | cons c w => simp [mem_exitActs, reach, deriv_seq, -deriv]
  | nil =>
    cases e with
    | eps =>
      simp only [mem_exitActs, reach, List.mem_singleton, exists_eq_left, cat, null]
      cases f.null <;> simp
    | _ => rfl

end Sequence

section Star

/-- The words of a repetition are put together from words of the expression. -/
theorem accepts_star : (star e).accepts w = true ↔
    ∃ ws : List (List UInt8), w = ws.flatten ∧ ∀ u ∈ ws, e.accepts u = true ∧ u ≠ [] := by
  constructor
  · intro h
    induction hn : w.length using Nat.strong_induction_on generalizing w with
    | _ n ih =>
      cases w with
      | nil => exact ⟨[], rfl, nofun⟩
      | cons b w =>
        rw [accepts, deriv, List.any_map, List.any_eq_true] at h
        rcases h with ⟨t, ht, h⟩
        rcases accepts_cat.mp h with ⟨u, v, rfl, hu, hv⟩
        have hshort : v.length < n := by
          rw [← hn, List.length_cons, List.length_append]
          omega
        rcases ih _ hshort hv rfl with ⟨ws, rfl, hws⟩
        refine ⟨(b :: u) :: ws, rfl, List.forall_mem_cons.mpr ⟨⟨?_, List.cons_ne_nil _ _⟩, hws⟩⟩
        rw [accepts, List.any_eq_true]
        exact ⟨t, ht, hu⟩
  · rintro ⟨ws, rfl, hws⟩
    induction ws with
    | nil => rfl
    | cons u ws ih =>
      rw [List.forall_mem_cons] at hws
      rcases hws with ⟨⟨hu, hne⟩, hws⟩
      cases u with
      | nil => exact absurd rfl hne
      | cons b u =>
        rw [accepts, List.any_eq_true] at hu
        rcases hu with ⟨t, ht, hu⟩
        rw [List.flatten_cons, List.cons_append, accepts, deriv, List.any_map, List.any_eq_true]
        exact ⟨t, ht, accepts_cat.mpr ⟨u, _, rfl, hu, ih hws⟩⟩

end Star

end Expr

section Order

variable {A : Type} [DecidableEq A]

/-- Repetitions that stand next to each other in a sorted list do not matter. -/
theorem eraseDups_of_sorted {l as : List (ℕ × A)} (hl : l.Pairwise fun x y => x.1 ≤ y.1)
    (has : as.Pairwise fun x y => x.1 < y.1) (h : ∀ x, x ∈ l ↔ x ∈ as) :
    (l.map Prod.snd).eraseDups = (as.map Prod.snd).eraseDups := by
  induction hn : as.length using Nat.strong_induction_on generalizing l as with
  | _ n ih =>
    cases as with
    | nil =>
      rw [List.eq_nil_iff_forall_not_mem.mpr fun x hx => List.not_mem_nil ((h x).mp hx)]
    | cons a as =>
      rcases List.exists_cons_of_ne_nil
        (List.ne_nil_of_mem ((h a).mpr List.mem_cons_self)) with ⟨c, l, rfl⟩
      rw [List.pairwise_cons] at hl has
      have hca : c = a := by
        rcases List.mem_cons.mp ((h c).mp List.mem_cons_self) with hc | hc
        · exact hc
        · rcases List.mem_cons.mp ((h a).mpr List.mem_cons_self) with ha | ha
          · exact ha.symm
          · exact absurd (hl.1 a ha) (Nat.not_le.mpr (has.1 c hc))
      subst hca
      have hmap (l : List (ℕ × A)) : (l.map Prod.snd).filter (fun y => !y == c.2) =
          (l.filter fun y => !y.2 == c.2).map Prod.snd := by
        rw [List.filter_map]
        rfl
      rw [List.map_cons, List.map_cons, List.eraseDups_cons, List.eraseDups_cons, hmap, hmap]
      congr 1
      refine ih _ ?_ (hl.2.filter _) (has.2.filter _) ?_ rfl
      · rw [← hn, List.length_cons]
        exact Nat.lt_succ_of_le (List.length_filter_le _ _)
      · intro x
        rw [List.mem_filter, List.mem_filter, and_congr_left_iff]
        intro hx
        have hne : x ≠ c := by
          rintro rfl
          simp at hx
        have hiff := h x
        rw [List.mem_cons, List.mem_cons] at hiff
        simpa [hne] using hiff

/-- The actions of a transition are those that it has, in their order. -/
theorem actionsOf_eq {ts : List (Transition A)} {as : List (ℕ × A)}
    (h : ∀ x, (∃ t ∈ ts, x ∈ t.acts) ↔ x ∈ as) (hsorted : as.Pairwise fun x y => x.1 < y.1) :
    actionsOf ts = (as.map Prod.snd).eraseDups := by
  have hle : Std.Total fun x y : ℕ × A => x.1 ≤ y.1 := ⟨fun x y => le_total x.1 y.1⟩
  have htrans : IsTrans (ℕ × A) fun x y => x.1 ≤ y.1 := ⟨fun _ _ _ => le_trans⟩
  rw [actionsOf]
  apply eraseDups_of_sorted (List.pairwise_insertionSort _ _) hsorted
  intro x
  rw [List.mem_insertionSort, List.mem_flatMap, h x]

end Order

section Within

open Sylar.Ragel.Expr

variable {A : Type} [DecidableEq A] {C : Expr A → Expr A} {e : Expr A} {w : List UInt8}
  {s : State A} {b : UInt8} {as : List (ℕ × A)}

/-- From wherever the machine can be behind `w`, it reads `u` and executes the actions `l`. -/
def Passes (C : Expr A → Expr A) (e : Expr A) (w : List UInt8) (p : ℕ) (u : List UInt8)
    (l : List (A × ℕ)) : Prop :=
  ∀ s, Within C e w s → ∃ s', Within C e (w ++ u) s' ∧ Sweeps s p u l s'

section Passes

variable {u v : List UInt8} {p : ℕ} {l m : List (A × ℕ)}

theorem passes_nil (C : Expr A → Expr A) (e : Expr A) (w : List UInt8) (p : ℕ) :
    Passes C e w p [] [] := by
  intro s hs
  rw [List.append_nil]
  exact ⟨s, hs, sweeps_nil s p⟩

theorem Passes.append (h : Passes C e w p u l)
    (h' : Passes C e (w ++ u) (p + u.length) v m) : Passes C e w p (u ++ v) (l ++ m) := by
  intro s hs
  rcases h s hs with ⟨s₁, hs₁, hsweep⟩
  rcases h' s₁ hs₁ with ⟨s₂, hs₂, hsweep'⟩
  rw [List.append_assoc] at hs₂
  exact ⟨s₂, hs₂, hsweep.append hsweep'⟩

theorem passes_byte (hC : Frame C) (he : e.calm = true) (hb : (C eps).deriv b = [])
    (hne : e.reach (w ++ [b]) ≠ []) (hacts : ∀ x, x ∈ e.actsAt w b ↔ x ∈ as)
    (hsorted : as.Pairwise fun x y => x.1 < y.1) (p : ℕ) :
    Passes C e w p [b] ((as.map Prod.snd).eraseDups.map fun a => (a, p)) := by
  intro s hs
  rcases hs.step hC he hb hne with ⟨s', ts, hstep, hs', hts⟩
  rw [actionsOf_eq (fun x => (hts x).trans (hacts x)) hsorted] at hstep
  exact ⟨s', hs', sweeps_byte hstep⟩

/-- A word at none of whose bytes the expression has an action. -/
theorem passes_silent (hC : Frame C) (he : e.calm = true) (hu : ∀ b ∈ u, (C eps).deriv b = [])
    (hne : e.reach (w ++ u) ≠ [])
    (hacts : ∀ u₁ b u₂, u = u₁ ++ b :: u₂ → e.actsAt (w ++ u₁) b = []) (p : ℕ) :
    Passes C e w p u [] := by
  induction u generalizing w p with
  | nil => exact passes_nil C e w p
  | cons b u ih =>
    rw [List.forall_mem_cons] at hu
    rw [List.append_cons] at hne
    have hnext : e.reach (w ++ [b]) ≠ [] := by
      intro hnil
      rw [reach_append, hnil] at hne
      exact hne rfl
    have hhere : ∀ x, x ∈ e.actsAt w b ↔ x ∈ [] := by
      intro x
      rw [← List.append_nil w, hacts [] b u rfl]
    have hlater (u₁ : List UInt8) (c : UInt8) (u₂ : List UInt8) (heq : u = u₁ ++ c :: u₂) :
        e.actsAt (w ++ [b] ++ u₁) c = [] := by
      rw [← List.append_cons]
      exact hacts (b :: u₁) c u₂ (by rw [heq]; rfl)
    exact (passes_byte hC he hu.1 hnext hhere .nil p).append (ih hu.2 hne hlater (p + 1))

end Passes

/-- A byte that only leaves the frame. -/
theorem Within.exit_acts (hC : Frame C) (h : Within C e w s) (haccepts : e.accepts w = true)
    (havoids : e.avoids b = true) {r : Expr A} {out : List (ℕ × A)} (hne : (C eps).deriv b ≠ [])
    (hout : ∀ t ∈ (C eps).deriv b, t.rest = r ∧ t.acts = out ∧ t.low = [])
    (hacts : ∀ x, x ∈ e.exitActs w ∨ x ∈ out ↔ x ∈ as)
    (hsorted : as.Pairwise fun x y => x.1 < y.1) :
    Ragel.step s b = some ([r], (as.map Prod.snd).eraseDups) := by
  rcases h.exit hC haccepts havoids hne hout with ⟨ts, hstep, hts⟩
  rw [actionsOf_eq (fun x => (hts x).trans (hacts x)) hsorted] at hstep
  exact hstep

section Plain

variable {s₁ s' : State A}

theorem eraseDups_of_nodup {l : List A} (h : l.Nodup) : l.eraseDups = l := by
  induction l with
  | nil => rfl
  | cons x l ih =>
    rw [List.nodup_cons] at h
    have hrest : l.filter (fun y => !y == x) = l := by
      rw [List.filter_eq_self]
      intro y hy
      have hne : y ≠ x := fun hyx => h.1 (hyx ▸ hy)
      simpa using hne
    rw [List.eraseDups_cons, hrest, ih h.2]

/-- Leaving an expression without actions is leaving an empty one. -/
theorem Within.leave_plain (hC : Frame C) (he : e.plain = true) (h : Within C e w s)
    (haccepts : e.accepts w = true) (havoids : e.avoids b = true) {as : List A}
    (hout : wayOut C b = some (s', as)) : Ragel.step s b = some (s', as) := by
  rcases wayOut_eq_some hout with ⟨t, ht, hlow, hsorted, hnodup, rfl, rfl⟩
  have hone : ∀ t' ∈ (C eps).deriv b, t'.rest = t.rest ∧ t'.acts = t.acts ∧ t'.low = [] := by
    rw [ht]
    exact List.forall_mem_singleton.mpr ⟨rfl, rfl, hlow⟩
  have hacts (x : ℕ × A) : x ∈ e.exitActs w ∨ x ∈ t.acts ↔ x ∈ t.acts := by
    rw [exitActs_of_plain he]
    simp
  rw [h.exit_acts hC haccepts havoids (by simp [ht]) hone hacts hsorted, eraseDups_of_nodup hnodup]

/-- A word of an expression without actions, from the byte before which it starts to the byte behind
it. -/
theorem Within.sweep_through (hC : Frame C) (he : e.plain = true) {u outs : List UInt8} {c : UInt8}
    {as as' : List A} {breaks : A → Bool} (hstep : Ragel.step s b = some (s₁, as))
    (h : Within C e w s₁) (hin : ∀ b, b ∉ outs → (C eps).deriv b = [])
    (havoids : ∀ c ∈ outs, e.avoids c = true) (haccepts : e.accepts (w ++ u) = true)
    (hc : c ∈ outs) (hout : wayOut C c = some (s', as'))
    (has : as.any breaks = false) (has' : as'.any breaks = false) :
    Ragel.sweep breaks s 0 (b :: u ++ [c]) =
      ((as.map fun a => (a, 0)) ++ as'.map fun a => (a, (b :: u).length),
        ⟨some s', (b :: u ++ [c]).length, false⟩) := by
  have hu (b : UInt8) (hb : b ∈ u) : (C eps).deriv b = [] := by
    apply hin
    intro hbout
    exact not_mem_of_accepts (havoids b hbout) haccepts (List.mem_append_right w hb)
  have hbreaks : ∀ x ∈ e.embedded, breaks x.2 = false := by
    rw [embedded_of_plain he]
    nofun
  rcases h.sweep hC (calm_of_plain he) hbreaks hu haccepts 1 with ⟨s₂, l, h₂, hl, hsweep⟩
  have hnil : l = [] := by
    rw [List.eq_nil_iff_forall_not_mem]
    intro x hx
    rcases hl x hx with ⟨n, hn⟩
    rw [embedded_of_plain he] at hn
    cases hn
  rw [List.cons_append, sweep_calm hstep has, hsweep, hnil,
    sweep_calm (h₂.leave_plain hC he haccepts (havoids c hc) hout) has']
  simp [sweep_nil, Nat.add_comm]

/-- The first byte of a word: `x` stands in the frame for the whole word `r`, in front of which the
actions `as` are executed. -/
theorem Within.entry (hC : Frame C) {D : Expr A → Expr A} {x r : Expr A} (as : List (ℕ × A))
    (hr : r.plain = true) (hne : r.deriv b ≠ []) (hb : (C eps).deriv b = [])
    (hx : x.deriv b = (r.deriv b).map fun t => { t with rest := D t.rest, acts := as ++ t.acts })
    (hsorted : as.Pairwise fun x y => x.1 < y.1) (hnodup : (as.map Prod.snd).Nodup) :
    ∃ s', Ragel.step [C x] b = some (s', as.map Prod.snd) ∧
      Within (fun r => C (D r)) r [b] s' := by
  have hmoves : [C x].flatMap (deriv b) = (r.deriv b).map fun t =>
      { t with rest := C (D t.rest), acts := as ++ t.acts } := by
    rw [List.flatMap_cons, List.flatMap_nil, List.append_nil, hC.deriv b x, hx, hb, List.map_map]
    cases x.null <;> simp [Function.comp_def]
  have hcalm (t : Transition A) (ht : t ∈ r.deriv b) : t.acts = [] ∧ t.low = [] := by
    have hmove := moves_of_mem_deriv ht
    have hsub := hmove.embedded.1
    rw [embedded_of_plain hr] at hsub
    exact ⟨List.subset_nil.mp hsub, (hmove.calm (calm_of_plain hr)).1⟩
  have hacts (y : ℕ × A) : (∃ t ∈ (r.deriv b).map fun t =>
      { t with rest := C (D t.rest), acts := as ++ t.acts }, y ∈ t.acts) ↔ y ∈ as := by
    rcases List.exists_mem_of_ne_nil _ hne with ⟨t₀, ht₀⟩
    constructor
    · rintro ⟨_, ht, hy⟩
      rcases List.mem_map.mp ht with ⟨t, ht', rfl⟩
      simpa [(hcalm t ht').1] using hy
    · intro hy
      exact ⟨_, List.mem_map_of_mem ht₀, List.mem_append_left _ hy⟩
  have hstep := step_of_low hmoves (by simpa using hne) (by
    intro t ht
    rcases List.mem_map.mp ht with ⟨t', ht', rfl⟩
    exact (hcalm t' ht').2)
  rw [actionsOf_eq hacts hsorted, eraseDups_of_nodup hnodup] at hstep
  refine ⟨_, hstep, ?_⟩
  intro y
  simp [reach_singleton]

end Plain

/-- What is executed at the end of the input. -/
theorem Within.eofActions_eq (hC : Frame C) (h : Within C e w s) {o : List (ℕ × A)}
    (hnull : (C eps).null = some o)
    (hacts : ∀ x, x ∈ e.exitActs w ∨ (e.accepts w = true ∧ x ∈ o) ↔ x ∈ as)
    (hsorted : as.Pairwise fun x y => x.1 < y.1) : eofActions s = (as.map Prod.snd).eraseDups := by
  rw [eofActions]
  apply actionsOf_eq _ hsorted
  intro x
  have hpending (r : Expr A) : (C r).null = r.null.map (· ++ o) := by
    rw [hC.null r, hnull]
    cases r.null <;> rfl
  rw [← hacts x, mem_exitActs, accepts_iff_reach]
  simp only [List.mem_map, List.mem_filterMap, h _]
  constructor
  · rintro ⟨_, ⟨o', ⟨_, ⟨r, hr, rfl⟩, ho'⟩, rfl⟩, hx⟩
    rw [hpending, Option.map_eq_some_iff] at ho'
    rcases ho' with ⟨o₁, ho₁, rfl⟩
    rcases List.mem_append.mp hx with hx | hx
    · exact .inl ⟨r, hr, o₁, ho₁, hx⟩
    · exact .inr ⟨⟨r, hr, Option.isSome_of_eq_some ho₁⟩, hx⟩
  · have hthere (r : Expr A) (hr : r ∈ e.reach w) (o₁ : List (ℕ × A)) (ho₁ : r.null = some o₁)
        (hx : x ∈ o₁ ++ o) : ∃ t, (∃ o', (∃ y, (∃ r ∈ e.reach w, C r = y) ∧ y.null = some o') ∧
          (⟨.eps, o', [], []⟩ : Transition A) = t) ∧ x ∈ t.acts := by
      refine ⟨_, ⟨o₁ ++ o, ⟨C r, ⟨r, hr, rfl⟩, ?_⟩, rfl⟩, hx⟩
      rw [hpending, ho₁]
      rfl
    rintro (⟨r, hr, o₁, ho₁, hx⟩ | ⟨⟨r, hr, hsome⟩, hx⟩)
    · exact hthere r hr o₁ ho₁ (List.mem_append_left _ hx)
    · rcases Option.isSome_iff_exists.mp hsome with ⟨o₁, ho₁⟩
      exact hthere r hr o₁ ho₁ (List.mem_append_right _ hx)

omit [DecidableEq A] in
theorem Within.final_eq (hC : Frame C) (h : Within C e w s) (hnull : (C eps).null.isSome = true)
    (haccepts : e.accepts w = true) : final s = true := by
  rcases accepts_iff_reach.mp haccepts with ⟨r, hr, hsome⟩
  rw [final, List.any_eq_true]
  refine ⟨C r, (h _).mpr ⟨r, hr, rfl⟩, ?_⟩
  rw [hC.null r]
  cases hr : r.null <;> cases hc : (C eps).null <;> simp_all

end Within

end Sylar.Ragel
