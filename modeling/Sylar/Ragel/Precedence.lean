import Sylar.Ragel.Actions

/-! # One action before another

A syntactic criterion for an action `c` never to be executed unless `a` has been
executed before. Where an expression is passed without consuming anything its leaving
actions fall on the same byte as those of what follows, so the numbers of the actions
have to be compared as well.
-/
namespace Sylar.Ragel

namespace Expr

variable {A : Type} [DecidableEq A] (a c : A)

/-- Nobody gets past the expression without executing `a` under a number below `k`. -/
@[simp] def forced (k : ℕ) : Expr A → Bool
  | eps => false
  | cls _ => false
  | seq e f => forced k e || forced k f
  | alt e f => forced k e && forced k f
  | star _ => false
  | enter _ _ e => forced k e
  | leave n x e => (x = a && n < k) || forced k e
  | finish _ _ e => forced k e
  | yields _ e => forced k e
  | guardEntry _ e => forced k e
  | guardFinish _ e => forced k e

/-- Every `c` is preceded by an `a`. -/
@[simp] def preceded : Expr A → Bool
  | eps => true
  | cls _ => true
  | seq e f => preceded e && (preceded f || f.embedded.all fun x => x.2 ≠ c || forced a x.1 e)
  | alt e f => preceded e && preceded f
  | star e => preceded e
  | enter _ x e => x ≠ c && preceded e
  | leave _ x e => x ≠ c && preceded e
  | finish _ x e => x ≠ c && preceded e
  | yields _ e => preceded e
  | guardEntry _ e => preceded e
  | guardFinish _ e => preceded e

variable {a c} {b : UInt8} {e f : Expr A} {t : Transition A} {k : ℕ}

theorem forced_cat : forced a k (cat e f) = (forced a k e || forced a k f) := by
  cases e <;> rfl

theorem preceded_of_not_mem (h : ∀ x ∈ e.embedded, x.2 ≠ c) : preceded a c e = true := by
  induction e with
  | eps => rfl
  | cls _ => rfl
  | seq e f ihe ihf =>
    rw [embedded, List.forall_mem_append] at h
    rw [preceded, ihe h.1, ihf h.2]
    rfl
  | alt e f ihe ihf =>
    rw [embedded, List.forall_mem_append] at h
    rw [preceded, ihe h.1, ihf h.2]
    rfl
  | star e ih => exact ih h
  | enter n x e ih =>
    rw [embedded, List.forall_mem_cons] at h
    rw [preceded, ih h.2, decide_eq_true h.1]
    rfl
  | leave n x e ih =>
    rw [embedded, List.forall_mem_cons] at h
    rw [preceded, ih h.2, decide_eq_true h.1]
    rfl
  | finish n x e ih =>
    rw [embedded, List.forall_mem_cons] at h
    rw [preceded, ih h.2, decide_eq_true h.1]
    rfl
  | yields key e ih => exact ih h
  | guardEntry key e ih => exact ih h
  | guardFinish key e ih => exact ih h

/-- What `forced` says when nothing is consumed. -/
theorem mem_null_of_forced {o : List (ℕ × A)} (h : forced a k e = true) (ho : null e = some o) :
    ∃ n < k, (n, a) ∈ o := by
  induction e generalizing o with
  | eps => simp [forced] at h
  | cls _ => simp [forced] at h
  | seq e f ihe ihf =>
    obtain ⟨o₁, o₂, h₁, h₂, rfl⟩ := null_seq ho
    rw [forced, Bool.or_eq_true] at h
    rcases h with h | h
    · obtain ⟨n, hn, hm⟩ := ihe h h₁
      exact ⟨n, hn, List.mem_append_left _ hm⟩
    · obtain ⟨n, hn, hm⟩ := ihf h h₂
      exact ⟨n, hn, List.mem_append_right _ hm⟩
  | alt e f ihe ihf =>
    rw [forced, Bool.and_eq_true] at h
    rcases null_alt ho with ⟨o₁, o₂, h₁, -, rfl⟩ | ⟨h₁, -⟩ | ⟨-, h₂⟩
    · obtain ⟨n, hn, hm⟩ := ihe h.1 h₁
      exact ⟨n, hn, List.mem_append_left _ hm⟩
    · exact ihe h.1 h₁
    · exact ihf h.2 h₂
  | star e ih => simp [forced] at h
  | enter n x e ih =>
    obtain ⟨o', h', rfl⟩ := null_enter ho
    obtain ⟨m, hm, hmem⟩ := ih h h'
    exact ⟨m, hm, List.mem_cons_of_mem _ hmem⟩
  | leave n x e ih =>
    obtain ⟨o', h', rfl⟩ := null_leave ho
    rw [forced, Bool.or_eq_true, Bool.and_eq_true, decide_eq_true_eq, decide_eq_true_eq] at h
    rcases h with ⟨rfl, hn⟩ | h
    · exact ⟨n, hn, List.mem_append_right _ List.mem_cons_self⟩
    · obtain ⟨m, hm, hmem⟩ := ih h h'
      exact ⟨m, hm, List.mem_append_left _ hmem⟩
  | finish n x e ih => exact ih h ho
  | yields key e ih => exact ih h ho
  | guardEntry key e ih => exact ih h ho
  | guardFinish key e ih => exact ih h ho

/-- A transition executes what is forced, or leaves it to be executed later. -/
theorem Moves.forced (h : Moves b e t) (hf : forced a k e = true) :
    (∃ n < k, (n, a) ∈ t.acts) ∨ t.rest.forced a k = true := by
  induction h with
  | cls h => simp [Expr.forced] at hf
  | left h ih =>
    rw [Expr.forced, Bool.or_eq_true] at hf
    rw [forced_cat, Bool.or_eq_true]
    rcases hf with hf | hf
    · exact (ih hf).imp_right .inl
    · exact .inr (.inr hf)
  | right ho h ih =>
    rw [Expr.forced, Bool.or_eq_true] at hf
    rcases hf with hf | hf
    · obtain ⟨n, hn, hm⟩ := mem_null_of_forced hf ho
      exact .inl ⟨n, hn, List.mem_append_left _ hm⟩
    · exact (ih hf).imp_left fun ⟨n, hn, hm⟩ => ⟨n, hn, List.mem_append_right _ hm⟩
  | altLeft h ih =>
    rw [Expr.forced, Bool.and_eq_true] at hf
    exact ih hf.1
  | altRight h ih =>
    rw [Expr.forced, Bool.and_eq_true] at hf
    exact ih hf.2
  | star h ih => simp [Expr.forced] at hf
  | enter h ih => exact (ih hf).imp_left fun ⟨n, hn, hm⟩ => ⟨n, hn, List.mem_cons_of_mem _ hm⟩
  | leave h ih =>
    rw [Expr.forced, Bool.or_eq_true] at hf
    rw [Expr.forced, Bool.or_eq_true]
    rcases hf with hf | hf
    · exact .inr (.inl hf)
    · exact (ih hf).imp_right .inr
  | finish h ih =>
    refine (ih hf).imp_left fun ⟨n, hn, hm⟩ => ⟨n, hn, ?_⟩
    dsimp only
    split_ifs
    · exact List.mem_append_left _ hm
    · exact hm
  | yields h ih => exact ih hf
  | guardEntry h ih => exact ih hf
  | guardFinish h ih => exact ih hf

theorem mem_null_of_preceded {o : List (ℕ × A)} (h : preceded a c e = true)
    (ho : null e = some o) {n : ℕ} (hc : (n, c) ∈ o) : ∃ m < n, (m, a) ∈ o := by
  induction e generalizing o with
  | eps =>
    rw [null, Option.some.injEq] at ho
    rw [← ho] at hc
    simp at hc
  | cls _ => simp [null] at ho
  | seq e f ihe ihf =>
    obtain ⟨o₁, o₂, h₁, h₂, rfl⟩ := null_seq ho
    rw [preceded, Bool.and_eq_true, Bool.or_eq_true] at h
    rcases List.mem_append.mp hc with hc | hc
    · obtain ⟨m, hm, hmem⟩ := ihe h.1 h₁ hc
      exact ⟨m, hm, List.mem_append_left _ hmem⟩
    · rcases h.2 with hf | hf
      · obtain ⟨m, hm, hmem⟩ := ihf hf h₂ hc
        exact ⟨m, hm, List.mem_append_right _ hmem⟩
      · have := List.all_eq_true.mp hf _ (mem_null h₂ hc)
        obtain ⟨m, hm, hmem⟩ := mem_null_of_forced (by simpa using this) h₁
        exact ⟨m, hm, List.mem_append_left _ hmem⟩
  | alt e f ihe ihf =>
    rw [preceded, Bool.and_eq_true] at h
    rcases null_alt ho with ⟨o₁, o₂, h₁, h₂, rfl⟩ | ⟨h₁, -⟩ | ⟨-, h₂⟩
    · rcases List.mem_append.mp hc with hc | hc
      · obtain ⟨m, hm, hmem⟩ := ihe h.1 h₁ hc
        exact ⟨m, hm, List.mem_append_left _ hmem⟩
      · obtain ⟨m, hm, hmem⟩ := ihf h.2 h₂ hc
        exact ⟨m, hm, List.mem_append_right _ hmem⟩
    · exact ihe h.1 h₁ hc
    · exact ihf h.2 h₂ hc
  | star e ih =>
    rw [null, Option.some.injEq] at ho
    cases he : null e with
    | none =>
      rw [he] at ho
      rw [← ho] at hc
      simp at hc
    | some o' =>
      rw [he] at ho
      exact ih h (by rw [he, ← ho]; rfl) hc
  | enter n x e ih =>
    rw [preceded, Bool.and_eq_true, decide_eq_true_eq] at h
    obtain ⟨o', h', rfl⟩ := null_enter ho
    rcases List.mem_cons.mp hc with hc | hc
    · rw [Prod.mk.injEq] at hc
      exact absurd hc.2.symm h.1
    · obtain ⟨m, hm, hmem⟩ := ih h.2 h' hc
      exact ⟨m, hm, List.mem_cons_of_mem _ hmem⟩
  | leave n x e ih =>
    rw [preceded, Bool.and_eq_true, decide_eq_true_eq] at h
    obtain ⟨o', h', rfl⟩ := null_leave ho
    rcases List.mem_append.mp hc with hc | hc
    · obtain ⟨m, hm, hmem⟩ := ih h.2 h' hc
      exact ⟨m, hm, List.mem_append_left _ hmem⟩
    · rw [List.mem_singleton, Prod.mk.injEq] at hc
      exact absurd hc.2.symm h.1
  | finish n x e ih =>
    rw [preceded, Bool.and_eq_true] at h
    exact ih h.2 ho hc
  | yields key e ih => exact ih h ho hc
  | guardEntry key e ih => exact ih h ho hc
  | guardFinish key e ih => exact ih h ho hc

theorem preceded_cat (he : preceded a c e = true) (hf : preceded a c f = true) :
    preceded a c (cat e f) = true := by
  cases e <;> simp_all [cat, preceded]

/-- On the way through an expression every `c` comes after an `a`: on each byte, and over the
bytes that follow. -/
theorem Moves.preceded (h : Moves b e t) (hp : preceded a c e = true) :
    (∀ n, (n, c) ∈ t.acts → ∃ m < n, (m, a) ∈ t.acts) ∧
      ((∃ m, (m, a) ∈ t.acts) ∨ t.rest.preceded a c = true) := by
  induction h with
  | cls h => exact ⟨fun n hn => by simp at hn, .inr rfl⟩
  | @left e f t h ih =>
    rw [Expr.preceded, Bool.and_eq_true, Bool.or_eq_true] at hp
    refine ⟨(ih hp.1).1, ?_⟩
    rcases (ih hp.1).2 with hdone | hrest
    · exact .inl hdone
    · rcases hp.2 with hf | hf
      · exact .inr (preceded_cat hrest hf)
      · by_cases hdone : ∃ m, (m, a) ∈ t.acts
        · exact .inl hdone
        · right
          -- what `f` relies on is still to come
          have hall : ∀ x ∈ f.embedded, x.2 ≠ c ∨ t.rest.forced a x.1 = true := by
            intro x hx
            have hx := List.all_eq_true.mp hf x hx
            rw [Bool.or_eq_true, decide_eq_true_eq] at hx
            refine hx.imp_right fun hforced => ?_
            exact (h.forced hforced).resolve_left fun ⟨n, _, hn⟩ => hdone ⟨n, hn⟩
          have hseq : (t.rest.seq f).preceded a c = true := by
            rw [Expr.preceded, hrest, Bool.true_and, Bool.or_eq_true]
            refine .inr (List.all_eq_true.mpr fun x hx => ?_)
            rw [Bool.or_eq_true, decide_eq_true_eq]
            exact hall x hx
          by_cases hr : t.rest = eps
          · dsimp only
            rw [hr]
            refine preceded_of_not_mem fun x hx => (hall x hx).resolve_right ?_
            rw [hr]
            simp [Expr.forced]
          · dsimp only
            rw [cat_of_ne hr]
            exact hseq
  | @right e f o t ho h ih =>
    rw [Expr.preceded, Bool.and_eq_true, Bool.or_eq_true] at hp
    have hfirst : ∀ n, (n, c) ∈ o → ∃ m < n, (m, a) ∈ o ++ t.acts := by
      intro n hn
      obtain ⟨m, hm, hmem⟩ := mem_null_of_preceded hp.1 ho hn
      exact ⟨m, hm, List.mem_append_left _ hmem⟩
    rcases hp.2 with hf | hf
    · refine ⟨fun n hn => ?_, ?_⟩
      · rcases List.mem_append.mp hn with hn | hn
        · exact hfirst n hn
        · obtain ⟨m, hm, hmem⟩ := (ih hf).1 n hn
          exact ⟨m, hm, List.mem_append_right _ hmem⟩
      · exact (ih hf).2.imp_left fun ⟨m, hm⟩ => ⟨m, List.mem_append_right _ hm⟩
    · have hpast : ∀ n, (n, c) ∈ f.embedded → ∃ m < n, (m, a) ∈ o ++ t.acts := by
        intro n hn
        have := List.all_eq_true.mp hf _ hn
        obtain ⟨m, hm, hmem⟩ := mem_null_of_forced (by simpa using this) ho
        exact ⟨m, hm, List.mem_append_left _ hmem⟩
      refine ⟨fun n hn => ?_, ?_⟩
      · rcases List.mem_append.mp hn with hn | hn
        · exact hfirst n hn
        · exact hpast n (h.embedded.1 hn)
      · by_cases hc : ∃ n, (n, c) ∈ f.embedded
        · obtain ⟨n, hn⟩ := hc
          obtain ⟨m, -, hmem⟩ := hpast n hn
          exact .inl ⟨m, hmem⟩
        · refine .inr (preceded_of_not_mem fun x hx hxc => hc ⟨x.1, ?_⟩)
          rw [← hxc]
          exact h.embedded.2 hx
  | altLeft h ih =>
    rw [Expr.preceded, Bool.and_eq_true] at hp
    exact ih hp.1
  | altRight h ih =>
    rw [Expr.preceded, Bool.and_eq_true] at hp
    exact ih hp.2
  | star h ih => exact ⟨(ih hp).1, (ih hp).2.imp_right fun hrest => preceded_cat hrest hp⟩
  | @enter n x e t h ih =>
    rw [Expr.preceded, Bool.and_eq_true, decide_eq_true_eq] at hp
    obtain ⟨hacts, hrest⟩ := ih hp.2
    refine ⟨fun m hm => ?_, hrest.imp_left fun ⟨m, hm⟩ => ⟨m, List.mem_cons_of_mem _ hm⟩⟩
    rcases List.mem_cons.mp hm with hm | hm
    · rw [Prod.mk.injEq] at hm
      exact absurd hm.2.symm hp.1
    · obtain ⟨k, hk, hmem⟩ := hacts m hm
      exact ⟨k, hk, List.mem_cons_of_mem _ hmem⟩
  | leave h ih =>
    rw [Expr.preceded, Bool.and_eq_true] at hp
    refine ⟨(ih hp.2).1, (ih hp.2).2.imp_right fun hrest => ?_⟩
    rw [Expr.preceded, hp.1, hrest]
    rfl
  | @finish n x e t h ih =>
    rw [Expr.preceded, Bool.and_eq_true, decide_eq_true_eq] at hp
    obtain ⟨hacts, hrest⟩ := ih hp.2
    have hrest' : t.rest.preceded a c = true → (Expr.finish n x t.rest).preceded a c = true := by
      intro h
      rw [Expr.preceded, h, decide_eq_true hp.1]
      rfl
    dsimp only
    split_ifs
    · refine ⟨fun m hm => ?_, ?_⟩
      · rcases List.mem_append.mp hm with hm | hm
        · obtain ⟨k, hk, hmem⟩ := hacts m hm
          exact ⟨k, hk, List.mem_append_left _ hmem⟩
        · rw [List.mem_singleton, Prod.mk.injEq] at hm
          exact absurd hm.2.symm hp.1
      · exact hrest.imp (fun ⟨m, hm⟩ => ⟨m, List.mem_append_left _ hm⟩) hrest'
    · exact ⟨hacts, hrest.imp_right hrest'⟩
  | yields h ih => exact ih hp
  | guardEntry h ih => exact ih hp
  | guardFinish h ih => exact ih hp

end Expr

section Machine

variable {A : Type} [DecidableEq A] {a c : A} {s s' : State A} {b : UInt8} {as : List A}

/-- In a list of numbered actions in order, what has a smaller number than every `c` comes
before the first `c`. -/
theorem mem_before_of_sorted {l : List (ℕ × A)} (hl : l.Pairwise fun x y => x.1 ≤ y.1)
    (h : ∀ n, (n, c) ∈ l → ∃ m < n, (m, a) ∈ l) {before after : List A}
    (hsplit : (l.map Prod.snd).eraseDups = before ++ c :: after) : a ∈ before := by
  have hc : c ∈ l.map Prod.snd := by
    rw [← List.mem_eraseDups, hsplit]
    simp
  obtain ⟨l₁, ⟨n, x⟩, l₂, hl', rfl, hfirst⟩ : ∃ l₁ x l₂, l = l₁ ++ x :: l₂ ∧ c = x.2 ∧
      c ∉ l₁.map Prod.snd := by
    clear hl h hsplit
    induction l with
    | nil => simp at hc
    | cons x l ih =>
      by_cases hx : c = x.2
      · exact ⟨[], x, l, rfl, hx, by simp⟩
      · rw [List.map_cons, List.mem_cons] at hc
        obtain ⟨l₁, y, l₂, hl, hy, hfirst⟩ := ih (hc.resolve_left hx)
        refine ⟨x :: l₁, y, l₂, by rw [hl, List.cons_append], hy, ?_⟩
        rw [List.map_cons, List.mem_cons]
        rintro (h | h)
        · exact hx h
        · exact hfirst h
  subst hl'
  obtain ⟨m, hm, hmem⟩ := h n (by simp)
  have hbefore : (m, a) ∈ l₁ := by
    rcases List.mem_append.mp hmem with hmem | hmem
    · exact hmem
    · rw [List.pairwise_append, List.pairwise_cons] at hl
      rcases List.mem_cons.mp hmem with heq | hmem
      · rw [Prod.mk.injEq] at heq
        omega
      · have := hl.2.1.1 _ hmem
        dsimp only at this
        omega
  have hnew : (l₁.map Prod.snd).contains c = false := by simpa using hfirst
  rw [List.map_append, List.eraseDups_append, List.map_cons, List.cons_removeAll, if_pos hnew,
    List.eraseDups_cons] at hsplit
  have ha : a ∈ (l₁.map Prod.snd).eraseDups :=
    List.mem_eraseDups.mpr (List.mem_map_of_mem (f := Prod.snd) hbefore)
  rcases List.append_eq_append_iff.mp hsplit with ⟨l, rfl, -⟩ | ⟨l, hl₁, hl₂⟩
  · exact List.mem_append_left _ ha
  · cases l with
    | nil =>
      rw [List.append_nil] at hl₁
      rw [← hl₁]
      exact ha
    | cons y l =>
      rw [List.cons_append, List.cons.injEq] at hl₂
      refine absurd ?_ hfirst
      rw [← List.mem_eraseDups, hl₁, hl₂.1]
      simp

omit [DecidableEq A] in
theorem sorted_by_number (l : List (ℕ × A)) :
    (l.insertionSort fun x y => x.1 ≤ y.1).Pairwise fun x y => x.1 ≤ y.1 := by
  have : Std.Total fun x y : ℕ × A => x.1 ≤ y.1 := ⟨fun x y => Nat.le_total _ _⟩
  have : IsTrans (ℕ × A) fun x y => x.1 ≤ y.1 := ⟨fun x y z => Nat.le_trans⟩
  exact List.pairwise_insertionSort _ l

theorem step_preceded (h : ∀ e ∈ s, e.preceded a c = true) (hs : step s b = some (s', as)) :
    (∀ before after, as = before ++ c :: after → a ∈ before) ∧
      (a ∈ as ∨ ∀ e ∈ s', e.preceded a c = true) := by
  obtain ⟨ts, hts, hrest, rfl⟩ := step_eq_some hs
  have hmoves : ∀ t ∈ ts, (∀ n, (n, c) ∈ t.acts → ∃ m < n, (m, a) ∈ t.acts) ∧
      ((∃ m, (m, a) ∈ t.acts) ∨ t.rest.preceded a c = true) := by
    intro t ht
    obtain ⟨e, he, hm⟩ := hts t ht
    exact hm.preceded (h e he)
  constructor
  · intro before after hsplit
    refine mem_before_of_sorted (sorted_by_number _) (fun n hn => ?_) hsplit
    rw [List.mem_insertionSort, List.mem_flatMap] at hn
    obtain ⟨t, ht, hn⟩ := hn
    obtain ⟨m, hm, hmem⟩ := (hmoves t ht).1 n hn
    refine ⟨m, hm, ?_⟩
    rw [List.mem_insertionSort, List.mem_flatMap]
    exact ⟨t, ht, hmem⟩
  · by_cases ha : a ∈ actionsOf ts
    · exact .inl ha
    · refine .inr fun e he => ?_
      obtain ⟨t, ht, rfl⟩ := (hrest e).mp he
      refine (hmoves t ht).2.resolve_left fun ⟨m, hm⟩ => ha ?_
      exact mem_actionsOf.mpr ⟨t, ht, m, hm⟩

variable {breaks : A → Bool}

theorem sweep_preceded {p : ℕ} {bs : List UInt8} (h : ∀ e ∈ s, e.preceded a c = true)
    {before after : List (A × ℕ)} {q : ℕ}
    (hsplit : (sweep breaks s p bs).1 = before ++ (c, q) :: after) : ∃ r, (a, r) ∈ before := by
  induction bs generalizing s p before with
  | nil => simp at hsplit
  | cons b bs ih =>
    cases hs : step s b with
    | none =>
      rw [sweep_cons_error hs] at hsplit
      simp at hsplit
    | some next =>
      obtain ⟨hhere, hlater⟩ := step_preceded h hs
      -- a `c` among the actions of this byte
      have hbyte {l r : List (A × ℕ)} (hl : ((executed breaks next.2).map fun x => (x, p)) =
          l ++ (c, q) :: r) : ∃ r, (a, r) ∈ l := by
        obtain ⟨l', r', hmap, rfl, hr⟩ := List.map_eq_append_iff.mp hl
        obtain ⟨x, r'', rfl, hx, -⟩ := List.map_eq_cons_iff.mp hr
        rw [Prod.mk.injEq] at hx
        obtain ⟨rest, hrest⟩ := executed_isPrefix breaks next.2
        refine ⟨p, List.mem_map_of_mem (f := fun x => (x, p)) (hhere l' (r'' ++ rest) ?_)⟩
        rw [← hrest, hmap, hx.1, List.append_assoc, List.cons_append]
      cases hb : next.2.any breaks with
      | true =>
        rw [sweep_cons_break hs hb] at hsplit
        exact hbyte hsplit
      | false =>
        rw [sweep_cons_on hs hb] at hsplit
        rcases List.append_eq_append_iff.mp hsplit with ⟨l, rfl, hl⟩ | ⟨l, hl₁, hl₂⟩
        · rcases hlater with ha | hnext
          · refine ⟨p, List.mem_append_left _ ?_⟩
            rw [executed_of_any_false hb]
            exact List.mem_map_of_mem (f := fun x => (x, p)) ha
          · obtain ⟨r, hr⟩ := ih hnext hl
            exact ⟨r, List.mem_append_right _ hr⟩
        · cases l with
          | nil =>
            rcases hlater with ha | hnext
            · refine ⟨p, ?_⟩
              rw [List.append_nil, executed_of_any_false hb] at hl₁
              rw [← hl₁]
              exact List.mem_map_of_mem (f := fun x => (x, p)) ha
            · have hl₃ : (sweep breaks next.1 (p + 1) bs).1 = [] ++ (c, q) :: after := hl₂.symm
              obtain ⟨r, hr⟩ := ih hnext hl₃
              simp at hr
          | cons y l =>
            rw [List.cons_append, List.cons.injEq] at hl₂
            rw [← hl₂.1] at hl₁
            exact hbyte hl₁

end Machine

end Sylar.Ragel
