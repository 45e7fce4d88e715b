import Sylar.Memory.Agree
import Sylar.Ragel.Expr

/-! # Running a machine over a buffer

`exec` is the generated code: it takes one transition after the other and executes
the embedded actions, which may change a state of their own but not the course of the
machine. Which actions are executed where is therefore a function of the input
alone, `sweep`; it splits at every point of the input.
-/
namespace Sylar.Ragel
open Memory

/-- Where the generated code stops: the state it is in (`none` is the error state), the place
in the buffer, and whether it was left by `fbreak`. -/
@[ext]
structure Halt (A : Type) where
  cs : Option (State A)
  p : ℕ
  broke : Bool
deriving DecidableEq, Repr

section Exec

variable {A ε σ : Type} [DecidableEq A] (breaks : A → Bool) (act : A → ℕ → Command ε σ Unit)

/-- The actions of a transition; `true` if one of them is left by `fbreak`. -/
@[simp] def runActions (p : ℕ) : List A → Command ε σ Bool
  | [] => pure false
  | a :: as => do
    act a p
    if breaks a then pure true else runActions p as

/-- `%% write exec`. -/
def exec : State A → ℕ → List UInt8 → Command ε σ (Halt A)
  | s, p, [] => pure ⟨some s, p, false⟩
  | s, p, b :: bs =>
    match step s b with
    | none => pure ⟨none, p, false⟩
    | some (s', as) => do
      let broke ← runActions breaks act p as
      if broke then pure ⟨some s', p + 1, true⟩ else exec s' (p + 1) bs

/-- The actions of a transition that are executed. -/
@[simp] def executed : List A → List A
  | [] => []
  | a :: as => if breaks a then [a] else a :: executed as

/-- The actions that are executed on an input, each with its place, and where that ends. -/
def sweep : State A → ℕ → List UInt8 → List (A × ℕ) × Halt A
  | s, p, [] => ([], ⟨some s, p, false⟩)
  | s, p, b :: bs =>
    match step s b with
    | none => ([], ⟨none, p, false⟩)
    | some (s', as) =>
      let here := (executed breaks as).map fun a => (a, p)
      if as.any breaks then (here, ⟨some s', p + 1, true⟩)
      else
        let (later, halt) := sweep s' (p + 1) bs
        (here ++ later, halt)

/-- Actions one after the other. -/
def perform : List (A × ℕ) → Command ε σ Unit
  | [] => pure ()
  | (a, p) :: l => do
    act a p
    perform l

end Exec

variable {A ε σ : Type} {breaks : A → Bool} {act : A → ℕ → Command ε σ Unit}

@[simp] theorem perform_nil (x : σ) : perform act [] x = .done () x := rfl

theorem perform_cons (a : A) (p : ℕ) (l : List (A × ℕ)) (x : σ) :
    perform act ((a, p) :: l) x = (act a p >>= fun _ => perform act l) x := rfl

theorem perform_append (l r : List (A × ℕ)) (x : σ) :
    perform act (l ++ r) x = (perform act l >>= fun _ => perform act r) x := by
  induction l generalizing x with
  | nil => rfl
  | cons ap l ih =>
    rw [List.cons_append, perform_cons, Command.bind_congr_apply fun _ y _ => ih y]
    exact (Command.bind_assoc_apply _ _ _ x).symm

theorem runActions_spares {x : Fault} (hact : ∀ a p, Command.Spares x (act a p)) (p : ℕ)
    (as : List A) : Command.Spares x (runActions breaks act p as) := by
  induction as with
  | nil => exact .pure _
  | cons a as ih => exact (hact a p).bind fun _ => .ite (.pure _) ih

/-- The machine itself has no fault. -/
theorem exec_spares [DecidableEq A] {x : Fault} (hact : ∀ a p, Command.Spares x (act a p))
    (s : State A) (p : ℕ) (bs : List UInt8) : Command.Spares x (exec breaks act s p bs) := by
  induction bs generalizing s p with
  | nil => exact .pure _
  | cons b bs ih =>
    rw [exec]
    cases step s b with
    | none => exact .pure _
    | some next =>
      apply (runActions_spares hact p next.2).bind
      intro broke
      exact .ite (.pure _) (ih _ _)

section Transfer

variable {act' : A → ℕ → Command ε σ Unit}

theorem runActions_extends (hact : ∀ a p, Command.Extends (act a p) (act' a p)) (p : ℕ)
    (as : List A) : Command.Extends (runActions breaks act p as) (runActions breaks act' p as) := by
  induction as with
  | nil => exact .refl _
  | cons a as ih => exact (hact a p).bind fun _ => .ite (.refl _) ih

/-- A run that is left by `fbreak` does not depend on what follows, nor on what its actions could
have done elsewhere. -/
theorem exec_transfer [DecidableEq A] (hact : ∀ a p, Command.Extends (act a p) (act' a p))
    {s : State A} {p : ℕ} {bs : List UInt8} {x x' : σ} {halt : Halt A}
    (h : exec breaks act s p bs x = .done halt x') (hbroke : halt.broke = true)
    (more : List UInt8) : exec breaks act' s p (bs ++ more) x = .done halt x' := by
  induction bs generalizing s p x with
  | nil =>
    cases h
    cases hbroke
  | cons b bs ih =>
    rw [List.cons_append, exec]
    rw [exec] at h
    cases hs : step s b with
    | none =>
      rw [hs] at h
      cases h
      cases hbroke
    | some next =>
      rw [hs] at h
      obtain ⟨broke, x₁, hrun, h⟩ := Command.bind_eq_done.mp h
      dsimp only
      rw [Command.bind_done (runActions_extends hact p _ _ _ _ hrun)]
      cases broke with
      | true => exact h
      | false => exact ih h

end Transfer

section Bounds

variable {R S : ℕ → σ → Prop}
  (hstay : ∀ a p, breaks a = false → Command.Ensures (R p) (act a p) fun _ => R p)
  (hbreak : ∀ a p, breaks a = true → Command.Ensures (R p) (act a p) fun _ => S (p + 1))

include hstay hbreak

theorem runActions_bounds (p : ℕ) (as : List A) :
    Command.Ensures (R p) (runActions breaks act p as) fun broke x =>
      if broke then S (p + 1) x else R p x := by
  induction as with
  | nil => exact .pure fun _ hx => hx
  | cons a as ih =>
    rw [runActions]
    cases hb : breaks a with
    | true => exact (hbreak a p hb).bind fun _ => .pure fun _ hx => hx
    | false => exact (hstay a p hb).bind fun _ => ih

/-- What the actions keep while the machine runs, and the last one turns into what holds at the
place where it stops. -/
theorem exec_bounds [DecidableEq A] (hnext : ∀ p x, R p x → R (p + 1) x) (s : State A) (p : ℕ)
    (bs : List UInt8) : Command.Ensures (R p) (exec breaks act s p bs) fun halt x =>
      halt.broke = true → S halt.p x := by
  induction bs generalizing s p with
  | nil => exact .pure fun _ _ => nofun
  | cons b bs ih =>
    rw [exec]
    cases step s b with
    | none => exact .pure fun _ _ => nofun
    | some next =>
      refine (runActions_bounds hstay hbreak p next.2).bind fun broke => ?_
      cases broke with
      | true => exact .pure fun _ hx _ => hx
      | false => exact fun x halt x' hx => ih next.1 (p + 1) x halt x' (hnext p x hx)

end Bounds

theorem executed_isPrefix (breaks : A → Bool) (as : List A) : executed breaks as <+: as := by
  induction as with
  | nil => exact List.prefix_rfl
  | cons a as ih =>
    rw [executed]
    split_ifs
    · exact ⟨as, rfl⟩
    · exact (List.prefix_cons_inj a).mpr ih

theorem executed_of_any_false {as : List A} (h : as.any breaks = false) :
    executed breaks as = as := by
  induction as with
  | nil => rfl
  | cons a as ih =>
    rw [List.any_cons, Bool.or_eq_false_iff] at h
    rw [executed, if_neg (by rw [h.1]; decide), ih h.2]

theorem runActions_apply (p : ℕ) (as : List A) (x : σ) :
    runActions breaks act p as x =
      (perform act ((executed breaks as).map fun a => (a, p)) >>= fun _ =>
        pure (as.any breaks)) x := by
  induction as generalizing x with
  | nil => rfl
  | cons a as ih =>
    rw [runActions, executed, List.any_cons]
    cases hb : breaks a with
    | true =>
      rw [if_pos rfl, if_pos rfl]
      exact (Command.bind_assoc_apply (act a p) (fun _ => pure ()) (fun _ => pure true) x).symm
    | false =>
      rw [if_neg (by decide), if_neg (by decide), Bool.false_or,
        Command.bind_congr_apply fun _ y _ => ih y]
      exact (Command.bind_assoc_apply _ _ _ x).symm

variable [DecidableEq A] {s s' : State A}

section Sweep

variable (breaks)

@[simp] theorem sweep_nil (s : State A) (p : ℕ) :
    sweep breaks s p [] = ([], ⟨some s, p, false⟩) := rfl

variable {breaks} {p : ℕ} {b : UInt8} {bs : List UInt8} {as : List A}

theorem sweep_cons_error (h : step s b = none) :
    sweep breaks s p (b :: bs) = ([], ⟨none, p, false⟩) := by
  rw [sweep, h]

theorem sweep_cons_break (h : step s b = some (s', as)) (hb : as.any breaks = true) :
    sweep breaks s p (b :: bs) =
      ((executed breaks as).map fun a => (a, p), ⟨some s', p + 1, true⟩) := by
  rw [sweep, h]
  exact if_pos hb

theorem sweep_cons_on (h : step s b = some (s', as)) (hb : as.any breaks = false) :
    sweep breaks s p (b :: bs) =
      (((executed breaks as).map fun a => (a, p)) ++ (sweep breaks s' (p + 1) bs).1,
        (sweep breaks s' (p + 1) bs).2) := by
  rw [sweep, h]
  exact if_neg (by rw [hb]; decide)

theorem exec_cons (h : step s b = some (s', as)) (x : σ) :
    exec breaks act s p (b :: bs) x = (runActions breaks act p as >>= fun broke =>
      if broke then pure ⟨some s', p + 1, true⟩ else exec breaks act s' (p + 1) bs) x := by
  rw [exec, h]

/-- The generated code executes the actions of the sweep. -/
theorem exec_apply (s : State A) (p : ℕ) (bs : List UInt8) (x : σ) :
    exec breaks act s p bs x =
      (perform act (sweep breaks s p bs).1 >>= fun _ => pure (sweep breaks s p bs).2) x := by
  induction bs generalizing s p x with
  | nil => rfl
  | cons b bs ih =>
    cases hs : step s b with
    | none =>
      rw [exec, hs, sweep_cons_error hs]
      rfl
    | some next =>
      obtain ⟨s', as⟩ := next
      rw [exec_cons hs, funext (runActions_apply p as), Command.bind_assoc_apply]
      cases hb : as.any breaks with
      | true =>
        rw [sweep_cons_break hs hb]
        rfl
      | false =>
        rw [sweep_cons_on hs hb, funext (perform_append _ _), Command.bind_assoc_apply]
        exact Command.bind_congr_apply fun _ y _ => ih s' (p + 1) y

theorem sweep_calm (h : step s b = some (s', as)) (has : as.any breaks = false) :
    sweep breaks s p (b :: bs) =
      ((as.map fun a => (a, p)) ++ (sweep breaks s' (p + 1) bs).1,
        (sweep breaks s' (p + 1) bs).2) := by
  rw [sweep_cons_on h has, executed_of_any_false has]

/-- Bytes on which nothing is executed, and what is known of the state while they are read. -/
theorem sweep_along {S : List UInt8 → State A → Prop} {w u : List UInt8}
    (h : ∀ u s, S u s → ∀ b ∈ w, ∃ s', S (u ++ [b]) s' ∧ step s b = some (s', [])) (hs : S u s) :
    ∃ s', S (u ++ w) s' ∧ ∀ (breaks : A → Bool) p bs,
      sweep breaks s p (w ++ bs) = sweep breaks s' (p + w.length) bs := by
  induction w generalizing s u with
  | nil =>
    rw [List.append_nil]
    exact ⟨s, hs, fun _ _ _ => rfl⟩
  | cons b w ih =>
    rcases h u s hs b List.mem_cons_self with ⟨s₁, hs₁, hstep⟩
    rcases ih (fun u s hs b hb => h u s hs b (List.mem_cons_of_mem _ hb)) hs₁ with
      ⟨s', hs', hsweep⟩
    rw [List.append_assoc] at hs'
    refine ⟨s', hs', ?_⟩
    intro breaks p bs
    rw [List.cons_append, sweep_cons_on hstep rfl, hsweep, List.length_cons, Nat.add_right_comm,
      Nat.add_assoc]
    rfl

/-- Bytes on which the machine stays among some states. -/
theorem sweep_among {S : State A → Prop} {w : List UInt8}
    (h : ∀ s, S s → ∀ b ∈ w, ∃ s', S s' ∧ step s b = some (s', [])) (hs : S s) :
    ∃ s', S s' ∧ ∀ (breaks : A → Bool) p bs,
      sweep breaks s p (w ++ bs) = sweep breaks s' (p + w.length) bs :=
  sweep_along (S := fun _ => S) (u := []) (fun _ => h) hs

/-- Bytes on which the machine stays where it is. -/
theorem sweep_loop {w : List UInt8} (h : ∀ b ∈ w, step s b = some (s, [])) :
    sweep breaks s p (w ++ bs) = sweep breaks s (p + w.length) bs := by
  have hstay : ∀ x, x = s → ∀ b ∈ w, ∃ s', s' = s ∧ step x b = some (s', []) := by
    rintro x rfl b hb
    exact ⟨x, rfl, h b hb⟩
  rcases sweep_among hstay rfl with ⟨s', rfl, hsweep⟩
  exact hsweep breaks p bs

/-- A word, from a state that its first byte leads into a loop. -/
theorem sweep_word {a : A} {w : List UInt8} (hw : w ≠ []) (ha : breaks a = false)
    (h : ∀ b ∈ w, step s b = some (s', [a]) ∧ step s' b = some (s', [])) (bs : List UInt8) :
    sweep breaks s p (w ++ bs) =
      ((a, p) :: (sweep breaks s' (p + w.length) bs).1,
        (sweep breaks s' (p + w.length) bs).2) := by
  rcases List.exists_cons_of_ne_nil hw with ⟨b, w, rfl⟩
  rw [List.forall_mem_cons] at h
  rw [List.cons_append, sweep_calm h.1.1 (by simp [ha]), sweep_loop fun b hb => (h.2 b hb).2,
    List.length_cons, Nat.add_assoc, Nat.add_comm 1]
  rfl

/-- A sweep that reaches the end of the input goes on with what follows. -/
theorem sweep_append {xs ys : List UInt8} {l : List (A × ℕ)} {q : ℕ}
    (h : sweep breaks s p xs = (l, ⟨some s', q, false⟩)) :
    sweep breaks s p (xs ++ ys) =
      (l ++ (sweep breaks s' (p + xs.length) ys).1, (sweep breaks s' (p + xs.length) ys).2) := by
  induction xs generalizing s p l with
  | nil =>
    rw [sweep_nil, Prod.mk.injEq, Halt.mk.injEq, Option.some.injEq] at h
    obtain ⟨rfl, rfl, -⟩ := h
    rfl
  | cons b xs ih =>
    rw [List.cons_append, List.length_cons, Nat.add_comm xs.length, ← Nat.add_assoc]
    cases hs : step s b with
    | none =>
      rw [sweep_cons_error hs] at h
      simp at h
    | some next =>
      cases hb : next.2.any breaks with
      | true =>
        rw [sweep_cons_break hs hb] at h
        simp at h
      | false =>
        rw [sweep_cons_on hs hb, Prod.mk.injEq] at h
        rw [sweep_cons_on hs hb, ih (Prod.ext rfl h.2), ← h.1, List.append_assoc]

/-- A sweep that stops inside the input does not look at what follows. -/
theorem sweep_append_of_stop {xs ys : List UInt8}
    (h : (sweep breaks s p xs).2.cs = none ∨ (sweep breaks s p xs).2.broke = true) :
    sweep breaks s p (xs ++ ys) = sweep breaks s p xs := by
  fun_induction sweep breaks s p xs with
  | case1 => simp at h
  | case2 s p b xs hs => rw [List.cons_append, sweep_cons_error hs]
  | case3 s p b xs s' as hs here hb => rw [List.cons_append, sweep_cons_break hs hb]
  | case4 s p b xs s' as hs here hb later halt hrec ih =>
    rw [hrec] at ih
    rw [List.cons_append, sweep_cons_on hs (Bool.eq_false_iff.mpr hb), ih h]

theorem sweep_place (breaks : A → Bool) (s : State A) (p : ℕ) (bs : List UInt8) :
    p ≤ (sweep breaks s p bs).2.p ∧ (sweep breaks s p bs).2.p ≤ p + bs.length ∧
      ((sweep breaks s p bs).2.cs ≠ none → (sweep breaks s p bs).2.broke = false →
        (sweep breaks s p bs).2.p = p + bs.length) := by
  fun_induction sweep breaks s p bs with
  | case1 => simp
  | case2 => simp
  | case3 => simp
  | case4 s p b bs s' as hs here hb later halt hrec ih =>
    rw [hrec] at ih
    dsimp only at ih ⊢
    rw [List.length_cons]
    exact ⟨by omega, by omega, fun h h' => by rw [ih.2.2 h h']; omega⟩

/-- The error state is not entered by `fbreak`. -/
theorem sweep_error (h : (sweep breaks s p bs).2.cs = none) :
    (sweep breaks s p bs).2.broke = false := by
  fun_induction sweep breaks s p bs with
  | case1 => rfl
  | case2 => rfl
  | case3 => cases h
  | case4 s p b bs s' as hs here hb later halt hrec ih =>
    rw [hrec] at ih
    exact ih h

/-- Every action is executed at a byte of the input. -/
theorem sweep_mem {a : A} {q : ℕ} (h : (a, q) ∈ (sweep breaks s p bs).1) :
    p ≤ q ∧ q < (sweep breaks s p bs).2.p := by
  fun_induction sweep breaks s p bs with
  | case1 => cases h
  | case2 => cases h
  | case3 s p b bs s' as hs here hb =>
    obtain ⟨x, -, hx⟩ := List.mem_map.mp h
    cases hx
    exact ⟨le_rfl, Nat.lt_succ_self q⟩
  | case4 s p b bs s' as hs here hb later halt hrec ih =>
    have hplace := (sweep_place breaks s' (p + 1) bs).1
    rw [hrec] at ih hplace
    rcases List.mem_append.mp h with h | h
    · obtain ⟨x, -, hx⟩ := List.mem_map.mp h
      cases hx
      exact ⟨le_rfl, hplace⟩
    · exact ⟨Nat.le_of_succ_le (ih h).1, (ih h).2⟩

/-- The place where the input starts only shifts the places. -/
theorem sweep_shift (s : State A) (c p : ℕ) (bs : List UInt8) :
    sweep breaks s (c + p) bs = ((sweep breaks s p bs).1.map fun ap => (ap.1, c + ap.2),
      ⟨(sweep breaks s p bs).2.cs, c + (sweep breaks s p bs).2.p,
        (sweep breaks s p bs).2.broke⟩) := by
  fun_induction sweep breaks s p bs with
  | case1 => rfl
  | case2 s p b bs hs => rw [sweep_cons_error hs, List.map_nil]
  | case3 s p b bs s' as hs here hb =>
    rw [sweep_cons_break hs hb, List.map_map]
    rfl
  | case4 s p b bs s' as hs here hb later halt hrec ih =>
    rw [hrec] at ih
    rw [sweep_cons_on hs (Bool.eq_false_iff.mpr hb), List.map_append, List.map_map, Nat.add_assoc, ih]
    rfl

/-- The actions are executed from left to right. -/
theorem sweep_sorted (breaks : A → Bool) (s : State A) (p : ℕ) (bs : List UInt8) :
    (sweep breaks s p bs).1.Pairwise fun x y => x.2 ≤ y.2 := by
  have hhere (p : ℕ) (as : List A) : (as.map fun a => (a, p)).Pairwise fun x y => x.2 ≤ y.2 :=
    List.pairwise_map.mpr (List.pairwise_of_forall fun _ _ => le_rfl)
  fun_induction sweep breaks s p bs with
  | case1 => exact .nil
  | case2 => exact .nil
  | case3 s p b bs s' as hs here hb => exact hhere _ _
  | case4 s p b bs s' as hs here hb later halt hrec ih =>
    have hmem : ∀ y ∈ (sweep breaks s' (p + 1) bs).1, p + 1 ≤ y.2 := fun y hy => (sweep_mem hy).1
    rw [hrec] at ih hmem
    refine List.pairwise_append.mpr ⟨hhere _ _, ih, ?_⟩
    intro x hx y hy
    obtain ⟨a, -, rfl⟩ := List.mem_map.mp hx
    exact Nat.le_of_succ_le (hmem y hy)

/-- Without `fbreak` no action that contains it has been executed. -/
theorem sweep_not_broke (h : (sweep breaks s p bs).2.broke = false) {a : A} {q : ℕ}
    (ha : (a, q) ∈ (sweep breaks s p bs).1) : breaks a = false := by
  fun_induction sweep breaks s p bs with
  | case1 => cases ha
  | case2 => cases ha
  | case3 => cases h
  | case4 s p b bs s' as hs here hb later halt hrec ih =>
    rw [hrec] at ih
    rcases List.mem_append.mp ha with ha | ha
    · obtain ⟨x, hx, heq⟩ := List.mem_map.mp ha
      cases heq
      rw [Bool.eq_false_iff]
      intro hbreaks
      exact hb (List.any_eq_true.mpr ⟨a, (executed_isPrefix breaks as).subset hx, hbreaks⟩)
    · exact ih h ha

end Sweep

end Sylar.Ragel
