import Sylar.Ragel.Exec

/-! # Reading piece by piece

A piece of the input takes the machine from one state to another and its actions do something
to the data, wherever in the buffer the piece is. Pieces whose actions only look at the piece itself
can be put together.
-/
namespace Sylar.Ragel
open Memory

variable {A ε σ τ : Type} [DecidableEq A] (breaks : A → Bool)
  (act : List UInt8 → A → ℕ → Command ε σ Unit) (limit : ℕ) (view : σ → τ)

/-- The machine goes from `s` to `s'` on the bytes `w`, and their actions change what is seen of
the data by `f`. -/
def Reads (s : State A) (w : List UInt8) (s' : State A) (f : τ → τ) : Prop :=
  ∀ pre post x, (pre ++ w).length < limit → ∃ l x',
    (∀ rest, sweep breaks s pre.length (w ++ rest) =
      (l ++ (sweep breaks s' (pre ++ w).length rest).1,
        (sweep breaks s' (pre ++ w).length rest).2)) ∧
    perform (act (pre ++ w ++ post)) l x = .done () x' ∧ view x' = f (view x)

/-- The machine accepts at the end of the bytes `w`. -/
def Ends (s : State A) (w : List UInt8) (f : τ → τ) : Prop :=
  ∀ pre post x, (pre ++ w).length < limit → ∃ l s' x', final s' = true ∧
    (∀ rest, sweep breaks s pre.length (w ++ rest) = (l, ⟨some s', (pre ++ w).length, true⟩)) ∧
    perform (act (pre ++ w ++ post)) l x = .done () x' ∧ view x' = f (view x)

variable {breaks act limit view} {s s' s'' : State A} {w w' : List UInt8} {f g : τ → τ}

theorem Reads.nil : Reads breaks act limit view s [] s id := by
  intro pre post x _
  refine ⟨[], x, ?_, rfl, rfl⟩
  intro rest
  rw [List.append_nil]
  rfl

theorem sweep_at {l : List (A × ℕ)} {halt : Halt A} (h : sweep breaks s 0 w = (l, halt)) (c : ℕ) :
    sweep breaks s c w =
      (l.map fun ap => (ap.1, c + ap.2), ⟨halt.cs, c + halt.p, halt.broke⟩) := by
  have hshift : sweep breaks s (c + 0) w = _ := sweep_shift s c 0 w
  rw [Nat.add_zero, h] at hshift
  exact hshift

/-- A piece of which the course of the machine is known. -/
theorem Reads.of_sweep {l : List (A × ℕ)}
    (hsweep : sweep breaks s 0 w = (l, ⟨some s', w.length, false⟩))
    (hrun : ∀ pre post x, (pre ++ w).length < limit → ∃ x',
      perform (act (pre ++ w ++ post)) (l.map fun ap => (ap.1, pre.length + ap.2)) x =
        .done () x' ∧ view x' = f (view x)) :
    Reads breaks act limit view s w s' f := by
  intro pre post x hlen
  rcases hrun pre post x hlen with ⟨x', hperform, hview⟩
  refine ⟨_, x', ?_, hperform, hview⟩
  intro rest
  have hplaced := sweep_at hsweep pre.length
  rw [sweep_append hplaced, List.length_append]

/-- The same for the last piece. -/
theorem Ends.of_sweep {l : List (A × ℕ)} (hfinal : final s' = true)
    (hsweep : sweep breaks s 0 w = (l, ⟨some s', w.length, true⟩))
    (hrun : ∀ pre post x, (pre ++ w).length < limit → ∃ x',
      perform (act (pre ++ w ++ post)) (l.map fun ap => (ap.1, pre.length + ap.2)) x =
        .done () x' ∧ view x' = f (view x)) :
    Ends breaks act limit view s w f := by
  intro pre post x hlen
  rcases hrun pre post x hlen with ⟨x', hperform, hview⟩
  refine ⟨_, s', x', hfinal, ?_, hperform, hview⟩
  intro rest
  have hplaced := sweep_at hsweep pre.length
  rw [sweep_append_of_stop (.inr (by rw [hplaced])), hplaced, List.length_append]

omit [DecidableEq A] in
/-- The actions of two pieces, one after the other. -/
theorem perform_pieces {pre post : List UInt8} {l l' : List (A × ℕ)} {x x₁ x₂ : σ}
    (h : perform (act (pre ++ w ++ (w' ++ post))) l x = .done () x₁)
    (h' : perform (act (pre ++ w ++ w' ++ post)) l' x₁ = .done () x₂) :
    perform (act (pre ++ (w ++ w') ++ post)) (l ++ l') x = .done () x₂ := by
  have hbuffer : pre ++ (w ++ w') ++ post = pre ++ w ++ (w' ++ post) := by
    simp only [List.append_assoc]
  rw [perform_append, hbuffer, Command.bind_done h, ← List.append_assoc (pre ++ w), h']

theorem Reads.trans (h : Reads breaks act limit view s w s' f)
    (h' : Reads breaks act limit view s' w' s'' g) :
    Reads breaks act limit view s (w ++ w') s'' (g ∘ f) := by
  intro pre post x hlen
  rw [← List.append_assoc] at hlen
  have hshort : (pre ++ w).length < limit := by
    rw [List.length_append] at hlen
    omega
  rcases h pre (w' ++ post) x hshort with ⟨l, x₁, hsweep, hrun, hview⟩
  rcases h' (pre ++ w) post x₁ hlen with ⟨l', x₂, hsweep', hrun', hview'⟩
  refine ⟨l ++ l', x₂, ?_, perform_pieces hrun hrun', ?_⟩
  · intro rest
    rw [List.append_assoc w, hsweep, hsweep', List.append_assoc l, ← List.append_assoc pre]
  · rw [hview', hview]
    rfl

theorem Reads.ends (h : Reads breaks act limit view s w s' f)
    (h' : Ends breaks act limit view s' w' g) :
    Ends breaks act limit view s (w ++ w') (g ∘ f) := by
  intro pre post x hlen
  rw [← List.append_assoc] at hlen
  have hshort : (pre ++ w).length < limit := by
    rw [List.length_append] at hlen
    omega
  rcases h pre (w' ++ post) x hshort with ⟨l, x₁, hsweep, hrun, hview⟩
  rcases h' (pre ++ w) post x₁ hlen with ⟨l', s₂, x₂, hfinal, hsweep', hrun', hview'⟩
  refine ⟨l ++ l', s₂, x₂, hfinal, ?_, perform_pieces hrun hrun', ?_⟩
  · intro rest
    rw [List.append_assoc w, hsweep, hsweep', ← List.append_assoc pre]
  · rw [hview', hview]
    rfl

/-- Pieces that all lead back to the same state. -/
theorem Reads.flatMap {α : Type} {text : α → List UInt8} {effect : α → τ → τ} {l : List α}
    (h : ∀ a ∈ l, Reads breaks act limit view s (text a) s (effect a)) :
    Reads breaks act limit view s (l.flatMap text) s fun y => l.foldl (fun y a => effect a y) y := by
  induction l with
  | nil => exact .nil
  | cons a l ih =>
    rw [List.forall_mem_cons] at h
    exact h.1.trans (ih h.2)

/-- What the machine does with a buffer that starts with an accepted text. -/
theorem Ends.exec (h : Ends breaks act limit view s w f) (hlen : w.length < limit) (x : σ) :
    ∃ s' x', final s' = true ∧ exec breaks (act w) s 0 w x = .done ⟨some s', w.length, true⟩ x' ∧
      view x' = f (view x) := by
  rcases h [] [] x hlen with ⟨l, s', x', hfinal, hsweep, hrun, hview⟩
  have hwhole := hsweep []
  rw [List.append_nil, List.nil_append] at hwhole
  rw [List.append_nil, List.nil_append] at hrun
  refine ⟨s', x', hfinal, ?_, hview⟩
  change sweep breaks s 0 w = _ at hwhole
  rw [exec_apply, hwhole, Command.bind_done hrun]
  rfl

end Sylar.Ragel
