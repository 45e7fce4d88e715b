import Sylar.Ragel.Exec

/-! # The end of the input

A machine that is told where the input ends: the leaving actions that are pending in an accepting
state are executed there.
-/
namespace Sylar.Ragel
open Memory

variable {A ε σ : Type} [DecidableEq A]

/-- The actions that are pending at the end of the input. -/
def eofActions (s : State A) : List A :=
  actionsOf ((s.filterMap Expr.null).map fun o => ⟨.eps, o, [], []⟩)

/-- `%% write exec` of a machine without `fbreak`, with `eof = pe`. -/
def execEof (act : A → ℕ → Command ε σ Unit) (s : State A) (p : ℕ) (bs : List UInt8) :
    Command ε σ (Halt A) := do
  let halt ← exec (fun _ => false) act s p bs
  perform act ((halt.cs.elim [] eofActions).map fun a => (a, halt.p))
  pure halt

/-- Such a machine gets through a word and executes the actions `l`. -/
def Sweeps (s : State A) (p : ℕ) (w : List UInt8) (l : List (A × ℕ)) (s' : State A) : Prop :=
  sweep (fun _ => false) s p w = (l, ⟨some s', p + w.length, false⟩)

section Sweeps

variable {s s' s'' : State A} {p : ℕ} {w w' : List UInt8} {l l' : List (A × ℕ)} {b : UInt8}
  {as : List A}

theorem Sweeps.append (h : Sweeps s p w l s') (h' : Sweeps s' (p + w.length) w' l' s'') :
    Sweeps s p (w ++ w') (l ++ l') s'' := by
  rw [Sweeps, sweep_append h, h', List.length_append, Nat.add_assoc]

theorem sweeps_nil (s : State A) (p : ℕ) : Sweeps s p [] [] s := rfl

theorem sweeps_byte (h : step s b = some (s', as)) :
    Sweeps s p [b] (as.map fun a => (a, p)) s' := by
  have hcalm : as.any (fun _ => false) = false := by simp
  rw [Sweeps, sweep_calm h hcalm, sweep_nil, List.append_nil]
  rfl

/-- From a state to the end of the input, where an accepting state executes what is pending. -/
def Finishes (s : State A) (p : ℕ) (w : List UInt8) (l : List (A × ℕ)) : Prop :=
  ∃ m s', Sweeps s p w m s' ∧ final s' = true ∧
    l = m ++ (eofActions s').map fun a => (a, p + w.length)

theorem Finishes.after (h : Sweeps s p w l s') (h' : Finishes s' (p + w.length) w' l') :
    Finishes s p (w ++ w') (l ++ l') := by
  rcases h' with ⟨m, s'', hsweep, hfinal, rfl⟩
  refine ⟨l ++ m, s'', h.append hsweep, hfinal, ?_⟩
  rw [List.length_append, Nat.add_assoc, List.append_assoc]

theorem finishes_nil (h : final s = true) (has : eofActions s = as) :
    Finishes s p [] (as.map fun a => (a, p)) :=
  ⟨[], s, sweeps_nil s p, h, by rw [has]; rfl⟩

theorem Finishes.byte (h : step s b = some (s', as)) (h' : Finishes s' (p + 1) w l) :
    Finishes s p (b :: w) ((as.map fun a => (a, p)) ++ l) :=
  .after (sweeps_byte h) h'

theorem execEof_of_sweeps {act : A → ℕ → Command ε σ Unit} (h : Sweeps s p w l s') (x : σ) :
    execEof act s p w x =
      (perform act (l ++ (eofActions s').map fun a => (a, p + w.length)) >>= fun _ =>
        pure ⟨some s', p + w.length, false⟩) x := by
  rw [execEof, Command.bind_apply, exec_apply, h, Command.bind_apply, Command.bind_apply,
    perform_append, Command.bind_apply]
  cases perform act l x with
  | done u y =>
    simp only [Command.pure_apply, Option.elim_some, Command.bind_apply]
  | raised e y => rfl
  | fault f => rfl

end Sweeps

end Sylar.Ragel
