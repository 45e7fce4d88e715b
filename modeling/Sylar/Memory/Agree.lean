import Sylar.Memory.Command

/-! # Comparing runs of commands

Two runs agree when they end in the same way with the same value, in related states.
A command spares a fault when no run of it ends there; it is extended by one that returns
whatever it returns, and ensures what holds of every state in which it returns.
-/
namespace Sylar.Memory

variable {ε σ τ α β : Type}

/-- How a run ended, without the state. -/
def Outcome.answer : Outcome ε σ α → Outcome ε Unit α
  | .done a _ => .done a ()
  | .raised e _ => .raised e ()
  | .fault f => .fault f

/-- The state a run ended in, unless it has none. -/
def Outcome.final : Outcome ε σ α → Option σ
  | .done _ s => some s
  | .raised _ s => some s
  | .fault _ => none

namespace Command

def Agree (R : σ → τ → Prop) : Outcome ε σ α → Outcome ε τ α → Prop
  | .done a s, .done b t => a = b ∧ R s t
  | .raised e s, .raised e' t => e = e' ∧ R s t
  | .fault f, .fault g => f = g
  | _, _ => False

variable {R : σ → τ → Prop} {s : σ} {t : τ}

theorem Agree.answer_eq {o : Outcome ε σ α} {o' : Outcome ε τ α} (h : Agree R o o') :
    o.answer = o'.answer := by
  cases o <;> cases o' <;> simp_all [Agree, Outcome.answer]

/-- Sequencing keeps agreement. -/
theorem Agree.bind {c : Command ε σ α} {d : Command ε τ α} {f : α → Command ε σ β}
    {g : α → Command ε τ β} (h : Agree R (c s) (d t))
    (hfg : ∀ a s t, R s t → Agree R (f a s) (g a t)) : Agree R ((c >>= f) s) ((d >>= g) t) := by
  rw [bind_apply, bind_apply]
  cases hc : c s <;> cases hd : d t <;> rw [hc, hd] at h
  case done.done a s' b t' =>
    obtain ⟨rfl, hR⟩ := h
    exact hfg a s' t' hR
  all_goals first
    | exact h
    | exact h.elim

theorem Agree.ite {p : Prop} [Decidable p] {c c' : Command ε σ α} {d d' : Command ε τ α}
    (h : p → Agree R (c s) (d t)) (h' : ¬p → Agree R (c' s) (d' t)) :
    Agree R ((if p then c else c') s) ((if p then d else d') t) := by
  by_cases hp : p
  · rw [if_pos hp, if_pos hp]
    exact h hp
  · rw [if_neg hp, if_neg hp]
    exact h' hp

section Spares

variable (x : Fault)

def Spares (c : Command ε σ α) : Prop := ∀ s, c s ≠ .fault x

variable {x}

theorem Spares.pure (a : α) : Spares x (pure a : Command ε σ α) := fun _ h => by
  cases h

theorem Spares.state : Spares x (Command.state : Command ε σ σ) := fun _ h => by
  cases h

theorem Spares.modify (f : σ → σ) : Spares x (Command.modify f : Command ε σ Unit) := fun _ h => by
  cases h

theorem Spares.raise (e : ε) : Spares x (Command.raise e : Command ε σ α) := fun _ h => by
  cases h

theorem Spares.abort {y : Fault} (h : y ≠ x) : Spares x (Command.abort y : Command ε σ α) := by
  intro s hs
  cases hs
  exact h rfl

/-- A sequence ends in a fault only if one of its parts does. -/
theorem bind_ne_fault {c : Command ε σ α} {f : α → Command ε σ β} (h : c s ≠ .fault x)
    (hf : ∀ a s', c s = .done a s' → f a s' ≠ .fault x) : (c >>= f) s ≠ .fault x := by
  rw [bind_apply]
  cases hc : c s with
  | done a s' => exact hf a s' hc
  | raised e s' =>
    intro h'
    cases h'
  | fault y =>
    rw [hc] at h
    intro h'
    cases h'
    exact h rfl

theorem ite_ne_fault {p : Prop} [Decidable p] {c d : Command ε σ α} (hc : p → c s ≠ .fault x)
    (hd : ¬p → d s ≠ .fault x) : (if p then c else d) s ≠ .fault x := by
  by_cases hp : p
  · rw [if_pos hp]
    exact hc hp
  · rw [if_neg hp]
    exact hd hp

theorem Spares.bind {c : Command ε σ α} {f : α → Command ε σ β} (h : Spares x c)
    (hf : ∀ a, Spares x (f a)) : Spares x (c >>= f) := fun s =>
  bind_ne_fault (h s) fun a s' _ => hf a s'

theorem Spares.ite {p : Prop} [Decidable p] {c d : Command ε σ α} (hc : Spares x c)
    (hd : Spares x d) : Spares x (if p then c else d) := fun s =>
  ite_ne_fault (fun _ => hc s) fun _ => hd s

theorem Spares.focus {get : τ → σ} {set : σ → τ → τ} {c : Command ε σ α} (h : Spares x c) :
    Spares x (Command.focus get set c) := by
  intro t ht
  rw [Command.focus] at ht
  cases hc : c (get t) with
  | done a s => simp [hc] at ht
  | raised e s => simp [hc] at ht
  | fault y =>
    rw [hc] at ht
    cases ht
    exact h _ hc

end Spares

section Extends

/-- What the first command returns, the second returns as well. -/
def Extends (c d : Command ε σ α) : Prop := ∀ s a s', c s = .done a s' → d s = .done a s'

theorem Extends.refl (c : Command ε σ α) : Extends c c := fun _ _ _ h => h

theorem Extends.abort (x : Fault) (d : Command ε σ α) : Extends (Command.abort x) d := nofun

theorem Extends.bind {c d : Command ε σ α} {f g : α → Command ε σ β} (h : Extends c d)
    (hfg : ∀ a, Extends (f a) (g a)) : Extends (c >>= f) (d >>= g) := by
  intro s b s' hc
  rcases bind_eq_done.mp hc with ⟨a, s₁, h₁, h₂⟩
  rw [bind_done (h s a s₁ h₁)]
  exact hfg a s₁ b s' h₂

theorem Extends.ite {p : Prop} [Decidable p] {c c' d d' : Command ε σ α} (hc : Extends c c')
    (hd : Extends d d') : Extends (if p then c else d) (if p then c' else d') := by
  by_cases hp : p
  · rw [if_pos hp, if_pos hp]
    exact hc
  · rw [if_neg hp, if_neg hp]
    exact hd

end Extends

section Ensures

variable {P : σ → Prop} {Q : α → σ → Prop}

/-- Whatever the command returns from a state with `P`, it satisfies `Q`. -/
def Ensures (P : σ → Prop) (c : Command ε σ α) (Q : α → σ → Prop) : Prop :=
  ∀ s a s', P s → c s = .done a s' → Q a s'

theorem Ensures.pure {a : α} (h : ∀ s, P s → Q a s) : Ensures P (pure a : Command ε σ α) Q := by
  intro s b s' hP hc
  cases hc
  exact h s hP

theorem Ensures.modify {f : σ → σ} {Q : Unit → σ → Prop} (h : ∀ s, P s → Q () (f s)) :
    Ensures P (Command.modify f : Command ε σ Unit) Q := by
  intro s a s' hP hc
  cases hc
  exact h s hP

theorem Ensures.abort (x : Fault) : Ensures P (Command.abort x : Command ε σ α) Q := nofun

theorem Ensures.raise (e : ε) : Ensures P (Command.raise e : Command ε σ α) Q := nofun

theorem Ensures.bind {c : Command ε σ α} {f : α → Command ε σ β} {R : β → σ → Prop}
    (h : Ensures P c Q) (hf : ∀ a, Ensures (Q a) (f a) R) : Ensures P (c >>= f) R := by
  intro s b s' hP hc
  rcases bind_eq_done.mp hc with ⟨a, s₁, h₁, h₂⟩
  exact hf a s₁ b s' (h s a s₁ hP h₁) h₂

/-- A command that looks at the state first. -/
theorem Ensures.state_bind {f : σ → Command ε σ α} (h : ∀ x, Ensures P (f x) Q) :
    Ensures P (Command.state >>= f) Q := fun s a s' hP hc => h s s a s' hP hc

theorem Ensures.ite {p : Prop} [Decidable p] {c d : Command ε σ α} (hc : Ensures P c Q)
    (hd : Ensures P d Q) : Ensures P (if p then c else d) Q := by
  split
  · exact hc
  · exact hd

end Ensures

end Command
end Sylar.Memory
