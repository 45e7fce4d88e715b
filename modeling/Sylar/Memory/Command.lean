import Mathlib.Data.Nat.Notation
import Mathlib.Logic.Basic
import Mathlib.Tactic.TypeStar

/-! # Commands over an explicit state

A command either returns, raises an exception, or has no defined continuation.
An exception carries the state at the throw, so that "the state is unchanged"
is a statement about the command and not about the model.
-/
namespace Sylar.Memory

/-- The ways in which a statement has no defined continuation. -/
inductive Fault where
  | nullPointer
  | danglingPointer
  | outOfBounds
  | indeterminateValue
  | fuelExhausted
deriving DecidableEq, Repr

inductive Outcome (ε σ α : Type) where
  | done (a : α) (s : σ)
  | raised (e : ε) (s : σ)
  | fault (f : Fault)
deriving DecidableEq, Repr

def Command (ε σ α : Type) := σ → Outcome ε σ α

/-- The longest `std::string`. -/
def maxSize : ℕ := 0x3fffffffffffffff

namespace Command
variable {ε σ α β : Type}

def ret (a : α) : Command ε σ α := fun s => .done a s

def andThen (c : Command ε σ α) (f : α → Command ε σ β) : Command ε σ β := fun s =>
  match c s with
  | .done a s' => f a s'
  | .raised e s' => .raised e s'
  | .fault x => .fault x

instance : Monad (Command ε σ) where
  pure := ret
  bind := andThen

def state : Command ε σ σ := fun s => .done s s
def modify (f : σ → σ) : Command ε σ Unit := fun s => .done () (f s)
def raise (e : ε) : Command ε σ α := fun s => .raised e s
def abort (x : Fault) : Command ε σ α := fun _ => .fault x

@[simp] theorem pure_apply (a : α) (s : σ) : (pure a : Command ε σ α) s = .done a s := rfl

@[simp] theorem state_apply (s : σ) : (state : Command ε σ σ) s = .done s s := rfl

@[simp] theorem modify_apply (f : σ → σ) (s : σ) :
    (modify f : Command ε σ Unit) s = .done () (f s) := rfl

@[simp] theorem raise_apply (e : ε) (s : σ) : (raise e : Command ε σ α) s = .raised e s := rfl

@[simp] theorem abort_apply (x : Fault) (s : σ) : (abort x : Command ε σ α) s = .fault x := rfl

theorem bind_apply (c : Command ε σ α) (f : α → Command ε σ β) (s : σ) :
    (c >>= f) s = match c s with
      | .done a s' => f a s'
      | .raised e s' => .raised e s'
      | .fault x => .fault x := rfl

/-- Sequencing after a command that is known to return. -/
theorem bind_done {c : Command ε σ α} {s s' : σ} {a : α} (h : c s = .done a s')
    (f : α → Command ε σ β) : (c >>= f) s = f a s' := by
  rw [bind_apply, h]

theorem bind_raised {c : Command ε σ α} {s s' : σ} {e : ε} (h : c s = .raised e s')
    (f : α → Command ε σ β) : (c >>= f) s = .raised e s' := by
  rw [bind_apply, h]

theorem bind_fault {c : Command ε σ α} {s : σ} {x : Fault} (h : c s = .fault x)
    (f : α → Command ε σ β) : (c >>= f) s = .fault x := by
  rw [bind_apply, h]

theorem bind_eq_done {c : Command ε σ α} {f : α → Command ε σ β} {s s' : σ} {b : β} :
    (c >>= f) s = .done b s' ↔ ∃ a s₁, c s = .done a s₁ ∧ f a s₁ = .done b s' := by
  rw [bind_apply]
  constructor
  · intro h
    cases hc : c s with
    | done a s₁ =>
      rw [hc] at h
      exact ⟨a, s₁, rfl, h⟩
    | raised e s₁ => simp [hc] at h
    | fault x => simp [hc] at h
  · rintro ⟨a, s₁, hc, h⟩
    rw [hc]
    exact h

theorem bind_assoc_apply {γ : Type} (c : Command ε σ α) (f : α → Command ε σ β)
    (g : β → Command ε σ γ) (s : σ) : ((c >>= f) >>= g) s = (c >>= fun a => f a >>= g) s := by
  rw [bind_apply, bind_apply, bind_apply]
  cases c s <;> rfl

/-- Two continuations that do the same after a command. -/
theorem bind_congr_apply {c : Command ε σ α} {f g : α → Command ε σ β} {s : σ}
    (h : ∀ a s', c s = .done a s' → f a s' = g a s') : (c >>= f) s = (c >>= g) s := by
  rw [bind_apply, bind_apply]
  cases hc : c s with
  | done a s' => exact h a s' hc
  | raised e s' => rfl
  | fault x => rfl

theorem ite_congr_apply {p : Prop} [Decidable p] {c c' d d' : Command ε σ α} {s : σ}
    (h : p → c s = c' s) (h' : ¬p → d s = d' s) :
    (if p then c else d) s = (if p then c' else d') s := by
  by_cases hp : p
  · rw [if_pos hp, if_pos hp]
    exact h hp
  · rw [if_neg hp, if_neg hp]
    exact h' hp

@[simp] theorem pure_bind_apply (a : α) (f : α → Command ε σ β) (s : σ) :
    (pure a >>= f) s = f a s := rfl

@[simp] theorem state_bind_apply (f : σ → Command ε σ β) (s : σ) :
    (state >>= f) s = f s s := rfl

@[simp] theorem modify_bind_apply (g : σ → σ) (f : Unit → Command ε σ β) (s : σ) :
    (modify g >>= f) s = f () (g s) := rfl

@[simp] theorem ite_apply (p : Prop) [Decidable p] (c d : Command ε σ α) (s : σ) :
    (if p then c else d) s = if p then c s else d s := by
  split <;> rfl

section Lookup

variable {find : σ → Option α} {x : Fault} {a : α} {s s' : σ}

/-- What the state has at some place; `x` if it has nothing there. -/
def lookup (x : Fault) (find : σ → Option α) : Command ε σ α := do
  let s ← state
  match find s with
  | none => abort x
  | some a => pure a

theorem lookup_done (h : find s = some a) : (lookup x find : Command ε σ α) s = .done a s := by
  rw [lookup, state_bind_apply, h]
  rfl

theorem lookup_inv (h : (lookup x find : Command ε σ α) s = .done a s') :
    s' = s ∧ find s = some a := by
  rw [lookup, state_bind_apply] at h
  cases hfind : find s with
  | none =>
    rw [hfind] at h
    cases h
  | some b =>
    rw [hfind] at h
    cases h
    exact ⟨rfl, rfl⟩

end Lookup

section MapError

variable {ε' : Type}

/-- The same command with its exceptions renamed. -/
def mapError (f : ε → ε') (c : Command ε σ α) : Command ε' σ α := fun s =>
  match c s with
  | .done a s' => .done a s'
  | .raised e s' => .raised (f e) s'
  | .fault x => .fault x

variable {f : ε → ε'} {c : Command ε σ α} {s s' : σ} {a : α} {e : ε} {x : Fault}

theorem mapError_done (h : c s = .done a s') : mapError f c s = .done a s' := by
  rw [mapError, h]

theorem mapError_raised (h : c s = .raised e s') : mapError f c s = .raised (f e) s' := by
  rw [mapError, h]

theorem mapError_fault (h : c s = .fault x) : mapError f c s = .fault x := by
  rw [mapError, h]

end MapError

section Focus

variable {τ : Type}

/-- A command on a part of the state. -/
def focus (get : τ → σ) (set : σ → τ → τ) (c : Command ε σ α) : Command ε τ α := fun t =>
  match c (get t) with
  | .done a s => .done a (set s t)
  | .raised e s => .raised e (set s t)
  | .fault x => .fault x

variable {get : τ → σ} {set : σ → τ → τ} {c : Command ε σ α} {t t' : τ} {a : α} {s : σ}

theorem focus_done (h : c (get t) = .done a s) : focus get set c t = .done a (set s t) := by
  rw [focus, h]

theorem focus_eq_done : focus get set c t = .done a t' ↔
    ∃ s, c (get t) = .done a s ∧ set s t = t' := by
  rw [focus]
  constructor
  · intro h
    cases hc : c (get t) with
    | done a' s =>
      rw [hc, Outcome.done.injEq] at h
      exact ⟨s, by rw [h.1], h.2⟩
    | raised e s => simp [hc] at h
    | fault x => simp [hc] at h
  · rintro ⟨s, hc, hset⟩
    rw [hc, ← hset]

end Focus

end Command
end Sylar.Memory
