import Sylar.Memory.Command
import Mathlib.Data.Nat.Notation

/-! # Runs

The states that a system reaches by commands that return. Which command may be
given in which state is a parameter, so that one system has runs under different
disciplines; a run ends where a command raises or faults.
-/
namespace Sylar.Memory

variable {ε σ α : Type}

inductive Reachable (init : σ) (run : α → Command ε σ Unit) (allowed : σ → α → Prop) : σ → Prop where
  | init : Reachable init run allowed init
  | step {s s' : σ} {a : α} : Reachable init run allowed s → allowed s a →
      run a s = .done () s' → Reachable init run allowed s'

/-- The state in which a run returned. -/
def Outcome.returned {α : Type} : Outcome ε σ α → Option σ
  | .done _ s => some s
  | .raised _ _ => none
  | .fault _ => none

theorem Outcome.returned_eq_some {α : Type} {o : Outcome ε σ α} {s : σ} :
    o.returned = some s ↔ ∃ a, o = .done a s := by
  cases o <;> simp [Outcome.returned]

/-- The commands of a list, one after the other. -/
def runAll (run : α → Command ε σ Unit) : List α → Command ε σ Unit
  | [] => pure ()
  | a :: as => do
    run a
    runAll run as

/-- Every command of the list is allowed in the state in which it is given. -/
def Along (allowed : σ → α → Prop) (run : α → Command ε σ Unit) : List α → σ → Prop
  | [], _ => True
  | a :: as, s => allowed s a ∧
    match run a s with
    | .done _ s' => Along allowed run as s'
    | _ => True

instance Along.instDecidable {allowed : σ → α → Prop} [∀ s a, Decidable (allowed s a)]
    (run : α → Command ε σ Unit) : (as : List α) → (s : σ) → Decidable (Along allowed run as s)
  | [], _ => .isTrue trivial
  | a :: as, s =>
    match h : run a s with
    | .done () s' =>
      have : Decidable (Along allowed run as s') := Along.instDecidable run as s'
      decidable_of_iff (allowed s a ∧ Along allowed run as s') (by rw [Along, h])
    | .raised _ _ => decidable_of_iff (allowed s a) (by simp [Along, h])
    | .fault _ => decidable_of_iff (allowed s a) (by simp [Along, h])

theorem along_cons {allowed : σ → α → Prop} {run : α → Command ε σ Unit} {a : α} {as : List α}
    {s s' : σ} (h : run a s = .done () s') :
    Along allowed run (a :: as) s ↔ allowed s a ∧ Along allowed run as s' := by
  rw [Along, h]

theorem runAll_cons_done {run : α → Command ε σ Unit} {a : α} {as : List α} {s s' : σ} :
    runAll run (a :: as) s = .done () s' ↔
      ∃ s₁, run a s = .done () s₁ ∧ runAll run as s₁ = .done () s' := by
  constructor
  · intro h
    rcases Command.bind_eq_done.mp h with ⟨_, s₁, ha, has⟩
    exact ⟨s₁, ha, has⟩
  · rintro ⟨s₁, ha, has⟩
    exact Command.bind_eq_done.mpr ⟨(), s₁, ha, has⟩

/-- The command ends without an exception or a fault. -/
def Returns {β : Type} (c : Command ε σ β) (s : σ) : Prop := ∃ b s', c s = .done b s'

theorem returns_bind {β γ : Type} {c : Command ε σ β} {f : β → Command ε σ γ} {s : σ}
    (h : Returns c s) (hf : ∀ b s', c s = .done b s' → Returns (f b) s') :
    Returns (c >>= f) s := by
  rcases h with ⟨b, s', hb⟩
  rcases hf b s' hb with ⟨r, s'', hr⟩
  exact ⟨r, s'', by rw [Command.bind_done hb, hr]⟩

/-- A list of commands returns if each of them does in the states that the others lead to. -/
theorem returns_runAll {run : α → Command ε σ Unit} {I : σ → Prop} {l : List α} {s : σ} (hs : I s)
    (hrun : ∀ a ∈ l, ∀ s, I s → Returns (run a) s)
    (hstep : ∀ a ∈ l, ∀ s s', I s → run a s = .done () s' → I s') :
    ∃ s', runAll run l s = .done () s' ∧ I s' := by
  induction l generalizing s with
  | nil => exact ⟨s, rfl, hs⟩
  | cons a l ih =>
    rw [List.forall_mem_cons] at hrun hstep
    rcases hrun.1 s hs with ⟨_, s₁, ha⟩
    rcases ih (hstep.1 s s₁ hs ha) hrun.2 hstep.2 with ⟨s₂, hl, hs₂⟩
    exact ⟨s₂, runAll_cons_done.mpr ⟨s₁, ha, hl⟩, hs₂⟩

theorem Along.take {allowed : σ → α → Prop} {run : α → Command ε σ Unit} {as : List α} {s : σ}
    (h : Along allowed run as s) (n : ℕ) : Along allowed run (as.take n) s := by
  induction as generalizing s n with
  | nil => simpa using h
  | cons a as ih =>
    cases n with
    | zero => trivial
    | succ n =>
      rw [List.take_succ_cons]
      refine ⟨h.1, ?_⟩
      cases ha : run a s with
      | done u s₁ => exact ih ((along_cons ha).mp h).2 n
      | raised e s₁ => trivial
      | fault x => trivial

/-- Two conditions that agree on the steps of a run hold along it together. -/
theorem Along.iff_of_invariant {allowed P Q : σ → α → Prop} {run : α → Command ε σ Unit}
    {I : σ → Prop} (hstep : ∀ s a s', I s → allowed s a → run a s = .done () s' → I s')
    (hiff : ∀ s a, I s → allowed s a → (P s a ↔ Q s a)) {as : List α} {s : σ} (hI : I s)
    (h : Along allowed run as s) : Along P run as s ↔ Along Q run as s := by
  induction as generalizing s with
  | nil => exact Iff.rfl
  | cons a as ih =>
    have ha := hiff s a hI h.1
    cases hrun : run a s with
    | done u s' =>
      rw [along_cons hrun] at h
      rw [along_cons hrun, along_cons hrun, ha, ih (hstep s a s' hI h.1 hrun) h.2]
    | raised e s' => simp [Along, hrun, ha]
    | fault x => simp [Along, hrun, ha]

/-- Where an invariant is kept by exactly the steps that meet a condition, it holds after every step
of a run if and only if every step meets the condition. -/
theorem Along.kept_iff {allowed Q : σ → α → Prop} {run : α → Command ε σ Unit} {K J : σ → Prop}
    (hstep : ∀ s a, K s → allowed s a → ∃ s', run a s = .done () s' ∧ K s' ∧ (J s → (J s' ↔ Q s a)))
    {as : List α} {s : σ} (hK : K s) (hJ : J s) (h : Along allowed run as s) :
    Along (fun s a => ∃ s', run a s = .done () s' ∧ J s') run as s ↔ Along Q run as s := by
  induction as generalizing s with
  | nil => exact Iff.rfl
  | cons a as ih =>
    rcases hstep s a hK h.1 with ⟨s', hrun, hK', hiff⟩
    rw [along_cons hrun] at h
    rw [along_cons hrun, along_cons hrun, ← hiff hJ]
    constructor
    · rintro ⟨⟨s₁, hrun₁, hJ'⟩, hrest⟩
      cases hrun.symm.trans hrun₁
      exact ⟨hJ', (ih hK' hJ' h.2).mp hrest⟩
    · rintro ⟨hJ', hrest⟩
      exact ⟨⟨s', hrun, hJ'⟩, (ih hK' hJ' h.2).mpr hrest⟩

theorem runAll_append_done {run : α → Command ε σ Unit} {as bs : List α} {s s' : σ} :
    runAll run (as ++ bs) s = .done () s' ↔
      ∃ s₁, runAll run as s = .done () s₁ ∧ runAll run bs s₁ = .done () s' := by
  induction as generalizing s with
  | nil => simp [runAll]
  | cons a as ih =>
    rw [List.cons_append, runAll_cons_done]
    constructor
    · rintro ⟨s₁, ha, hrest⟩
      rcases ih.mp hrest with ⟨s₂, has, hbs⟩
      exact ⟨s₂, runAll_cons_done.mpr ⟨s₁, ha, has⟩, hbs⟩
    · rintro ⟨s₂, has, hbs⟩
      rcases runAll_cons_done.mp has with ⟨s₁, ha, hrest⟩
      exact ⟨s₁, ha, ih.mpr ⟨s₂, hrest, hbs⟩⟩

namespace Reachable

variable {init s s' : σ} {run : α → Command ε σ Unit} {allowed : σ → α → Prop}

/-- What holds at first and is kept by every allowed step holds throughout. -/
theorem invariant {I : σ → Prop} (h : Reachable init run allowed s) (hinit : I init)
    (hstep : ∀ s a s', I s → allowed s a → run a s = .done () s' → I s') : I s := by
  induction h with
  | init => exact hinit
  | step _ ha hrun ih => exact hstep _ _ _ ih ha hrun

/-- Where nothing is forbidden, every list of commands that returns can be added to a run. -/
theorem runAll (h : Reachable init run (fun _ _ => True) s) {l : List α}
    (hrun : Memory.runAll run l s = .done () s') : Reachable init run (fun _ _ => True) s' := by
  induction l generalizing s with
  | nil =>
    cases hrun
    exact h
  | cons a l ih =>
    rcases runAll_cons_done.mp hrun with ⟨s₁, ha, hl⟩
    exact ih (h.step trivial ha) hl

/-- A list of commands that are allowed one after the other can be added to a run. -/
theorem along (h : Reachable init run allowed s) {l : List α} (hl : Along allowed run l s)
    (hrun : Memory.runAll run l s = .done () s') : Reachable init run allowed s' := by
  induction l generalizing s with
  | nil =>
    cases hrun
    exact h
  | cons a l ih =>
    rcases runAll_cons_done.mp hrun with ⟨s₁, ha, hrest⟩
    rw [along_cons ha] at hl
    exact ih (h.step hl.1 ha) hl.2 hrest

end Reachable

end Sylar.Memory
