import Sylar.Memory.Agree

/-! # Successive calls

A receiver is called once for every message of a stream. What it returns is compared with what
the stream delivers: groups of messages, of which one call uses up one group.
-/
namespace Sylar.Memory.Command

variable {ε σ ρ α : Type}

/-- The answers of calls that follow each other. -/
def inSuccession : List (Command ε σ α) → Command ε σ (List α)
  | [] => pure []
  | c :: cs => do
    let a ← c
    let as ← inSuccession cs
    pure (a :: as)

theorem inSuccession_cons {c : Command ε σ α} {cs : List (Command ε σ α)} {s s' : σ} {a : α}
    (h : c s = .done a s') {as : List α} :
    (inSuccession (c :: cs) s).answer = .done as () ↔
      ∃ as', as = a :: as' ∧ (inSuccession cs s').answer = .done as' () := by
  rw [inSuccession, bind_done h, bind_apply]
  cases inSuccession cs s' with
  | done as' s'' => simp [Outcome.answer, eq_comm]
  | raised e s'' => simp [Outcome.answer]
  | fault f => simp [Outcome.answer]

/-- A call returns the first message of the first group; the rest of the group is gone. -/
structure TakesFirst (ready : List (List ρ) → σ → Prop) (value : ρ → α)
    (c : Command ε σ (Option α)) : Prop where
  first : ∀ {r rs ds s}, ready ((r :: rs) :: ds) s →
    ∃ s', c s = .done (some (value r)) s' ∧ ready ds s'
  nothing : ∀ {s}, ready [] s → ∃ s', c s = .done none s'

variable {ready : List (List ρ) → σ → Prop} {value : ρ → α} {cs : List (Command ε σ (Option α))}
  {ds : List (List ρ)} {s : σ}

theorem length_le_of_answers (hcs : ∀ c ∈ cs, TakesFirst ready value c) (hne : ∀ d ∈ ds, d ≠ [])
    (hs : ready ds s) {rs : List ρ}
    (h : (inSuccession cs s).answer = .done (rs.map fun r => some (value r)) ()) :
    rs.length ≤ ds.length := by
  induction cs generalizing ds s rs with
  | nil =>
    have hrs : [] = rs.map fun r => some (value r) := (Outcome.done.inj h).1
    rw [List.map_eq_nil_iff.mp hrs.symm]
    exact Nat.zero_le _
  | cons c cs ih =>
    rw [List.forall_mem_cons] at hcs
    cases rs with
    | nil => exact Nat.zero_le _
    | cons r rs =>
      cases ds with
      | nil =>
        obtain ⟨s', hc⟩ := hcs.1.nothing hs
        obtain ⟨as, hrs, -⟩ := (inSuccession_cons hc).mp h
        simp at hrs
      | cons d ds =>
        rw [List.forall_mem_cons] at hne
        obtain ⟨r', d, rfl⟩ := List.exists_cons_of_ne_nil hne.1
        obtain ⟨s', hc, hs'⟩ := hcs.1.first hs
        obtain ⟨as, hrs, h⟩ := (inSuccession_cons hc).mp h
        rw [← (List.cons.inj hrs).2] at h
        exact Nat.succ_le_succ (ih hcs.2 hne.2 hs' h)

theorem length_le_flatten (hne : ∀ d ∈ ds, d ≠ []) : ds.length ≤ ds.flatten.length := by
  induction ds with
  | nil => exact Nat.le_refl _
  | cons d ds ih =>
    rw [List.forall_mem_cons] at hne
    have := List.length_pos_iff.mpr hne.1
    have := ih hne.2
    rw [List.length_cons, List.flatten_cons, List.length_append]
    omega

/-- The calls return the messages that were delivered exactly if none came with another one. -/
theorem inSuccession_iff (hcs : ∀ c ∈ cs, TakesFirst ready value c) (hne : ∀ d ∈ ds, d ≠ [])
    (hs : ready ds s) (hlen : cs.length = ds.flatten.length) :
    (inSuccession cs s).answer = .done (ds.flatten.map fun r => some (value r)) () ↔
      ∀ d ∈ ds, d.length = 1 := by
  induction ds generalizing cs s with
  | nil =>
    rw [List.flatten_nil, List.length_nil, List.length_eq_zero_iff] at hlen
    subst hlen
    simp [inSuccession, Outcome.answer]
  | cons d ds ih =>
    rw [List.forall_mem_cons] at hne
    obtain ⟨r, rs, rfl⟩ := List.exists_cons_of_ne_nil hne.1
    rw [List.flatten_cons, List.length_append, List.length_cons] at hlen
    obtain ⟨c, cs, rfl⟩ := List.exists_cons_of_length_pos (l := cs) (by omega)
    rw [List.forall_mem_cons] at hcs
    obtain ⟨s', hc, hs'⟩ := hcs.1.first hs
    have hrest : (inSuccession (c :: cs) s).answer =
          .done (((r :: rs) :: ds).flatten.map fun r => some (value r)) () ↔
        (inSuccession cs s').answer = .done ((rs ++ ds.flatten).map fun r => some (value r)) () := by
      rw [inSuccession_cons hc, List.flatten_cons, List.cons_append, List.map_cons]
      simp
    rw [hrest, List.forall_mem_cons, List.length_cons]
    rw [List.length_cons] at hlen
    cases rs with
    | nil =>
      rw [List.nil_append, ih hcs.2 hne.2 hs' (by rw [List.length_nil] at hlen; omega)]
      simp
    | cons r' rs =>
      -- more messages are left than groups
      constructor
      · intro h
        have hle := length_le_of_answers hcs.2 hne.2 hs' h
        have := length_le_flatten hne.2
        rw [List.length_append, List.length_cons] at hle
        omega
      · intro h
        simp at h

end Sylar.Memory.Command
