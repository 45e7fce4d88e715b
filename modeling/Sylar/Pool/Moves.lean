import Sylar.Pool.Model

/-! # What the steps of the pool do

One relation lists the steps of a call, with the tests they have passed; the invariants are proved
by cases on it.
-/
namespace Sylar.Pool
open Memory

/-- What `ReleasePtr` tests after it has counted the request. -/
def Spent (lim : Limits) (s : State) (c : Conn) : Prop :=
  c.connected = false ∨ c.expired lim s.clock ∨ c.request + 1 ≥ lim.maxRequest.toUInt64

/-- The steps of the call `i`, by the stage it is in. -/
inductive Move (lim : Limits) (s : State) (i : ℕ) : Stage → State → Prop where
  | take {now : UInt64} {ptr : Option ℕ} {invalid rest : List ℕ}
      (hconns : s.conns = invalid ++ ptr.toList ++ rest)
      (hfound : ∀ p, ptr = some p → ∃ c, s.heap.get p = some c ∧ c.connected = true ∧
        c.expired lim now = false) :
      Move lim s i (.entered now) (((s.putConns rest).record (takeOf now ptr s)).goto i
        (.purging ptr invalid invalid.length))
  | delete {ptr : Option ℕ} {p : ℕ} {todo : List ℕ} {size : ℕ} {c : Conn}
      (hget : s.heap.get p = some c) :
      Move lim s i (.purging ptr (p :: todo) size) ((s.free p).goto i (.purging ptr todo size))
  | reuse {p size : ℕ} : Move lim s i (.purging (some p) [] size)
      ((s.putTotal (s.total - UInt32.ofNat size)).handOut i p)
  | miss {size : ℕ} : Move lim s i (.purging none [] size)
      ((s.putTotal (s.total - UInt32.ofNat size)).goto i .testing)
  | full (htotal : s.total ≥ lim.maxSize) : Move lim s i .testing (s.goto i (.finished none))
  | pass (htotal : ¬s.total ≥ lim.maxSize) : Move lim s i .testing (s.goto i .connecting)
  | connect : Move lim s i .connecting (s.alloc.goto i (.counting s.heap.brk))
  | fail : Move lim s i .connecting (s.goto i (.finished none))
  | count {p : ℕ} : Move lim s i (.counting p) ((s.putTotal (s.total + 1)).handOut i p)
  | spend {p : ℕ} {c : Conn} (hget : s.heap.get p = some c) (hspent : Spent lim s c) :
      Move lim s i (.releasing p)
        ((s.putConn p { c with request := c.request + 1 }).goto i (.discarding p))
  | keep {p : ℕ} {c : Conn} (hget : s.heap.get p = some c) (hspent : ¬Spent lim s c) :
      Move lim s i (.releasing p)
        ((s.putConn p { c with request := c.request + 1 }).goto i (.returning p))
  | discard {p : ℕ} {c : Conn} (hget : s.heap.get p = some c) :
      Move lim s i (.discarding p) ((s.free p).goto i .uncounting)
  | uncount : Move lim s i .uncounting ((s.putTotal (s.total - 1)).goto i (.finished none))
  | putBack {p : ℕ} : Move lim s i (.returning p)
      ((s.putConns (s.conns ++ [p])).goto i (.finished none))
  | rest {r : Option ℕ} : Move lim s i (.finished r) s

section Inversion

variable {lim : Limits} {s s' : State} {i p : ℕ} {ok : Bool} {c : Conn} {now : UInt64}
  {stage : Stage}

theorem deref_done (h : s.heap.get p = some c) : deref p s = .done c s := Command.lookup_done h

theorem delete_inv (h : delete p s = .done () s') : s' = s.free p ∧ ∃ c, s.heap.get p = some c := by
  rcases Command.bind_eq_done.mp h with ⟨c, s₁, hderef, hfree⟩
  rcases Command.lookup_inv hderef with ⟨hs₁, hget⟩
  rw [hs₁] at hfree
  cases hfree
  exact ⟨rfl, c, hget⟩

/-- The list is cut into the invalid connections, the one that is found and the rest. -/
theorem scan_inv {l : List ℕ} {ptr : Option ℕ} {invalid rest : List ℕ}
    (h : scan lim now l s = .done (ptr, invalid, rest) s') :
    s' = s ∧ l = invalid ++ ptr.toList ++ rest ∧
      ∀ p, ptr = some p → ∃ c, s.heap.get p = some c ∧ c.connected = true ∧
        c.expired lim now = false := by
  induction l generalizing ptr invalid rest s' with
  | nil =>
    cases h
    exact ⟨rfl, rfl, by simp⟩
  | cons p l ih =>
    rw [scan] at h
    rcases Command.bind_eq_done.mp h with ⟨c, s₁, hderef, htest⟩
    rcases Command.lookup_inv hderef with ⟨hs₁, hget⟩
    rw [hs₁, Command.ite_apply] at htest
    by_cases hinvalid : c.connected = false ∨ c.expired lim now = true
    · rw [if_pos hinvalid] at htest
      rcases Command.bind_eq_done.mp htest with ⟨⟨ptr', invalid', rest'⟩, s₂, hscan, hret⟩
      cases hret
      rcases ih hscan with ⟨hs₂, hl, hfound⟩
      exact ⟨hs₂, by rw [hl, List.cons_append, List.cons_append], hfound⟩
    · rw [if_neg hinvalid] at htest
      cases htest
      refine ⟨rfl, rfl, ?_⟩
      rintro q ⟨⟩
      rw [not_or, Bool.not_eq_false, Bool.not_eq_true] at hinvalid
      exact ⟨c, hget, hinvalid⟩

theorem scan_done {l : List ℕ} (h : ∀ p ∈ l, ∃ c, s.heap.get p = some c) :
    ∃ r, scan lim now l s = .done r s := by
  induction l with
  | nil => exact ⟨_, rfl⟩
  | cons p l ih =>
    rcases h p List.mem_cons_self with ⟨c, hget⟩
    rcases ih fun q hq => h q (List.mem_cons_of_mem _ hq) with ⟨r, hr⟩
    rw [scan, Command.bind_done (deref_done hget), Command.ite_apply]
    by_cases hinvalid : c.connected = false ∨ c.expired lim now = true
    · rw [if_pos hinvalid, Command.bind_done hr]
      exact ⟨_, rfl⟩
    · rw [if_neg hinvalid]
      exact ⟨_, rfl⟩

theorem take_inv (h : take lim i now s = .done () s') : Move lim s i (.entered now) s' := by
  rw [take, Command.state_bind_apply] at h
  rcases Command.bind_eq_done.mp h with ⟨⟨ptr, invalid, rest⟩, s₁, hscan, hrest⟩
  rcases scan_inv hscan with ⟨hs₁, hconns, hfound⟩
  rw [hs₁] at hrest
  cases hrest
  exact .take hconns hfound

theorem releasing_inv (h : (Stage.releasing p).run lim i ok s = .done () s') :
    Move lim s i (.releasing p) s' := by
  rw [Stage.run, Command.state_bind_apply] at h
  rcases Command.bind_eq_done.mp h with ⟨c, s₁, hderef, htest⟩
  rcases Command.lookup_inv hderef with ⟨hs₁, hget⟩
  rw [hs₁, Command.modify_bind_apply, Command.ite_apply] at htest
  by_cases hspent : c.connected = false ∨ c.expired lim s.clock = true ∨
      c.request + 1 ≥ lim.maxRequest.toUInt64
  · rw [if_pos hspent] at htest
    cases htest
    exact .spend hget hspent
  · rw [if_neg hspent] at htest
    cases htest
    exact .keep hget hspent

theorem run_move (h : stage.run lim i ok s = .done () s') : Move lim s i stage s' := by
  cases stage with
  | entered now => exact take_inv h
  | purging ptr todo size =>
    cases todo with
    | nil =>
      cases ptr with
      | none =>
        cases h
        exact .miss
      | some p =>
        cases h
        exact .reuse
    | cons p todo =>
      rcases Command.bind_eq_done.mp h with ⟨_, s₁, hdelete, hgoto⟩
      rcases delete_inv hdelete with ⟨hs₁, c, hget⟩
      rw [hs₁] at hgoto
      cases hgoto
      exact .delete hget
  | testing =>
    rw [Stage.run, Command.state_bind_apply, Command.ite_apply] at h
    by_cases htotal : s.total ≥ lim.maxSize
    · rw [if_pos htotal] at h
      cases h
      exact .full htotal
    · rw [if_neg htotal] at h
      cases h
      exact .pass htotal
  | connecting =>
    cases ok with
    | true =>
      cases h
      exact .connect
    | false =>
      cases h
      exact .fail
  | counting p =>
    cases h
    exact .count
  | releasing p => exact releasing_inv h
  | discarding p =>
    rcases Command.bind_eq_done.mp h with ⟨_, s₁, hdelete, hgoto⟩
    rcases delete_inv hdelete with ⟨hs₁, c, hget⟩
    rw [hs₁] at hgoto
    cases hgoto
    exact .discard hget
  | uncounting =>
    cases h
    exact .uncount
  | returning p =>
    cases h
    exact .putBack
  | finished r =>
    cases h
    exact .rest

end Inversion

end Sylar.Pool
