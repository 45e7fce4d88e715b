import Sylar.Timers.Runs

/-! # What the calls on a timer report

`cancel`, `refresh` and `reset` report whether the timer was registered. They decide it by the
callback, which a timer may lack from the start, and `reset` reports success before it looks if
nothing is to be changed. The runs here also add timers without a callback.
-/
namespace Sylar.Timers
open Memory TimerManager

variable {C W : Type}

inductive Call where
  | cancel
  | refresh (now : UInt64)
  | reset (ms : UInt64) (fromNow : Bool) (now : UInt64)
deriving DecidableEq

namespace Call

def run (p : ℕ) : Call → Cmd (Callback C W) Bool
  | .cancel => Timers.cancel p
  | .refresh now => Timers.refresh p now
  | .reset ms fromNow now => Timers.reset p ms fromNow now

def requested (t : Timer (Callback C W)) : Call → Timer (Callback C W)
  | .cancel => { t with cb := none }
  | .refresh now => { t with next := now + t.ms }
  | .reset ms fromNow now => t.reset ms fromNow now

/-- The call returns, and reports whether the timer was registered; the timer is then registered
as requested, unless it was cancelled, and nothing has changed otherwise. -/
def Truthful (p : ℕ) (t : Timer (Callback C W)) (c : Call) (s : Manager C W) : Prop :=
  ∃ b s', c.run p s = .done b s' ∧ (b = true ↔ p ∈ s.timers) ∧
    (b = true → c ≠ .cancel → p ∈ s'.timers ∧ s'.heap p = some (c.requested t)) ∧
    (b = false → s'.timers = s.timers ∧ s'.heap = s.heap)

/-- A registered timer has a callback; where `reset` has nothing to change the timer is
registered. -/
def Answerable (t : Timer (Callback C W)) (registered : Prop) : Call → Prop
  | .cancel => registered → t.cb.isSome
  | .refresh _ => registered → t.cb.isSome
  | .reset ms fromNow _ =>
    if ms = t.ms ∧ fromNow = false then registered else registered → t.cb.isSome

end Call

variable {s : Manager C W} {p : ℕ} {t : Timer (Callback C W)} {c : Call}

theorem kept_of_reachable {start : UInt64} (h : Reachable (init start) Op.run Op.Legal s) :
    Kept s :=
  h.invariant (kept_init start) fun _ _ _ h ha hrun => (h.step ha hrun).1

/-- A timer without a callback is reported as gone. -/
theorem truthful_of_spent (hrun : c.run p s = .done false s) :
    c.Truthful p t s ↔ p ∉ s.timers := by
  constructor
  · rintro ⟨b, s', hrun', hb, -⟩
    rw [hrun, Outcome.done.injEq] at hrun'
    rw [← hb, ← hrun'.1]
    exact Bool.false_ne_true
  · intro hp
    refine ⟨false, s, hrun, ?_, nofun, fun _ => ⟨rfl, rfl⟩⟩
    simp [hp]

/-- A registered timer with a callback becomes what was requested. -/
theorem truthful_of_armed {s' : Manager C W} {mem : ℕ → Prop} (hrun : c.run p s = .done true s')
    (hp : p ∈ s.timers) (hmem : c ≠ .cancel → mem p)
    (h : After s' (Function.update s.heap p (some (c.requested t))) mem) : c.Truthful p t s := by
  refine ⟨true, s', hrun, by simp [hp], fun _ hc => ⟨?_, ?_⟩, nofun⟩
  · exact (h.mem_iff p).mpr (hmem hc)
  · rw [h.heap_eq, Function.update_self]

theorem Timer.reset_same (t : Timer (Callback C W)) (now : UInt64) : t.reset t.ms false now = t := by
  rw [Timer.reset, if_neg Bool.false_ne_true, UInt64.sub_add_cancel]

/-- In every state of every run the three calls report whether the timer was registered exactly
for the timers and arguments described. -/
theorem truthful_iff {start : UInt64} (h : Reachable (init start) Op.run Op.Legal s)
    (ht : s.heap p = some t) (c : Call) : c.Truthful p t s ↔ c.Answerable t (p ∈ s.timers) := by
  have hkept := kept_of_reachable h
  have hspent (hrun : c.run p s = .done false s) (hcb : t.cb = none) :
      c.Truthful p t s ↔ (p ∈ s.timers → t.cb.isSome) := by
    rw [truthful_of_spent hrun]
    simp [hcb]
  cases c with
  | cancel =>
    by_cases hcb : t.cb.isSome
    · have hp := hkept.armed p t ht hcb
      rcases cancel_armed hkept.toOrdered ht hcb hp with ⟨s', hrun, hafter⟩
      have htrue := truthful_of_armed (c := .cancel) hrun hp (fun h => absurd rfl h) hafter
      exact ⟨fun _ _ => hcb, fun _ => htrue⟩
    · rw [Option.not_isSome_iff_eq_none] at hcb
      exact hspent (cancel_spent ht hcb) hcb
  | refresh now =>
    by_cases hcb : t.cb.isSome
    · have hp := hkept.armed p t ht hcb
      rcases refresh_armed now hkept.toOrdered ht hcb hp with ⟨s', hrun, hafter⟩
      have htrue := truthful_of_armed (c := .refresh now) hrun hp (fun _ => hp) hafter
      exact ⟨fun _ _ => hcb, fun _ => htrue⟩
    · rw [Option.not_isSome_iff_eq_none] at hcb
      exact hspent (refresh_spent now ht hcb) hcb
  | reset ms fromNow now =>
    rw [Call.Answerable]
    split_ifs with hsame
    · have hrun := reset_same now ms ht hsame
      constructor
      · rintro ⟨b, s', hrun', hb, -⟩
        cases hrun.symm.trans hrun'
        exact hb.mp rfl
      · intro hp
        refine ⟨true, s, hrun, by simp [hp], fun _ _ => ⟨hp, ?_⟩, nofun⟩
        rw [Call.requested, hsame.1, hsame.2, Timer.reset_same, ht]
    · by_cases hcb : t.cb.isSome
      · have hp := hkept.armed p t ht hcb
        rcases reset_armed now ms hkept.toOrdered ht hcb hp hsame with ⟨s', hrun, hafter⟩
        have htrue := truthful_of_armed (c := .reset ms fromNow now) hrun hp (fun _ => hp) hafter
        exact ⟨fun _ _ => hcb, fun _ => htrue⟩
      · rw [Option.not_isSome_iff_eq_none] at hcb
        exact hspent (reset_spent now ms ht hcb hsame) hcb

/-- A timer that was added and then given a longer interval. -/
theorem truthful_iff_reset : ∃ s : Manager Unit Unit, s.timers = [0] ∧
    Call.Truthful 0 (.new 5 (some (.plain ())) false 1) (.reset 7 true 2) s := by
  have hinit : Reachable (init 0) Op.run Op.Legal (init 0 : Manager Unit Unit) := .init
  have h := hinit.step (show Op.Legal _ (.addTimer 0 5 (some (.plain ())) false 1) from rfl) rfl
  exact ⟨_, by decide, (truthful_iff h rfl (.reset 7 true 2)).mpr fun _ => rfl⟩

/-- A timer that was cancelled: `reset` to the interval it had reports success. -/
theorem reset_reports_cancelled : ∃ s : Manager Unit Unit,
    Reachable (init 0) Op.run Op.Legal s ∧ s.timers = [] ∧
      s.heap 0 = some (.new 5 none false 1) ∧ reset 0 5 false 2 s = .done true s ∧
      ¬Call.Truthful 0 (.new 5 none false 1) (.reset 5 false 2) s := by
  have hinit : Reachable (init 0) Op.run Op.Legal (init 0 : Manager Unit Unit) := .init
  have h₁ := hinit.step (show Op.Legal _ (.addTimer 0 5 (some (.plain ())) false 1) from rfl) rfl
  have h₂ := h₁.step (show Op.Legal _ (.cancel 0) from rfl) rfl
  refine ⟨_, h₂, by decide, rfl, rfl, ?_⟩
  rintro ⟨b, s', hrun, hb, -⟩
  cases hrun
  exact absurd (hb.mp rfl) (by decide)

end Sylar.Timers
