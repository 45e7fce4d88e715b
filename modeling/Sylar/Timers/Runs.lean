import Mathlib.Algebra.Group.Nat.Defs
import Sylar.Memory.Agree
import Sylar.Timers.Expiry

/-! # Runs of the timer manager

A run is any sequence of calls with any clock readings; objects are placed at addresses that are
not in use, and freed when neither the set nor a caller refers to them. The set stays in order
throughout. With the times at which the timers were started beside the state, a callback is not
handed out before its deadline as long as no sum of a reading and an interval overflows.
-/
namespace Sylar.Timers
open Memory TimerManager

variable {C W : Type}

inductive Op (C W : Type) where
  | addTimer (p : ℕ) (ms : UInt64) (cb : Option (Callback C W)) (recurring : Bool) (now : UInt64)
  | addConditionTimer (p : ℕ) (ms : UInt64) (cb : Option C) (cond : W) (recurring : Bool)
      (now : UInt64)
  | cancel (p : ℕ)
  | refresh (p : ℕ) (now : UInt64)
  | reset (p : ℕ) (ms : UInt64) (fromNow : Bool) (now : UInt64)
  | listExpiredCb (a : ℕ) (now : UInt64)
  | getNextTimer (now : UInt64)
  | free (p : ℕ)

abbrev Manager (C W : Type) := TimerManager (Callback C W)

namespace Op

def run : Op C W → Cmd (Callback C W) Unit
  | .addTimer p ms cb recurring now => do let _ ← Timers.addTimer p ms cb recurring now
  | .addConditionTimer p ms cb cond recurring now => do
    let _ ← Timers.addConditionTimer p ms cb cond recurring now
  | .cancel p => do let _ ← Timers.cancel p
  | .refresh p now => do let _ ← Timers.refresh p now
  | .reset p ms fromNow now => do let _ ← Timers.reset p ms fromNow now
  | .listExpiredCb a now => do let _ ← Timers.listExpiredCb a now
  | .getNextTimer now => do let _ ← Timers.getNextTimer now
  | .free p => Command.modify fun s => { s with heap := Function.update s.heap p none }

/-- New objects are placed at free addresses and have a callback; the others are alive. -/
def Allowed (s : Manager C W) : Op C W → Prop
  | .addTimer p _ cb _ _ => s.heap p = none ∧ cb.isSome
  | .addConditionTimer p _ _ _ _ _ => s.heap p = none
  | .cancel p => (s.heap p).isSome
  | .refresh p _ => (s.heap p).isSome
  | .reset p _ _ _ => (s.heap p).isSome
  | .listExpiredCb a _ => s.heap a = none
  | .getNextTimer _ => True
  | .free p => p ∉ s.timers

/-- The same without the condition on the callback. -/
def Legal (s : Manager C W) : Op C W → Prop
  | .addTimer p _ _ _ _ => s.heap p = none
  | o => o.Allowed s

theorem Allowed.legal {s : Manager C W} {o : Op C W} (h : o.Allowed s) : o.Legal s := by
  cases o with
  | addTimer p ms cb recurring now => exact h.1
  | _ => exact h

end Op

variable {s s' : Manager C W} {o : Op C W}

theorem getNextTimer_spec (s : Manager C W) (now : UInt64) :
    ∃ r, getNextTimer now s = .done r (s.putTickled false) := by
  rw [getNextTimer, Command.modify_bind_apply, Command.state_bind_apply]
  cases h : (putTickled false s).timers with
  | nil => exact ⟨_, rfl⟩
  | cons p l =>
    dsimp only
    split_ifs
    · exact ⟨_, rfl⟩
    · exact ⟨_, rfl⟩

def Op.heapAfter (s : Manager C W) : Op C W → ℕ → Option (Timer (Callback C W))
  | .addTimer p ms cb recurring now =>
    Function.update s.heap p (some (.new ms cb recurring now))
  | .addConditionTimer p ms cb cond recurring now =>
    Function.update s.heap p (some (.new ms (some (.onTimer cond cb)) recurring now))
  | .cancel p => Function.update s.heap p ((s.heap p).map fun t => { t with cb := none })
  | .refresh p now => Function.update s.heap p ((s.heap p).map fun t =>
      if t.cb.isSome then { t with next := now + t.ms } else t)
  | .reset p ms fromNow now => Function.update s.heap p ((s.heap p).map fun t =>
      if ¬(ms = t.ms ∧ fromNow = false) ∧ t.cb.isSome then t.reset ms fromNow now else t)
  | .listExpiredCb a now => fun q =>
    if q ∈ expired s a now then (s.heap q).map (·.handedOut now) else s.heap q
  | .getNextTimer _ => s.heap
  | .free p => Function.update s.heap p none

def Op.Registers (s : Manager C W) : Op C W → ℕ → Prop
  | .addTimer p _ _ _ _, q => q = p ∨ q ∈ s.timers
  | .addConditionTimer p _ _ _ _ _, q => q = p ∨ q ∈ s.timers
  | .cancel p, q => q ∈ s.timers ∧ (q = p → ∀ t, s.heap p = some t → t.cb = none)
  | .listExpiredCb a now, q => q ∈ s.timers ∧
      (q ∈ expired s a now → ∃ t, s.heap q = some t ∧ t.recurring = true)
  | _, q => q ∈ s.timers

theorem Ordered.after (h : Ordered s) : After s s.heap (· ∈ s.timers) := ⟨h, rfl, fun _ => .rfl⟩

/-- A call returns and leaves the set in order. -/
theorem Kept.run (h : Kept s) (ha : o.Legal s) :
    ∃ s', o.run s = .done () s' ∧ After s' (o.heapAfter s) (o.Registers s) := by
  cases o with
  | addTimer p ms cb recurring now =>
    rcases addTimer_spec now ms h.toOrdered ha cb recurring with ⟨b, s', hrun, hafter⟩
    exact ⟨s', Command.bind_done hrun _, hafter⟩
  | addConditionTimer p ms cb cond recurring now =>
    rcases addTimer_spec now ms h.toOrdered ha (some (.onTimer cond cb)) recurring with
      ⟨b, s', hrun, hafter⟩
    exact ⟨s', Command.bind_done (c := addConditionTimer p ms cb cond recurring now) hrun _, hafter⟩
  | cancel p =>
    rcases Option.isSome_iff_exists.mp ha with ⟨t, ht⟩
    rw [Op.heapAfter, ht, Option.map_some]
    by_cases hcb : t.cb.isSome
    · rcases cancel_armed h.toOrdered ht hcb (h.armed p t ht hcb) with
        ⟨s', hrun, hordered, hheap, hmem⟩
      refine ⟨s', Command.bind_done hrun _, hordered, hheap, fun q => ?_⟩
      rw [hmem, Op.Registers]
      simp [ht, Option.isSome_iff_ne_none.mp hcb]
    · rw [Option.not_isSome_iff_eq_none] at hcb
      have hsame : { t with cb := none } = t := by rw [← hcb]
      refine ⟨s, Command.bind_done (cancel_spent ht hcb) _, h.toOrdered, ?_, fun q => ?_⟩
      · rw [hsame, ← ht, Function.update_eq_self]
      · rw [Op.Registers]
        simp [ht, hcb]
  | refresh p now =>
    rcases Option.isSome_iff_exists.mp ha with ⟨t, ht⟩
    rw [Op.heapAfter, ht, Option.map_some]
    split_ifs with hcb
    · rcases refresh_armed now h.toOrdered ht hcb (h.armed p t ht hcb) with ⟨s', hrun, hafter⟩
      exact ⟨s', Command.bind_done hrun _, hafter⟩
    · rw [Option.not_isSome_iff_eq_none] at hcb
      rw [← ht, Function.update_eq_self]
      exact ⟨s, Command.bind_done (refresh_spent now ht hcb) _, h.toOrdered.after⟩
  | reset p ms fromNow now =>
    rcases Option.isSome_iff_exists.mp ha with ⟨t, ht⟩
    rw [Op.heapAfter, ht, Option.map_some]
    by_cases hsame : ms = t.ms ∧ fromNow = false
    · rw [if_neg (fun h => h.1 hsame), ← ht, Function.update_eq_self]
      exact ⟨s, Command.bind_done (reset_same now ms ht hsame) _, h.toOrdered.after⟩
    · by_cases hcb : t.cb.isSome
      · rw [if_pos ⟨hsame, hcb⟩]
        rcases reset_armed now ms h.toOrdered ht hcb (h.armed p t ht hcb) hsame with
          ⟨s', hrun, hafter⟩
        exact ⟨s', Command.bind_done hrun _, hafter⟩
      · rw [if_neg (fun h => hcb h.2), ← ht, Function.update_eq_self]
        rw [Option.not_isSome_iff_eq_none] at hcb
        exact ⟨s, Command.bind_done (reset_spent now ms ht hcb hsame) _, h.toOrdered.after⟩
  | listExpiredCb a now =>
    rcases listExpiredCb_spec now h.toOrdered a with ⟨s', hrun, hafter⟩
    exact ⟨s', Command.bind_done hrun _, hafter⟩
  | getNextTimer now =>
    rcases getNextTimer_spec s now with ⟨r, hrun⟩
    exact ⟨_, Command.bind_done hrun _, h.toOrdered.after.putTickled false⟩
  | free p => exact ⟨_, rfl, h.toOrdered.update ha none, rfl, fun _ => .rfl⟩

/-- After a call a timer has the callback and the registration it had, has lost both, or is new. -/
inductive Op.Fate (s : Manager C W) (o : Op C W) (q : ℕ) (t : Timer (Callback C W)) : Prop where
  | kept {u : Timer (Callback C W)} (old : s.heap q = some u) (cb : t.cb = u.cb)
      (mem : o.Registers s q ↔ q ∈ s.timers)
  | spent (cb : t.cb = none) (out : ¬o.Registers s q)
  | new (mem : o.Registers s q) (cb : o.Allowed s → t.cb.isSome)

theorem Op.fate {q : ℕ} {t : Timer (Callback C W)} (ht : o.heapAfter s q = some t) :
    o.Fate s q t := by
  have hupdate {p : ℕ} {f : Timer (Callback C W) → Timer (Callback C W)}
      (hf : ∀ t, (f t).cb = t.cb) (hmem : o.Registers s q ↔ q ∈ s.timers)
      (ht : Function.update s.heap p ((s.heap p).map f) q = some t) : o.Fate s q t := by
    by_cases hq : q = p
    · rw [hq, Function.update_self] at ht
      rcases Option.map_eq_some_iff.mp ht with ⟨u, hu, rfl⟩
      exact .kept (hq ▸ hu) (hf u) hmem
    · rw [Function.update_of_ne hq] at ht
      exact .kept ht rfl hmem
  cases o with
  | addTimer p ms cb recurring now =>
    rw [Op.heapAfter] at ht
    by_cases hq : q = p
    · rw [hq, Function.update_self] at ht
      cases ht
      exact .new (.inl hq) fun ha => ha.2
    · rw [Function.update_of_ne hq] at ht
      exact .kept ht rfl (or_iff_right hq)
  | addConditionTimer p ms cb cond recurring now =>
    rw [Op.heapAfter] at ht
    by_cases hq : q = p
    · rw [hq, Function.update_self] at ht
      cases ht
      exact .new (.inl hq) fun _ => rfl
    · rw [Function.update_of_ne hq] at ht
      exact .kept ht rfl (or_iff_right hq)
  | cancel p =>
    rw [Op.heapAfter] at ht
    by_cases hq : q = p
    · rw [hq, Function.update_self] at ht
      rcases Option.map_eq_some_iff.mp ht with ⟨u, hu, rfl⟩
      by_cases hcb : u.cb = none
      · refine .kept (hq ▸ hu) hcb.symm (and_iff_left fun _ v hv => ?_)
        cases hu.symm.trans hv
        exact hcb
      · exact .spent rfl fun hmem => hcb (hmem.2 hq u hu)
    · rw [Function.update_of_ne hq] at ht
      exact .kept ht rfl (and_iff_left fun hq' => absurd hq' hq)
  | refresh p now => exact hupdate (fun t => by split_ifs <;> rfl) .rfl ht
  | reset p ms fromNow now => exact hupdate (fun t => by split_ifs <;> rfl) .rfl ht
  | listExpiredCb a now =>
    rw [Op.heapAfter] at ht
    dsimp only at ht
    split_ifs at ht with hout
    · rcases Option.map_eq_some_iff.mp ht with ⟨u, hu, rfl⟩
      rw [Timer.handedOut]
      split_ifs with hrec
      · exact .kept hu rfl (and_iff_left fun _ => ⟨u, hu, hrec⟩)
      · refine .spent rfl fun hmem => ?_
        rcases hmem.2 hout with ⟨v, hv, hrec'⟩
        cases hu.symm.trans hv
        exact hrec hrec'
    · exact .kept ht rfl (and_iff_left fun hq => absurd hq hout)
  | getNextTimer now => exact .kept ht rfl .rfl
  | free p =>
    rw [Op.heapAfter] at ht
    by_cases hq : q = p
    · simp [hq] at ht
    · rw [Function.update_of_ne hq] at ht
      exact .kept ht rfl .rfl

theorem Kept.step (h : Kept s) (ha : o.Legal s) (hrun : o.run s = .done () s') :
    Kept s' ∧ After s' (o.heapAfter s) (o.Registers s) := by
  rcases h.run ha with ⟨s₁, hrun₁, hafter⟩
  rw [hrun, Outcome.done.injEq] at hrun₁
  rw [← hrun₁.2] at hafter
  refine ⟨⟨hafter.ordered, fun q t ht hcb => ?_⟩, hafter⟩
  rw [hafter.heap_eq] at ht
  rw [hafter.mem_iff]
  cases Op.fate ht with
  | kept old cb mem => exact mem.mpr (h.armed q _ old (cb ▸ hcb))
  | spent cb out => simp [cb] at hcb
  | new mem cb => exact mem

theorem Good.step (h : Good s) (ha : o.Allowed s) (hrun : o.run s = .done () s') :
    Good s' ∧ s'.heap = o.heapAfter s := by
  rcases h.kept.step ha.legal hrun with ⟨hkept, hafter⟩
  refine ⟨⟨hkept.alive, fun q t _ ht => ⟨fun hq => ?_, hkept.armed q t ht⟩, hkept.sorted, nofun⟩,
    hafter.heap_eq⟩
  rw [hafter.heap_eq] at ht
  rw [hafter.mem_iff] at hq
  cases Op.fate ht with
  | kept old cb mem => exact cb ▸ (h.mem_iff old).mp (mem.mp hq)
  | spent cb out => exact absurd hq out
  | new mem cb => exact cb ha

theorem good_of_reachable {now : UInt64} (h : Reachable (init now) Op.run Op.Allowed s) : Good s :=
  h.invariant (good_init now) fun _ _ _ h ha hrun => (h.step ha hrun).1

/-- In every state of every run the set holds the timers that have a callback, each once and in
the order of their deadlines; `cancel` finds the timer, and no call faults. -/
theorem timers_registered {now : UInt64} (h : Reachable (init now) Op.run Op.Allowed s) :
    (∀ p ∈ s.timers, ∃ t, s.heap p = some t) ∧
      (∀ p t, s.heap p = some t → (p ∈ s.timers ↔ t.cb.isSome)) ∧
      s.timers.Pairwise (fun p q => (nextOf s.heap p).toNat < (nextOf s.heap q).toNat ∨
        nextOf s.heap p = nextOf s.heap q ∧ p < q) ∧
      s.timers.Nodup ∧
      (∀ p t, s.heap p = some t → t.cb.isSome →
        ∃ i, (s.store p { t with cb := none }).find p = some i ∧ s.timers[i]? = some p) ∧
      ∀ o : Op C W, o.Allowed s → ∃ s', o.run s = .done () s' := by
  have hgood := good_of_reachable h
  refine ⟨hgood.alive, fun p t ht => hgood.mem_iff ht, ?_, ?_, fun p t ht hcb => ?_, fun o ha => ?_⟩
  · refine hgood.sorted.imp ?_
    intro p q hpq
    rw [less_iff, rank, rank, Prod.Lex.toLex_lt_toLex] at hpq
    exact hpq.imp_right fun h => ⟨UInt64.toNat_inj.mp h.1, h.2⟩
  · exact hgood.kept.nodup
  · obtain ⟨i, hi⟩ := hgood.kept.exists_find ((hgood.mem_iff ht).mpr hcb)
    rw [find_store ht]
    exact ⟨i, hi, SortedSet.getElem?_of_find (less_iff s.heap) (rank_injective s.heap) hi⟩
  · obtain ⟨s', hrun, -⟩ := hgood.kept.run ha.legal
    exact ⟨s', hrun⟩

theorem timers_registered_two : ∃ s : Manager Unit Unit, s.timers = [2, 5] ∧ s.timers.Nodup ∧
    ∃ i, (s.store 5 (.new 3 none false 10)).find 5 = some i ∧ s.timers[i]? = some 5 := by
  have hinit : Reachable (init 0) Op.run Op.Allowed (init 0 : Manager Unit Unit) := .init
  have ha : Op.Allowed (init 0) (.addTimer 5 3 (some (.plain ())) false 10 : Op Unit Unit) :=
    ⟨rfl, rfl⟩
  have h₁ := hinit.step ha rfl
  have h₂ := h₁.step (show Op.Allowed _ (.addConditionTimer 2 1 none () true 10) from rfl) rfl
  obtain ⟨-, -, -, hnodup, hfind, -⟩ := timers_registered h₂
  exact ⟨_, by decide, hnodup, hfind 5 (.new 3 (some (.plain ())) false 10) rfl rfl⟩

section Deadlines

/-- The manager, and beside it the reading at which each timer was started. -/
structure Watched (C W : Type) where
  manager : Manager C W
  since : ℕ → ℕ

namespace Watched

def putManager (m : Manager C W) (w : Watched C W) : Watched C W := { w with manager := m }
def putSince (f : ℕ → ℕ) (w : Watched C W) : Watched C W := { w with since := f }

end Watched

namespace Op

def since (since : ℕ → ℕ) : Op C W → ℕ → ℕ
  | .addTimer p _ _ _ now => Function.update since p now.toNat
  | .addConditionTimer p _ _ _ _ now => Function.update since p now.toNat
  | .refresh p now => Function.update since p now.toNat
  | .reset p _ fromNow now => if fromNow then Function.update since p now.toNat else since
  | _ => since

def watch (o : Op C W) : Command Empty (Watched C W) Unit := do
  Command.focus Watched.manager Watched.putManager o.run
  Command.modify fun w => w.putSince (o.since w.since)

/-- The clock has been set back by more than an hour. -/
def SetBack (previousTime now : UInt64) : Prop := now.toNat + 3600000 < previousTime.toNat

/-- The clock is not set back in the first hour of the epoch. -/
def Unwrapped (previousTime now : UInt64) : Prop :=
  3600000 ≤ previousTime.toNat ∨ previousTime.toNat ≤ now.toNat

/-- No sum of a starting time and an interval of the timer `q` overflows; as long as it is
registered the clock is not set back in the first hour of the epoch nor, if it is recurring, behind
its start. -/
def InRange (q : ℕ) (w : Watched C W) : Op C W → Prop
  | .addTimer p ms _ _ now => p = q → now.toNat + ms.toNat < 2 ^ 64
  | .addConditionTimer p ms _ _ _ now => p = q → now.toNat + ms.toNat < 2 ^ 64
  | .refresh p now => p = q → ∀ t, w.manager.heap q = some t → now.toNat + t.ms.toNat < 2 ^ 64
  | .reset p ms fromNow now => p = q → ∀ t, w.manager.heap q = some t →
      (if fromNow then now.toNat else t.next.toNat - t.ms.toNat) + ms.toNat < 2 ^ 64
  | .listExpiredCb _ now => q ∈ w.manager.timers → Unwrapped w.manager.previousTime now ∧
      ∀ t, w.manager.heap q = some t → t.recurring = true → now.toNat + t.ms.toNat < 2 ^ 64 ∧
        (SetBack w.manager.previousTime now → w.since q ≤ now.toNat)
  | _ => True

end Op

/-- As long as the timer `q` has a callback it is not due before its interval is over. -/
def Late (q : ℕ) (since : ℕ → ℕ) (heap : ℕ → Option (Timer (Callback C W))) : Prop :=
  ∀ t, heap q = some t → t.cb.isSome → since q + t.ms.toNat ≤ t.next.toNat

variable {w w' : Watched C W}

theorem toNat_add_of_lt {x y : UInt64} (h : x.toNat + y.toNat < 2 ^ 64) :
    (x + y).toNat = x.toNat + y.toNat := by
  rw [UInt64.toNat_add, Nat.mod_eq_of_lt h]

theorem toNat_sub_of_le {x y : UInt64} (h : y.toNat ≤ x.toNat) :
    (x - y).toNat = x.toNat - y.toNat :=
  UInt64.toNat_sub_of_le _ _ (UInt64.le_iff_toNat_le.mpr h)

/-- The test for the rollover is right unless the subtraction wraps. -/
theorem rolledOver_iff {previousTime now : UInt64} (h : Op.Unwrapped previousTime now) :
    rolledOver previousTime now = true ↔ Op.SetBack previousTime now := by
  have hour : (60 * 60 * 1000 : UInt64).toNat = 3600000 := by decide
  rw [rolledOver, Bool.and_eq_true, decide_eq_true_eq, decide_eq_true_eq, UInt64.lt_iff_toNat_lt,
    UInt64.lt_iff_toNat_lt, Op.SetBack]
  rcases Nat.lt_or_ge previousTime.toNat 3600000 with hlt | hge
  · have := h.resolve_left (by omega)
    omega
  · rw [toNat_sub_of_le (by rw [hour]; exact hge), hour]
    omega

/-- What is handed out is due, or the clock seems to have been set back. -/
theorem expired_due {s : Manager C W} {a : ℕ} {now : UInt64} {p : ℕ} (h : Good s)
    (ha : s.heap a = none) (hp : p ∈ expired s a now) :
    p ∈ s.timers ∧
      (rolledOver s.previousTime now = true ∨ (nextOf s.heap p).toNat ≤ now.toNat) := by
  rw [expired_eq h.kept.toOrdered ha, List.mem_filter, Bool.or_eq_true, decide_eq_true_eq,
    UInt64.le_iff_toNat_le] at hp
  exact hp

section Late

variable {since : ℕ → ℕ} {heap : ℕ → Option (Timer (Callback C W))} {p q x : ℕ}
  {t : Timer (Callback C W)}

theorem Late.update (h : Late q since heap)
    (ht : p = q → t.cb.isSome → x + t.ms.toNat ≤ t.next.toNat) :
    Late q (Function.update since p x) (Function.update heap p (some t)) := by
  intro u hu hcb
  by_cases hq : q = p
  · rw [hq, Function.update_self] at hu
    cases hu
    rw [hq, Function.update_self]
    exact ht hq.symm hcb
  · rw [Function.update_of_ne hq] at hu ⊢
    exact h u hu hcb

theorem Late.change (h : Late q since heap)
    (ht : p = q → t.cb.isSome → since p + t.ms.toNat ≤ t.next.toNat) :
    Late q since (Function.update heap p (some t)) := by
  have := h.update (p := p) ht
  rwa [Function.update_eq_self] at this

/-- A reset that keeps the start: it is recovered from the deadline. -/
theorem Late.next_reset (h : Late q since heap) (ht : heap q = some t) (hcb : t.cb.isSome)
    {ms : UInt64} (hsum : t.next.toNat - t.ms.toNat + ms.toNat < 2 ^ 64) :
    since q + ms.toNat ≤ (t.next - t.ms + ms).toNat := by
  have hlate := h t ht hcb
  have hsub : (t.next - t.ms).toNat = t.next.toNat - t.ms.toNat := toNat_sub_of_le (by omega)
  rw [toNat_add_of_lt (by rw [hsub]; exact hsum), hsub]
  omega

/-- A recurring timer that is handed out starts again at the reading, which is not before its
start. -/
theorem Late.next_handedOut {s : Manager C W} {a : ℕ} {now : UInt64} (h : Late q since s.heap)
    (ht : s.heap q = some t) (hcb : t.cb.isSome)
    (hdue : rolledOver s.previousTime now = true ∨ (nextOf s.heap q).toNat ≤ now.toNat)
    (hr : (Op.listExpiredCb a now).InRange q ⟨s, since⟩) (hmem : q ∈ s.timers)
    (hrec : t.recurring = true) : since q + t.ms.toNat ≤ (now + t.ms).toNat := by
  obtain ⟨hclock, hrange⟩ := hr hmem
  obtain ⟨hsum, hback⟩ := hrange t ht hrec
  have hstart : since q ≤ now.toNat := by
    rcases hdue with hroll | hnext
    · exact hback ((rolledOver_iff hclock).mp hroll)
    · have hlate := h t ht hcb
      rw [nextOf, ht] at hnext
      dsimp only at hnext
      omega
  rw [toNat_add_of_lt hsum]
  omega

end Late

theorem Late.step {s : Manager C W} {since : ℕ → ℕ} {q : ℕ} (h : Late q since s.heap)
    (hgood : Good s) {o : Op C W} (ha : o.Allowed s) (hr : o.InRange q ⟨s, since⟩) :
    Late q (o.since since) (o.heapAfter s) := by
  cases o with
  | addTimer p ms cb recurring now => exact h.update fun hp _ => (toNat_add_of_lt (hr hp)).ge
  | addConditionTimer p ms cb cond recurring now =>
    exact h.update fun hp _ => (toNat_add_of_lt (hr hp)).ge
  | cancel p =>
    obtain ⟨t, ht⟩ := Option.isSome_iff_exists.mp ha
    rw [Op.heapAfter, ht]
    exact h.change fun _ => nofun
  | refresh p now =>
    obtain ⟨t, ht⟩ := Option.isSome_iff_exists.mp ha
    rw [Op.heapAfter, ht, Option.map_some]
    apply h.update
    rintro rfl
    split_ifs with hcb
    · intro _
      exact (toNat_add_of_lt (hr rfl t ht)).ge
    · intro hcb'
      exact absurd hcb' hcb
  | reset p ms fromNow now =>
    obtain ⟨t, ht⟩ := Option.isSome_iff_exists.mp ha
    rw [Op.heapAfter, ht, Op.since, Option.map_some]
    cases fromNow with
    | true =>
      have hnew : ¬(ms = t.ms ∧ true = false) := by simp
      apply h.update
      rintro rfl
      by_cases hcb : t.cb.isSome
      · rw [if_pos ⟨hnew, hcb⟩]
        intro _
        exact (toNat_add_of_lt (hr rfl t ht)).ge
      · rw [if_neg (fun h => hcb h.2)]
        intro hcb'
        exact absurd hcb' hcb
    | false =>
      apply h.change
      rintro rfl
      split_ifs with hcb
      · intro _
        exact h.next_reset ht hcb.2 (hr rfl t ht)
      · exact h t ht
  | listExpiredCb a now =>
    intro u hu hcb
    rw [Op.heapAfter] at hu
    dsimp only at hu
    split_ifs at hu with hq
    · obtain ⟨t, ht, rfl⟩ := Option.map_eq_some_iff.mp hu
      obtain ⟨hmem, hdue⟩ := expired_due hgood ha hq
      rw [Timer.handedOut] at hcb ⊢
      split_ifs at hcb ⊢ with hrec
      · exact (h.next_handedOut ht hcb hdue hr hmem hrec :)
      · cases hcb
    · exact h u hu hcb
  | getNextTimer now => exact h
  | free p =>
    intro u hu hcb
    rw [Op.heapAfter] at hu
    by_cases hq : q = p
    · simp [hq] at hu
    · rw [Function.update_of_ne hq] at hu
      exact h u hu hcb

/-- The states of the runs in which every call is in range for the timer `q`. -/
theorem late_of_reachable {start : UInt64} {q : ℕ}
    (h : Reachable ⟨init start, fun _ => 0⟩ Op.watch
      (fun w o => o.Allowed w.manager ∧ o.InRange q w) w) :
    Good w.manager ∧ Late q w.since w.manager.heap := by
  refine h.invariant (I := fun w => Good w.manager ∧ Late q w.since w.manager.heap)
    ⟨good_init start, nofun⟩ ?_
  rintro w o w' ⟨hgood, hlate⟩ ⟨ha, hr⟩ hrun
  obtain ⟨_, w₁, hfocus, hmod⟩ := Command.bind_eq_done.mp hrun
  obtain ⟨m, hm, rfl⟩ := Command.focus_eq_done.mp hfocus
  cases hmod
  obtain ⟨hgood', hheap⟩ := hgood.step ha hm
  refine ⟨hgood', ?_⟩
  change Late q (o.since w.since) m.heap
  rw [hheap]
  exact hlate.step hgood ha hr

/-- The callback of a timer is not handed out before its deadline, unless the clock has been set
back by more than an hour since the last recorded reading. -/
theorem handed_out_late {start : UInt64} {q : ℕ}
    (h : Reachable ⟨init start, fun _ => 0⟩ Op.watch
      (fun w o => o.Allowed w.manager ∧ o.InRange q w) w) {a : ℕ} {now : UInt64}
    (ha : w.manager.heap a = none) (hr : Op.Unwrapped w.manager.previousTime now) :
    ∃ cbs s', listExpiredCb a now w.manager = .done cbs s' ∧
      cbs = (expired w.manager a now).map (fun p => (w.manager.heap p).bind Timer.cb) ∧
      (q ∈ expired w.manager a now → ∃ t, w.manager.heap q = some t ∧ t.cb.isSome ∧
        (w.since q + t.ms.toNat ≤ now.toNat ∨
          now.toNat + 3600000 < w.manager.previousTime.toNat)) := by
  obtain ⟨hgood, hlate⟩ := late_of_reachable h
  obtain ⟨s', hrun, -⟩ := listExpiredCb_spec now hgood.kept.toOrdered a
  refine ⟨_, s', hrun, rfl, fun hq => ?_⟩
  obtain ⟨hmem, hdue⟩ := expired_due hgood ha hq
  obtain ⟨t, ht⟩ := hgood.alive q hmem
  have hcb := (hgood.mem_iff ht).mp hmem
  refine ⟨t, ht, hcb, ?_⟩
  rcases hdue with hroll | hnext
  · exact .inr ((rolledOver_iff hr).mp hroll)
  · left
    rw [nextOf, ht] at hnext
    exact (hlate t ht hcb).trans hnext

/-- A timer of five milliseconds, given seven by `reset` and handed out when they are over; the
deadline of another timer has wrapped. -/
theorem handed_out_late_reset : ∃ w : Watched Unit Unit,
    expired w.manager 2 4000007 = [1, 0] ∧ ∃ t, w.manager.heap 0 = some t ∧ t.cb.isSome ∧
      (w.since 0 + t.ms.toNat ≤ 4000007 ∨ 4000007 + 3600000 < w.manager.previousTime.toNat) := by
  have hinit : Reachable ⟨init 4000000, fun _ => 0⟩ Op.watch
      (fun w o => o.Allowed w.manager ∧ o.InRange 0 w)
      (⟨init 4000000, fun _ => 0⟩ : Watched Unit Unit) := .init
  have hadd : (4000000 : UInt64).toNat + (5 : UInt64).toNat < 2 ^ 64 := by decide
  have h₁ := hinit.step (show Op.Allowed _ (.addTimer 0 5 (some (.plain ())) false 4000000) ∧
    Op.InRange 0 _ (.addTimer 0 5 (some (.plain ())) false 4000000) from
      ⟨⟨rfl, rfl⟩, fun _ => hadd⟩) rfl
  let longest : Op Unit Unit := .addTimer 1 0xFFFFFFFFFFFFFFFF (some (.plain ())) false 4000000
  have h₂ := h₁.step (show Op.Allowed _ longest ∧ Op.InRange 0 _ longest from
    ⟨⟨rfl, rfl⟩, fun h => absurd h (by decide)⟩) rfl
  have h₃ := h₂.step (show Op.Allowed _ (.reset 0 7 false 4000001) ∧
    Op.InRange 0 _ (.reset 0 7 false 4000001) from ⟨rfl, by rintro - t ⟨⟩; decide⟩) rfl
  have hrange : 3600000 ≤ (4000000 : UInt64).toNat := by decide
  obtain ⟨cbs, s', -, -, hlate⟩ := handed_out_late h₃ (a := 2) rfl
    (show Op.Unwrapped _ 4000007 from .inl hrange)
  exact ⟨_, by decide, hlate (by decide)⟩

/-- The sum wraps: the longest interval is over at once. -/
theorem longest_interval_fires_at_once :
    ((addTimer 0 0xFFFFFFFFFFFFFFFF (some ()) false 1000 >>= fun _ => listExpiredCb 1 1000)
      (init 1000)).answer = .done [some ()] () ∧
      ¬(1000 + (0xFFFFFFFFFFFFFFFF : UInt64).toNat ≤ (1000 : UInt64).toNat) := by
  decide

end Deadlines

end Sylar.Timers
