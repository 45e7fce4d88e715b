import Mathlib.Data.UInt
import Sylar.Stream.Loop
import Sylar.Timers.Runs

/-! # How long `idle` waits

The time until the next timer has 64 bits, the timeout of `epoll_wait` has 32: the comparison with
the longest wait and the call both look at the lower half only.
-/
namespace Sylar.IOManager
open Memory Timers TimerManager
open Sylar.Stream (toInt)

variable {F : Type}

/-- What `epoll_wait` comes back with: a failure with `EINTR`, or anything else. -/
inductive Answer where
  | interrupted
  | returned (rt : ℤ)
deriving DecidableEq, Repr

/-- `~0ull`. -/
def noTimer : UInt64 := 0xFFFFFFFFFFFFFFFF

def maxTimeout : ℕ := 3000

/-- The assignment to `next_timeout` in front of `epoll_wait`. -/
def clampTimeout (nextTimeout : UInt64) : UInt64 :=
  if nextTimeout ≠ noTimer then
    if (maxTimeout : ℤ) < toInt nextTimeout.toNat then .ofNat maxTimeout else nextTimeout
  else .ofNat maxTimeout

/-- The loop around `epoll_wait`: the timeouts that are passed, for the answers that come back. -/
def waitLoop (nextTimeout : UInt64) : List Answer → List ℤ
  | [] => []
  | .interrupted :: answers =>
    toInt (clampTimeout nextTimeout).toNat :: waitLoop (clampTimeout nextTimeout) answers
  | .returned _ :: _ => [toInt (clampTimeout nextTimeout).toNat]

/-- `IOManager::stopping(timeout)`, for what the event counter and `Scheduler::stopping` say. -/
def stoppingTimeout (now : UInt64) (quiet : Bool) : Timers.Cmd F (Bool × UInt64) := do
  let timeout ← getNextTimer now
  pure (timeout = noTimer && quiet, timeout)

/-- A round of `idle` until `epoll_wait` has returned. -/
def idleWaits (now : UInt64) (quiet : Bool) (answers : List Answer) : Timers.Cmd F (List ℤ) := do
  let r ← stoppingTimeout now quiet
  if r.1 then pure [] else pure (waitLoop r.2 answers)

def untilNext (s : TimerManager F) (now : UInt64) : UInt64 :=
  match s.timers with
  | [] => noTimer
  | p :: _ => if nextOf s.heap p ≤ now then 0 else nextOf s.heap p - now

/-- Every timeout of a round is the time until the next timer, or the longest one; none is negative,
and none ends after a deadline if it starts at the reading `now`. After `EINTR` the same timeout
starts again, later. -/
def Punctual (s : TimerManager F) (now : UInt64) : Prop :=
  ∃ d s', getNextTimer now s = .done d s' ∧ ∀ quiet answers,
    ∃ ts s', idleWaits now quiet answers s = .done ts s' ∧ ∀ t ∈ ts,
      t = min (maxTimeout : ℤ) d.toNat ∧ 0 ≤ t ∧
        ∀ p ∈ s.timers, now.toNat + t ≤ max now.toNat (nextOf s.heap p).toNat

/-- The lower half of the time decides as the whole of it would. -/
def Fits (d : UInt64) : Prop :=
  d.toNat ≤ maxTimeout ∨ d = noTimer ∨
    maxTimeout ≤ d.toNat % 2 ^ 32 ∧ d.toNat % 2 ^ 32 < 2 ^ 31

variable {s : TimerManager F} {now d : UInt64}

theorem getNextTimer_eq (s : TimerManager F) (now : UInt64) :
    getNextTimer now s = .done (untilNext s now) (s.putTickled false) := by
  rw [getNextTimer, Command.modify_bind_apply, Command.state_bind_apply, untilNext]
  change (match s.timers with
    | [] => pure 0xFFFFFFFFFFFFFFFF
    | p :: _ => if nextOf s.heap p ≤ now then pure 0 else pure (nextOf s.heap p - now) :
      Timers.Cmd F UInt64) (s.putTickled false) = _
  cases s.timers with
  | nil => rfl
  | cons p l =>
    dsimp only
    split_ifs
    · rfl
    · rfl

theorem idleWaits_eq (s : TimerManager F) (now : UInt64) (quiet : Bool) (answers : List Answer) :
    idleWaits now quiet answers s =
      .done (if untilNext s now = noTimer ∧ quiet then [] else waitLoop (untilNext s now) answers)
        (s.putTickled false) := by
  have hstop : stoppingTimeout now quiet s =
      .done (untilNext s now = noTimer && quiet, untilNext s now) (s.putTickled false) := by
    rw [stoppingTimeout, Command.bind_done (getNextTimer_eq s now)]
    rfl
  rw [idleWaits, Command.bind_done hstop, Command.ite_apply]
  simp only [Bool.and_eq_true, decide_eq_true_eq]
  split_ifs
  · rfl
  · rfl

section Loop

theorem toInt_clampTimeout (d : UInt64) :
    toInt (clampTimeout d).toNat =
      if d = noTimer then (maxTimeout : ℤ) else min (maxTimeout : ℤ) (toInt d.toNat) := by
  rw [clampTimeout]
  by_cases h : d = noTimer
  · rw [if_neg (not_not.mpr h), if_pos h]
    rfl
  · rw [if_pos h, if_neg h]
    split_ifs with hlong
    · rw [min_eq_left hlong.le]
      rfl
    · rw [min_eq_right (not_lt.mp hlong)]

theorem clampTimeout_clampTimeout (d : UInt64) :
    clampTimeout (clampTimeout d) = clampTimeout d := by
  have hmax : clampTimeout (.ofNat maxTimeout) = .ofNat maxTimeout := by decide
  by_cases h : d ≠ noTimer ∧ ¬(maxTimeout : ℤ) < toInt d.toNat
  · have hsame : clampTimeout d = d := by
      rw [clampTimeout, if_pos h.1, if_neg h.2]
    rw [hsame, hsame]
  · have hlong : clampTimeout d = .ofNat maxTimeout := by
      rw [clampTimeout]
      split_ifs with hne hlt
      · rfl
      · exact absurd ⟨hne, hlt⟩ h
      · rfl
    rw [hlong, hmax]

theorem eq_of_mem_waitLoop {answers : List Answer} {t : ℤ} (h : t ∈ waitLoop d answers) :
    t = toInt (clampTimeout d).toNat := by
  induction answers generalizing d with
  | nil => cases h
  | cons a answers ih =>
    cases a with
    | interrupted =>
      rcases List.mem_cons.mp h with h | h
      · exact h
      · rw [ih h, clampTimeout_clampTimeout]
    | returned rt => exact List.mem_singleton.mp h

theorem toInt_clampTimeout_iff :
    toInt (clampTimeout d).toNat = min (maxTimeout : ℤ) d.toNat ↔ Fits d := by
  have hd := d.toNat_lt
  rw [toInt_clampTimeout, Fits]
  by_cases h : d = noTimer
  · rw [if_pos h, h]
    simp only [true_or, or_true, iff_true]
    decide
  · rw [if_neg h, toInt, maxTimeout]
    simp only [h, false_or]
    constructor
    · intro heq
      split_ifs at heq <;> omega
    · intro hfits
      split_ifs <;> omega

end Loop

section Deadlines

theorem untilNext_le (h : Ordered s) {p : ℕ} (hp : p ∈ s.timers) :
    now.toNat + (untilNext s now).toNat ≤ max now.toNat (nextOf s.heap p).toNat := by
  have hmono := h.deadlines
  rw [untilNext]
  cases hs : s.timers with
  | nil =>
    rw [hs] at hp
    cases hp
  | cons q l =>
    rw [hs] at hp hmono
    have hfirst : (nextOf s.heap q).toNat ≤ (nextOf s.heap p).toNat := by
      rcases List.mem_cons.mp hp with rfl | hp
      · exact le_rfl
      · exact (List.pairwise_cons.mp hmono).1 p hp
    dsimp only
    split_ifs with hdue
    · exact le_max_left _ _
    · have hlt : now.toNat < (nextOf s.heap q).toNat := by
        rw [← UInt64.lt_iff_toNat_lt]
        exact UInt64.not_le.mp hdue
      rw [toNat_sub_of_le hlt.le]
      omega

/-- `idle` waits as long as the timers allow exactly if the lower half of the time until the next
one decides as the whole of it. -/
theorem punctual_iff (h : Ordered s) (now : UInt64) : Punctual s now ↔ Fits (untilNext s now) := by
  rw [← toInt_clampTimeout_iff]
  constructor
  · rintro ⟨d, s', hnext, hwaits⟩
    rw [getNextTimer_eq] at hnext
    cases hnext
    rcases hwaits false [.returned 0] with ⟨ts, s'', hrun, hts⟩
    rw [idleWaits_eq] at hrun
    cases hrun
    apply (hts _ ?_).1
    simp [waitLoop]
  · intro hfits
    refine ⟨_, _, getNextTimer_eq s now, ?_⟩
    intro quiet answers
    refine ⟨_, _, idleWaits_eq s now quiet answers, ?_⟩
    intro t ht
    have heq : t = min (maxTimeout : ℤ) (untilNext s now).toNat := by
      split_ifs at ht
      · cases ht
      · rw [eq_of_mem_waitLoop ht, hfits]
    refine ⟨heq, ?_, ?_⟩
    · rw [heq]
      exact le_min (Int.natCast_nonneg _) (Int.natCast_nonneg _)
    · intro p hp
      have hle : now.toNat + (untilNext s now).toNat ≤ max now.toNat (nextOf s.heap p).toNat :=
        untilNext_le h hp
      omega

end Deadlines

def waitingFor (ms : UInt64) : TimerManager Unit :=
  (((TimerManager.init 0).store 0 (.new ms (some ()) false 0)).putTimers [0]).putTickled true

theorem ordered_waitingFor (ms : UInt64) : Ordered (waitingFor ms) where
  alive := by
    intro q hq
    rw [List.mem_singleton.mp hq]
    exact ⟨_, rfl⟩
  sorted := List.pairwise_singleton _ _

theorem punctual_hour : Punctual (waitingFor 3600000) 0 :=
  (punctual_iff (ordered_waitingFor _) 0).mpr (.inr (.inr (by decide)))

/-- A timer that is due in 2 ^ 31 milliseconds, 24 days: the timeout is negative, and
`epoll_wait` does not come back for it. -/
theorem month_waits_forever :
    addTimer 0 (2 ^ 31) (some ()) false 0 (TimerManager.init 0) = .done true (waitingFor (2 ^ 31)) ∧
    (∃ s', getNextTimer 0 (waitingFor (2 ^ 31)) = .done (2 ^ 31) s') ∧
    (∃ s', idleWaits 0 false [.returned 0] (waitingFor (2 ^ 31)) = .done [-2 ^ 31] s') ∧
    ¬Punctual (waitingFor (2 ^ 31)) 0 := by
  refine ⟨rfl, ⟨_, rfl⟩, ⟨_, rfl⟩, ?_⟩
  rintro ⟨d, s', hnext, hwaits⟩
  rcases hwaits false [.returned 0] with ⟨ts, s'', hrun, hts⟩
  cases hrun
  exact absurd (hts _ List.mem_cons_self).2.1 (by decide)

end Sylar.IOManager
