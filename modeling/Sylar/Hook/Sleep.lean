import Sylar.Stream.Loop
import Sylar.Timers.Runs

/-! # The hooked sleeps

`sleep`, `usleep` and `nanosleep` start a timer that resumes the fiber. Each computes the interval
in a type of its own: an `unsigned int` product, a division that drops the rest, and a sum that is
narrowed to `int`.
-/
namespace Sylar.Hook
open Memory Timers TimerManager
open Sylar.Stream (toSize toInt_bounds)

variable {F : Type}

/-- `struct timespec` as `nanosleep` accepts it. -/
structure Timespec where
  tvSec : ℕ
  tvNsec : ℕ
  sec_lt : tvSec < 2 ^ 63
  nsec_lt : tvNsec < 10 ^ 9

section Calls

-- The new timer is placed at `p`; `resume` schedules the fiber.
variable (p : ℕ) (resume : F) (now : UInt64)

/-- The timer of a fiber that yields after this. -/
def resumeAfter (ms : UInt64) : Timers.Cmd F Bool := addTimer p ms (some resume) false now

/-- `seconds * 1000` is an `unsigned int`. -/
def sleep (seconds : UInt32) : Timers.Cmd F Bool :=
  resumeAfter p resume now (seconds * 1000).toUInt64

def usleep (usec : UInt32) : Timers.Cmd F Bool :=
  resumeAfter p resume now (usec / 1000).toUInt64

/-- `tv_sec * 1000 + tv_nsec / 1000 / 1000`, a `long` before it becomes an `int`. -/
def timeoutMs (rqtp : Timespec) : ℕ := rqtp.tvSec * 1000 + rqtp.tvNsec / 1000 / 1000

/-- The sum has no value when it overflows; the `int` is converted to `uint64_t`. -/
def nanosleep (rqtp : Timespec) : Timers.Cmd F Bool :=
  if timeoutMs rqtp < 2 ^ 63 then
    resumeAfter p resume now (.ofNat (toSize (Stream.toInt (timeoutMs rqtp))))
  else Command.abort .indeterminateValue

end Calls

inductive SleepCall where
  | sleep (seconds : UInt32)
  | usleep (usec : UInt32)
  | nanosleep (rqtp : Timespec)

namespace SleepCall

def run (p : ℕ) (resume : F) (now : UInt64) : SleepCall → Timers.Cmd F Bool
  | .sleep seconds => Hook.sleep p resume now seconds
  | .usleep usec => Hook.usleep p resume now usec
  | .nanosleep rqtp => Hook.nanosleep p resume now rqtp

def requested : SleepCall → ℕ
  | .sleep seconds => seconds.toNat * 10 ^ 9
  | .usleep usec => usec.toNat * 1000
  | .nanosleep rqtp => rqtp.tvSec * 10 ^ 9 + rqtp.tvNsec

/-- The call registers a timer whose interval is not shorter than the requested duration and whose
deadline is not before its end. -/
def SleepsEnough (p : ℕ) (resume : F) (now : UInt64) (s : TimerManager F) (c : SleepCall) : Prop :=
  ∃ b s' t, c.run p resume now s = .done b s' ∧ s'.heap p = some t ∧ p ∈ s'.timers ∧
    t.cb = some resume ∧ c.requested ≤ t.ms.toNat * 10 ^ 6 ∧
    now.toNat * 10 ^ 6 + c.requested ≤ t.next.toNat * 10 ^ 6

/-- Milliseconds express the duration, and neither the interval nor the deadline overflows. The
second alternative of `nanosleep` is an interval that became negative at the beginning of time. -/
def Exact (now : UInt64) : SleepCall → Prop
  | .sleep seconds => seconds.toNat * 1000 < 2 ^ 32 ∧ now.toNat + seconds.toNat * 1000 < 2 ^ 64
  | .usleep usec => 1000 ∣ usec.toNat ∧ now.toNat + usec.toNat / 1000 < 2 ^ 64
  | .nanosleep rqtp =>
    (10 ^ 6 ∣ rqtp.tvNsec ∧ timeoutMs rqtp < 2 ^ 31 ∧ now.toNat + timeoutMs rqtp < 2 ^ 64) ∨
      (timeoutMs rqtp < 2 ^ 63 ∧ now.toNat + Stream.toInt (timeoutMs rqtp) < 0)

end SleepCall

open SleepCall

variable {s : TimerManager F} {p : ℕ} {resume : F} {now : UInt64}

theorem resumeAfter_spec (h : Ordered s) (hp : s.heap p = none) (resume : F) (now ms : UInt64) :
    ∃ b s', resumeAfter p resume now ms s = .done b s' ∧ p ∈ s'.timers ∧
      s'.heap p = some (.new ms (some resume) false now) := by
  rcases addTimer_spec now ms h hp (some resume) false with ⟨b, s', hrun, hafter⟩
  refine ⟨b, s', hrun, ?_, ?_⟩
  · exact (hafter.mem_iff p).mpr (.inl rfl)
  · rw [hafter.heap_eq, Function.update_self]

theorem sleepsEnough_of_run (h : Ordered s) (hp : s.heap p = none) {c : SleepCall} {ms : UInt64}
    (hrun : c.run p resume now = resumeAfter p resume now ms) :
    c.SleepsEnough p resume now s ↔
      c.requested ≤ ms.toNat * 10 ^ 6 ∧ now.toNat + ms.toNat < 2 ^ 64 := by
  have hnow := now.toNat_lt
  have hms := ms.toNat_lt
  have hnext : (Timer.new ms (some resume) false now).next.toNat =
      (now.toNat + ms.toNat) % 2 ^ 64 := UInt64.toNat_add now ms
  rcases resumeAfter_spec h hp resume now ms with ⟨b, s', hstart, hmem, ht⟩
  rw [SleepsEnough, hrun, hstart]
  constructor
  · rintro ⟨b', s'', t, hdone, ht', -, -, hlong, hlate⟩
    cases hdone
    rw [ht] at ht'
    cases ht'
    refine ⟨hlong, ?_⟩
    -- a sum that wraps is before `now`
    by_contra hwrap
    rw [hnext] at hlate
    omega
  · rintro ⟨hlong, hfits⟩
    refine ⟨b, s', _, rfl, ht, hmem, rfl, hlong, ?_⟩
    rw [hnext, Nat.mod_eq_of_lt hfits, Nat.add_mul]
    exact Nat.add_le_add_left hlong _

theorem toNat_intervalOf {x : ℤ} (h : -2 ^ 31 ≤ x) (hlt : x < 2 ^ 31) :
    ((UInt64.ofNat (toSize x)).toNat : ℤ) = if x < 0 then x + 2 ^ 64 else x := by
  rw [UInt64.toNat_ofNat', toSize]
  split_ifs <;> omega

/-- A fiber sleeps as long as it asked for exactly if the milliseconds are exact and nothing
overflows. -/
theorem sleepsEnough_iff (h : Ordered s) (hp : s.heap p = none) (c : SleepCall) :
    c.SleepsEnough p resume now s ↔ c.Exact now := by
  cases c with
  | sleep seconds =>
    have hms : (seconds * 1000).toUInt64.toNat = seconds.toNat * 1000 % 2 ^ 32 := by
      rw [UInt32.toNat_toUInt64, UInt32.toNat_mul]
      rfl
    rw [sleepsEnough_of_run h hp rfl, hms, SleepCall.requested, Exact]
    omega
  | usleep usec =>
    have hms : (usec / 1000).toUInt64.toNat = usec.toNat / 1000 := by
      rw [UInt32.toNat_toUInt64, UInt32.toNat_div]
      rfl
    rw [sleepsEnough_of_run h hp rfl, hms, SleepCall.requested, Exact]
    omega
  | nanosleep rqtp =>
    rw [Exact]
    by_cases hlong : timeoutMs rqtp < 2 ^ 63
    · have hrun : (SleepCall.nanosleep rqtp).run p resume now =
          resumeAfter p resume now (.ofNat (toSize (Stream.toInt (timeoutMs rqtp)))) := if_pos hlong
      have hms := toNat_intervalOf (toInt_bounds (timeoutMs rqtp)).1 (toInt_bounds _).2
      have htimeout : timeoutMs rqtp = rqtp.tvSec * 1000 + rqtp.tvNsec / 1000 / 1000 := rfl
      have hnsec := rqtp.nsec_lt
      rw [sleepsEnough_of_run h hp hrun, SleepCall.requested]
      generalize (UInt64.ofNat (toSize (Stream.toInt (timeoutMs rqtp)))).toNat = ms at hms ⊢
      rw [Stream.toInt] at hms ⊢
      split_ifs at hms ⊢ <;> omega
    · constructor
      · rintro ⟨b, s', t, hdone, -⟩
        rw [run, nanosleep, if_neg hlong] at hdone
        cases hdone
      · rintro (⟨-, hlt, -⟩ | ⟨hlt, -⟩)
        · omega
        · omega

def reading : UInt64 := 1700000000000

theorem sleepsEnough_nanosleep :
    (SleepCall.nanosleep ⟨2, 500000000, by decide, by decide⟩).SleepsEnough 0 () reading
      (init reading) :=
  (sleepsEnough_iff (kept_init reading).toOrdered rfl _).mpr (.inl (by decide))

/-- Fifty days: the product wraps, and the fiber is resumed after seven hours. Half a millisecond
and 2147484 seconds: it is resumed at once. -/
theorem resumed_early :
    ¬(SleepCall.sleep 4320000).SleepsEnough 0 () reading (init reading) ∧
    ¬(SleepCall.usleep 500).SleepsEnough 0 () reading (init reading) ∧
    ¬(SleepCall.nanosleep ⟨0, 500000, by decide, by decide⟩).SleepsEnough 0 () reading
      (init reading) ∧
    ¬(SleepCall.nanosleep ⟨2147484, 0, by decide, by decide⟩).SleepsEnough 0 () reading
      (init reading) := by
  refine ⟨?_, ?_, ?_, ?_⟩
  all_goals
    rintro ⟨b, s', t, hrun, ht, -, -, hms, hnext⟩
    cases hrun
    cases ht
    first
      | exact absurd hms (by decide)
      | exact absurd hnext (by decide)

end Sylar.Hook
