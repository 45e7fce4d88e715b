import Sylar.IOManager.Model

/-! # The waiters of a descriptor

A descriptor has a slot for each of the two events, empty or holding a waiter.
The bit mask and the two event contexts are determined by the slots, and every
change made by the code fills or empties one slot.
-/
namespace Sylar.IOManager
open Memory
open Scheduler (Task)

variable {F C S : Type}

structure Waiter (F C S : Type) where
  scheduler : Option S
  task : Task F C
  ticket : ℕ

structure Slots (F C S : Type) where
  read : Option (Waiter F C S)
  write : Option (Waiter F C S)

namespace Slots

def empty : Slots F C S := ⟨.none, .none⟩

def get (sl : Slots F C S) : Event → Option (Waiter F C S)
  | .read => sl.read
  | .write => sl.write
  | .none => none

def set (sl : Slots F C S) (event : Event) (w : Option (Waiter F C S)) : Slots F C S :=
  match event with
  | .read => { sl with read := w }
  | .write => { sl with write := w }
  | .none => sl

def waiters (sl : Slots F C S) : List (Waiter F C S) := sl.read.toList ++ sl.write.toList

end Slots

/-- The event mask with the given bits. -/
def bits (r w : Bool) : Mask := (if r then EPOLLIN else 0) ||| (if w then EPOLLOUT else 0)

def EventContext.ofWaiter : Option (Waiter F C S) → EventContext F C S
  | none => .empty
  | some ⟨s, .fiber f, t⟩ => ⟨s, some ⟨f, t⟩, none⟩
  | some ⟨s, .cb c, t⟩ => ⟨s, none, some ⟨c, t⟩⟩

def FdContext.ofSlots (fd : ℕ) (sl : Slots F C S) : FdContext F C S :=
  ⟨.ofWaiter sl.read, .ofWaiter sl.write, fd, bits sl.read.isSome sl.write.isSome⟩

section Lemmas

variable {sl : Slots F C S} {event : Event} {fd : ℕ}

theorem has_bits (r w : Bool) (event : Event) : has (bits r w) event = match event with
    | .read => r
    | .write => w
    | .none => false := by
  cases event <;> cases r <;> cases w <;> decide

theorem bits_clear_read (r w : Bool) : bits r w &&& ~~~Event.read.mask = bits false w := by
  cases r <;> cases w <;> decide

theorem bits_clear_write (r w : Bool) : bits r w &&& ~~~Event.write.mask = bits r false := by
  cases r <;> cases w <;> decide

theorem bits_or_read (r w : Bool) : bits r w ||| Event.read.mask = bits true w := by
  cases r <;> cases w <;> decide

theorem bits_or_write (r w : Bool) : bits r w ||| Event.write.mask = bits r true := by
  cases r <;> cases w <;> decide

theorem bits_eq_zero (r w : Bool) : bits r w = 0 ↔ r = false ∧ w = false := by
  cases r <;> cases w <;> decide

theorem ofSlots_empty (fd : ℕ) :
    FdContext.ofSlots fd (Slots.empty : Slots F C S) = FdContext.new fd := by
  have hmask : bits false false = Event.none.mask := by decide
  rw [FdContext.new, ← hmask]
  rfl

theorem has_ofSlots (fd : ℕ) (sl : Slots F C S) (event : Event) :
    has (FdContext.ofSlots fd sl).events event = (sl.get event).isSome := by
  rw [FdContext.ofSlots, has_bits]
  cases event <;> rfl

/-- Clearing the bit and emptying the context empties the slot. -/
theorem ofSlots_clear (hne : event ≠ .none) :
    FdContext.putContext { FdContext.ofSlots fd sl with
        events := (FdContext.ofSlots fd sl).events &&& ~~~event.mask } event .empty =
      FdContext.ofSlots fd (sl.set event none) := by
  cases event with
  | none => exact absurd rfl hne
  | read =>
    simp only [FdContext.putContext, FdContext.ofSlots, Slots.set, bits_clear_read]
    rfl
  | write =>
    simp only [FdContext.putContext, FdContext.ofSlots, Slots.set, bits_clear_write]
    rfl

/-- Setting the bit and filling the context fills the slot. -/
theorem ofSlots_fill (hne : event ≠ .none) (w : Waiter F C S) :
    FdContext.putContext { FdContext.ofSlots fd sl with
        events := (FdContext.ofSlots fd sl).events ||| event.mask } event (.ofWaiter (some w)) =
      FdContext.ofSlots fd (sl.set event (some w)) := by
  cases event with
  | none => exact absurd rfl hne
  | read =>
    simp only [FdContext.putContext, FdContext.ofSlots, Slots.set, bits_or_read]
    rfl
  | write =>
    simp only [FdContext.putContext, FdContext.ofSlots, Slots.set, bits_or_write]
    rfl

@[simp] theorem tickets_ofWaiter (w : Option (Waiter F C S)) :
    (EventContext.ofWaiter w).tickets = (w.map Waiter.ticket).toList := by
  rcases w with _ | ⟨s, _ | _, t⟩ <;> rfl

theorem getContext_ofSlots (hne : event ≠ .none) (mask : Mask) (m : IOManager F C S) :
    FdContext.getContext { FdContext.ofSlots fd sl with events := mask } event m =
      .done (.ofWaiter (sl.get event)) m := by
  cases event with
  | none => exact absurd rfl hne
  | read => rfl
  | write => rfl

theorem get_none_event (sl : Slots F C S) : sl.get .none = none := rfl

end Lemmas

section Operations

variable {m : IOManager F C S} {fd : ℕ} {sl : Slots F C S} {event : Event} {how : Removal}

theorem context_eq {c : FdContext F C S} (h : m.fdContexts[fd]? = some c) :
    context fd m = .done c m := by
  rw [context, h]

/-- The state after the waiter `w` has left its slot for the scheduler `s`. -/
def trigger (m : IOManager F C S) (how : Removal) (fd : ℕ) (sl : Slots F C S) (event : Event)
    (w : Waiter F C S) (s : S) : IOManager F C S :=
  { m with
    fdContexts := m.fdContexts.set fd (.ofSlots fd (sl.set event none))
    scheduled := m.scheduled ++ [(s, w.task, w.ticket)]
    removed := m.removed ++ [(how, w.ticket)] }

theorem triggerEvent_spec (hc : m.fdContexts[fd]? = some (.ofSlots fd sl)) :
    FdContext.triggerEvent how fd event m = match sl.get event with
      | none => .raised ⟨"events & event"⟩ m
      | some w => match w.scheduler with
        | none => .fault .nullPointer
        | some s => .done () (trigger m how fd sl event w s) := by
  rw [FdContext.triggerEvent, Command.bind_done (context_eq hc), has_ofSlots]
  cases hget : sl.get event with
  | none => rfl
  | some w =>
    have hne : event ≠ .none := by
      rintro rfl
      simp [get_none_event] at hget
    have hctx : (EventContext.ofWaiter (some w)).tickets = [w.ticket] := by simp
    rw [Option.isSome_some, if_pos rfl, setContext, Command.modify_bind_apply,
      Command.bind_done (getContext_ofSlots hne _ _), hget, noteRemoval,
      Command.modify_bind_apply, hctx]
    rcases w with ⟨_ | s, f | c, t⟩
    · rfl
    · rfl
    · simp only [EventContext.ofWaiter, schedule, Option.map_some, setContext,
        Command.modify_bind_apply, Command.modify_apply, List.set_set, trigger]
      congr 2
      rw [← ofSlots_clear hne]
      rfl
    · simp only [EventContext.ofWaiter, schedule, setContext,
        Command.modify_bind_apply, Command.modify_apply, List.set_set, trigger]
      congr 2
      rw [← ofSlots_clear hne]
      rfl

/-- The state after a new waiter has entered its slot. -/
def register (m : IOManager F C S) (fd : ℕ) (sl : Slots F C S) (event : Event)
    (w : Waiter F C S) : IOManager F C S :=
  { m with
    fdContexts := m.fdContexts.set fd (.ofSlots fd (sl.set event (some w)))
    pendingEventCount := m.pendingEventCount + 1
    registered := m.registered ++ [(w.scheduler, w.task)] }

theorem bindWaiter_spec {cb : Option C} {current : Option S} {fiber : F} {exec : Bool}
    (hget : sl.get event = none) (hne : event ≠ .none) (hexec : cb.isSome ∨ exec) :
    bindWaiter fd event cb current fiber exec (.ofSlots fd sl) m =
      .done 0 (register m fd sl event ⟨current, taskOf cb fiber, m.registered.length⟩) := by
  have hempty : EventContext.ofWaiter (none : Option (Waiter F C S)) = .empty := rfl
  rw [bindWaiter, Command.modify_bind_apply, setContext, Command.modify_bind_apply,
    Command.bind_done (getContext_ofSlots hne _ _), hget, hempty]
  cases cb with
  | some cb =>
    simp only [EventContext.empty, Option.isSome_none, Bool.false_eq_true, or_self, if_false,
      Command.state_bind_apply, setContext, Command.modify_bind_apply, Option.isNone_some,
      false_and, Command.pure_apply, List.set_set, register]
    congr 2
    rw [← ofSlots_fill hne]
    rfl
  | none =>
    have hx : exec = true := by simpa using hexec
    simp only [EventContext.empty, Option.isSome_none, Bool.false_eq_true, or_self, if_false,
      Command.state_bind_apply, setContext, Command.modify_bind_apply, Option.isNone_none, hx,
      not_true, and_false, Command.pure_apply, List.set_set, register]
    congr 2
    rw [← ofSlots_fill hne]
    rfl

/-- Without an event, or with a fiber that is not running, an assertion stops the program. -/
theorem bindWaiter_inv {cb : Option C} {current : Option S} {fiber : F} {exec : Bool} {r : ℤ}
    {c : FdContext F C S} {m' : IOManager F C S}
    (h : bindWaiter fd event cb current fiber exec c m = .done r m') :
    event ≠ .none ∧ (cb.isSome ∨ exec) := by
  constructor
  · rintro rfl
    cases h
  · by_contra hnot
    push Not at hnot
    have hcb : cb = none := by simpa using hnot.1
    have hx : exec = false := by simpa using hnot.2
    subst hcb hx
    rw [bindWaiter, Command.modify_bind_apply, setContext, Command.modify_bind_apply] at h
    rcases Command.bind_eq_done.mp h with ⟨ctx, m₁, -, hrest⟩
    rw [Command.ite_apply] at hrest
    split at hrest
    · cases hrest
    · simp [setContext] at hrest

end Operations

end Sylar.IOManager
