import Sylar.Scheduler.Model
import Mathlib.Data.BitVec

/-! # `IOManager`: waiters for file descriptor events

The functions follow `iomanager.cc`, each run as one step under the mutex of the
descriptor's context. `ok` is the answer of `epoll_ctl`, which may fail at any
call. Registrations, calls of `Scheduler::schedule` and removals of waiters are
recorded, a waiter being known by the number of its registration; nothing in the
code reads these records.
-/
namespace Sylar
open Memory
open Scheduler (Task Assertion)

namespace IOManager

abbrev Mask := BitVec 32

def EPOLLIN : Mask := 0x001
def EPOLLOUT : Mask := 0x004
def EPOLLERR : Mask := 0x008
def EPOLLHUP : Mask := 0x010
def EPOLLET : Mask := 0x80000000

inductive Event where
  | none
  | read
  | write
deriving DecidableEq, Repr

def Event.mask : Event → Mask
  | none => 0
  | read => EPOLLIN
  | write => EPOLLOUT

/-- `mask & event` as a condition. -/
def has (mask : Mask) (event : Event) : Bool := mask &&& event.mask ≠ 0

/-- A stored fiber or callback with the number of its registration. -/
structure Ticketed (α : Type) where
  val : α
  ticket : ℕ

structure EventContext (F C S : Type) where
  scheduler : Option S
  fiber : Option (Ticketed F)
  cb : Option (Ticketed C)

structure FdContext (F C S : Type) where
  read : EventContext F C S
  write : EventContext F C S
  fd : ℕ
  events : Mask

inductive CtlOp where
  | add
  | mod
  | del
deriving DecidableEq, Repr

/-- The functions that take a waiter out of its context. -/
inductive Removal where
  | delEvent
  | cancelEvent
  | cancelAll
  | dispatch
deriving DecidableEq, Repr

end IOManager

structure IOManager (F C S : Type) where
  fdContexts : List (IOManager.FdContext F C S)
  pendingEventCount : ℤ
  interest : ℕ → Option IOManager.Mask
  registered : List (Option S × Task F C)
  scheduled : List (S × Task F C × ℕ)
  removed : List (IOManager.Removal × ℕ)

namespace IOManager

variable {F C S : Type}

abbrev Cmd (F C S : Type) := Command Assertion (IOManager F C S)

def EventContext.empty : EventContext F C S := ⟨.none, .none, .none⟩

/-- `new FdContext` with its descriptor number filled in. -/
def FdContext.new (fd : ℕ) : FdContext F C S := ⟨.empty, .empty, fd, Event.none.mask⟩

/-- `m_fdContexts.resize(size)`, the null entries replaced by fresh contexts. -/
def contextResize (size : ℕ) (m : IOManager F C S) : IOManager F C S :=
  { m with fdContexts := m.fdContexts.take size ++
      (List.range' m.fdContexts.length (size - m.fdContexts.length)).map FdContext.new }

/-- The manager as its constructor leaves it. -/
def init : IOManager F C S := contextResize 32 ⟨[], 0, fun _ => .none, [], [], []⟩

/-- `m_fdContexts[fd]`. -/
def context (fd : ℕ) : Cmd F C S (FdContext F C S) := fun m =>
  match m.fdContexts[fd]? with
  | some c => .done c m
  | none => .fault .outOfBounds

def setContext (fd : ℕ) (c : FdContext F C S) : Cmd F C S Unit :=
  Command.modify fun m => { m with fdContexts := m.fdContexts.set fd c }

def epollCtl (op : CtlOp) (fd : ℕ) (mask : Mask) (ok : Bool) : Cmd F C S ℤ := do
  if ok then do
    Command.modify fun m => { m with
      interest := fun i => if i = fd then (if op = .del then none else some mask) else m.interest i }
    pure 0
  else pure (-1)

def FdContext.getContext (c : FdContext F C S) : Event → Cmd F C S (EventContext F C S)
  | .read => pure c.read
  | .write => pure c.write
  | .none => Command.raise ⟨"getContext invalid event: 0"⟩

def FdContext.putContext (c : FdContext F C S) (event : Event) (e : EventContext F C S) :
    FdContext F C S :=
  match event with
  | .read => { c with read := e }
  | .write => { c with write := e }
  | .none => c

/-- `scheduler->schedule(&task)`: a null task is dropped, a null scheduler is dereferenced. -/
def schedule (scheduler : Option S) (task : Option (Ticketed (Task F C))) : Cmd F C S Unit :=
  match scheduler with
  | none => Command.abort .nullPointer
  | some s => Command.modify fun m => { m with
      scheduled := m.scheduled ++ (task.map fun t => (s, t.val, t.ticket)).toList }

/-- The registration numbers of what a context holds. -/
def EventContext.tickets (e : EventContext F C S) : List ℕ :=
  (e.fiber.map Ticketed.ticket).toList ++ (e.cb.map Ticketed.ticket).toList

def noteRemoval (how : Removal) (e : EventContext F C S) : Cmd F C S Unit :=
  Command.modify fun m => { m with removed := m.removed ++ e.tickets.map fun t => (how, t) }

def FdContext.triggerEvent (how : Removal) (fd : ℕ) (event : Event) : Cmd F C S Unit := do
  let c ← context fd
  if has c.events event then do
    let c := { c with events := c.events &&& ~~~event.mask }
    setContext fd c
    let ctx ← c.getContext event
    noteRemoval how ctx
    match ctx.cb with
    | some cb => do
      schedule ctx.scheduler (some ⟨.cb cb.val, cb.ticket⟩)
      setContext fd (c.putContext event { ctx with cb := none, scheduler := none })
    | none => do
      schedule ctx.scheduler (ctx.fiber.map fun f => ⟨.fiber f.val, f.ticket⟩)
      setContext fd (c.putContext event { ctx with fiber := none, scheduler := none })
  else Command.raise ⟨"events & event"⟩

def decPending : Cmd F C S Unit :=
  Command.modify fun m => { m with pendingEventCount := m.pendingEventCount - 1 }

/-- The task that `addEvent` registers: its callback, or else the running fiber. -/
def taskOf (cb : Option C) (fiber : F) : Task F C :=
  match cb with
  | some c => .cb c
  | none => .fiber fiber

/-- The second half of `addEvent`: the new waiter is bound to its event context. `current` is
`Scheduler::GetCurrentScheduler()`, `fiber` is `Fiber::GetCurrentFiber()` and `exec` says that it
is in state `EXEC`. -/
def bindWaiter (fd : ℕ) (event : Event) (cb : Option C) (current : Option S) (fiber : F)
    (exec : Bool) (c : FdContext F C S) : Cmd F C S ℤ := do
  Command.modify fun m => { m with pendingEventCount := m.pendingEventCount + 1 }
  let c := { c with events := c.events ||| event.mask }
  setContext fd c
  let ctx ← c.getContext event
  if ctx.scheduler.isSome ∨ ctx.fiber.isSome ∨ ctx.cb.isSome then
    Command.raise ⟨"!event_ctx.scheduler && !event_ctx.fiber && !event_ctx.cb"⟩
  else do
    let m ← Command.state
    let ctx := { ctx with scheduler := current }
    match cb with
    | some cb => setContext fd (c.putContext event { ctx with cb := some ⟨cb, m.registered.length⟩ })
    | none =>
      setContext fd (c.putContext event { ctx with fiber := some ⟨fiber, m.registered.length⟩ })
    if cb.isNone ∧ ¬exec then Command.raise ⟨"event_ctx.fiber->getState() == Fiber::EXEC"⟩
    else do
      Command.modify fun m => { m with registered := m.registered ++ [(current, taskOf cb fiber)] }
      pure 0

-- The functions are stated for any `epoll_ctl`; `Kernel` runs them with one that is stricter.
section Via

variable (ctl : CtlOp → ℕ → Mask → Bool → Cmd F C S ℤ)

def addEventVia (fd : ℕ) (event : Event) (cb : Option C) (current : Option S) (fiber : F)
    (exec ok : Bool) : Cmd F C S ℤ := do
  Command.modify fun m => if m.fdContexts.length > fd then m else contextResize (fd * 3 / 2) m
  let c ← context fd
  if has c.events event then Command.raise ⟨"!(fd_ctx->events & event)"⟩
  else do
    let op := if c.events ≠ 0 then CtlOp.mod else CtlOp.add
    let rt ← ctl op fd (EPOLLET ||| c.events ||| event.mask) ok
    if rt ≠ 0 then pure (-1)
    else bindWaiter fd event cb current fiber exec c

def delEventVia (fd : ℕ) (event : Event) (ok : Bool) : Cmd F C S Bool := do
  let m ← Command.state
  if m.fdContexts.length ≤ fd then pure false
  else do
    let c ← context fd
    if !has c.events event then pure false
    else do
      let newEvents := c.events &&& ~~~event.mask
      let op := if newEvents ≠ 0 then CtlOp.mod else CtlOp.del
      let rt ← ctl op fd (EPOLLET ||| newEvents) ok
      if rt ≠ 0 then pure false
      else do
        decPending
        let c := { c with events := newEvents }
        setContext fd c
        let ctx ← c.getContext event
        noteRemoval .delEvent ctx
        setContext fd (c.putContext event .empty)
        pure true

def cancelEventVia (fd : ℕ) (event : Event) (ok : Bool) : Cmd F C S Bool := do
  let m ← Command.state
  if m.fdContexts.length ≤ fd then pure false
  else do
    let c ← context fd
    if !has c.events event then pure false
    else do
      let newEvents := c.events &&& ~~~event.mask
      let op := if newEvents ≠ 0 then CtlOp.mod else CtlOp.del
      let rt ← ctl op fd (EPOLLET ||| newEvents) ok
      if rt ≠ 0 then pure false
      else do
        FdContext.triggerEvent .cancelEvent fd event
        decPending
        pure true

/-- `if(events & event) { triggerEvent(event); --m_pendingEventCount; }`. -/
def triggerIf (how : Removal) (fd : ℕ) (events : Mask) (event : Event) : Cmd F C S Unit := do
  if has events event then do
    FdContext.triggerEvent how fd event
    decPending
  else pure ()

def cancelAllVia (fd : ℕ) (ok : Bool) : Cmd F C S Bool := do
  let m ← Command.state
  if m.fdContexts.length ≤ fd then pure false
  else do
    let c ← context fd
    if c.events = 0 then pure false
    else do
      let rt ← ctl .del fd 0 ok
      if rt ≠ 0 then pure false
      else do
        triggerIf .cancelAll fd c.events .read
        let c ← context fd
        triggerIf .cancelAll fd c.events .write
        let c ← context fd
        if c.events = 0 then pure true else Command.raise ⟨"fd_ctx->events == 0"⟩

/-- The rewriting of the reported mask: an error or a hangup counts as both events. -/
def realEventsOf (events : Mask) : Mask :=
  let events := if events &&& (EPOLLERR ||| EPOLLHUP) ≠ 0 then events ||| (EPOLLIN ||| EPOLLOUT)
    else events
  let realEvents := Event.none.mask
  let realEvents := if events &&& EPOLLIN ≠ 0 then realEvents ||| Event.read.mask else realEvents
  if events &&& EPOLLOUT ≠ 0 then realEvents ||| Event.write.mask else realEvents

def dispatchVia (fd : ℕ) (events : Mask) (ok : Bool) : Cmd F C S Unit := do
  let c ← context fd
  let realEvents := realEventsOf events
  if c.events &&& realEvents = Event.none.mask then pure ()
  else do
    let leftEvents := c.events &&& ~~~realEvents
    let op := if leftEvents ≠ 0 then CtlOp.mod else CtlOp.del
    let rt ← ctl op c.fd (EPOLLET ||| leftEvents) ok
    if rt ≠ 0 then pure ()
    else do
      triggerIf .dispatch fd realEvents .read
      triggerIf .dispatch fd realEvents .write

end Via

def addEvent (fd : ℕ) (event : Event) (cb : Option C) (current : Option S) (fiber : F)
    (exec ok : Bool) : Cmd F C S ℤ := addEventVia epollCtl fd event cb current fiber exec ok

def delEvent (fd : ℕ) (event : Event) (ok : Bool) : Cmd F C S Bool :=
  delEventVia epollCtl fd event ok

def cancelEvent (fd : ℕ) (event : Event) (ok : Bool) : Cmd F C S Bool :=
  cancelEventVia epollCtl fd event ok

def cancelAll (fd : ℕ) (ok : Bool) : Cmd F C S Bool := cancelAllVia epollCtl fd ok

/-- One round of the loop over the events that `epoll_wait` reported. -/
def dispatch (fd : ℕ) (events : Mask) (ok : Bool) : Cmd F C S Unit :=
  dispatchVia epollCtl fd events ok

end IOManager
end Sylar
