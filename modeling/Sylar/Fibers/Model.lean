import Sylar.Memory.Heap
import Sylar.Memory.Run
import Sylar.Scheduler.Model

/-! # The fibers of one thread

A `Fiber` object has a context, `m_ctx`, in which the execution of some stack is saved. Which
stack is running is not the same as which object `t_thread_current_fiber` points to: the pointer is
assigned by every constructor, destructor and switch, while the stack changes with `swapcontext`
only. A switch saves the running stack in the context it is told to, whoever is running.
-/
namespace Sylar.Fibers
open Memory
open Scheduler (Assertion FiberState)

/-- What is saved in `m_ctx`: the point of `getcontext` in the constructor of the main fiber, the
entry function, the execution of a fiber's stack, or the end of an entry function. -/
inductive Saved where
  | constructor
  | entry
  | stack (owner : ℕ)
  | ended
deriving DecidableEq, Repr

/-- `stack` and `cb` say whether `m_stack` and `m_cb` are set, `toMain` that the entry function is
`MainFiberFunc`; `cur` is the local variable of the entry function. -/
structure Fiber where
  state : FiberState
  stack : Bool
  cb : Bool
  toMain : Bool
  ctx : Saved
  cur : Option ℕ
deriving DecidableEq, Repr

/-- `scheduler` is what `Scheduler::GetThreadMainFiber` returns; `exec` is the fiber whose stack is
running. -/
structure Thread where
  fibers : Heap Fiber
  current : Option ℕ
  main : Option ℕ
  scheduler : Option ℕ
  exec : ℕ

abbrev Cmd := Command Assertion Thread

namespace Thread

def putFiber (p : ℕ) (f : Fiber) (s : Thread) : Thread := { s with fibers := s.fibers.set p f }

/-- `SetThreadCurrentFiber`. -/
def setCurrent (p : Option ℕ) (s : Thread) : Thread := { s with current := p }

def putExec (p : ℕ) (s : Thread) : Thread := { s with exec := p }

/-- `Fiber::Fiber()`. -/
def newMain (s : Thread) : Thread :=
  { s with
    fibers := s.fibers.alloc ⟨.exec, false, false, false, .constructor, none⟩
    current := some s.fibers.brk }

/-- `Fiber::Fiber(cb, stacksize, return_to_mainFiber)`. -/
def newFiber (cb toMain : Bool) (s : Thread) : Thread :=
  { s with
    fibers := s.fibers.alloc ⟨.init, true, cb, toMain, .entry, none⟩
    current := some s.fibers.brk }

end Thread

def deref (p : ℕ) : Cmd Fiber := Command.lookup .danglingPointer fun s => s.fibers.get p

def nonNull (p : Option ℕ) : Cmd ℕ :=
  match p with
  | none => Command.abort .nullPointer
  | some p => pure p

def getCurrentFiber : Cmd ℕ := do
  let s ← Command.state
  match s.current with
  | some p => do
    let _ ← deref p
    pure p
  | none => do
    Command.modify fun s => { s.newMain with main := some s.fibers.brk }
    pure s.fibers.brk

/-- The stack of a fiber goes on, from where `ctx` was saved. -/
def resume (p : ℕ) (f : Fiber) : Cmd Unit := do
  let s ← Command.state
  match f.ctx with
  | .constructor => Command.abort .indeterminateValue
  | .ended => Command.raise ⟨"false"⟩
  | .entry => do
    Command.modify (Thread.putFiber p { f with cur := s.current })
    Command.modify (Thread.putExec p)
  | .stack owner => do
    let _ ← deref owner
    Command.modify (Thread.putExec owner)

/-- `swapcontext(&save->m_ctx, &dest->m_ctx)`, where `mark` is what is saved. -/
def swapcontext (save dest : ℕ) (mark : Saved) : Cmd Unit := do
  let f ← deref save
  let g ← deref dest
  if save = dest then
    if mark = .ended then Command.raise ⟨"false"⟩ else pure ()
  else do
    Command.modify (Thread.putFiber save { f with ctx := mark })
    resume dest g

def call (p : ℕ) : Cmd Unit := do
  Command.modify (Thread.setCurrent (some p))
  let f ← deref p
  Command.modify (Thread.putFiber p { f with state := .exec })
  let s ← Command.state
  let m ← nonNull s.main
  swapcontext m p (.stack s.exec)

def swapIn (p : ℕ) : Cmd Unit := do
  Command.modify (Thread.setCurrent (some p))
  let f ← deref p
  if f.state = .exec then Command.raise ⟨"m_state != EXEC"⟩
  else do
    Command.modify (Thread.putFiber p { f with state := .exec })
    let s ← Command.state
    let m ← nonNull s.scheduler
    swapcontext m p (.stack s.exec)

/-- The target of a switch out of a fiber: `t_thread_main_fiber` for `back`, the fiber of the
scheduler for `swapOut`. -/
def Thread.target (toMain : Bool) (s : Thread) : Option ℕ := if toMain then s.main else s.scheduler

/-- `Fiber::back` and `Fiber::swapOut`; `ended` if it is the last call of an entry function. -/
def leave (toMain : Bool) (p : ℕ) (ended : Bool) : Cmd Unit := do
  let s ← Command.state
  Command.modify (Thread.setCurrent (s.target toMain))
  let t ← nonNull (s.target toMain)
  swapcontext p t (if ended then .ended else .stack s.exec)

def back (p : ℕ) : Cmd Unit := leave true p false

def swapOut (p : ℕ) : Cmd Unit := leave false p false

/-- `Fiber::YieldToReady` and `Fiber::YieldToHold`. -/
def yield (ready : Bool) : Cmd Unit := do
  let p ← getCurrentFiber
  let f ← deref p
  if f.state ≠ .exec then Command.raise ⟨"cur->m_state == EXEC"⟩
  else do
    if ready then Command.modify (Thread.putFiber p { f with state := .ready }) else pure ()
    swapOut p

def YieldToReady : Cmd Unit := yield true

def YieldToHold : Cmd Unit := yield false

def reset (p : ℕ) (cb : Bool) : Cmd Unit := do
  let f ← deref p
  if f.stack = false then Command.raise ⟨"m_stack"⟩
  else if f.state ≠ .term ∧ f.state ≠ .except ∧ f.state ≠ .init then
    Command.raise ⟨"m_state == TERM || m_state == EXCEPT || m_state == INIT"⟩
  else do
    Command.modify
      (Thread.putFiber p { f with cb := cb, ctx := .entry, toMain := false, state := .init })

/-- The end of the destructor: the object is gone, and is made the current fiber. -/
def Thread.drop (p : ℕ) (s : Thread) : Thread :=
  { s with fibers := s.fibers.free p, current := some p }

/-- `Fiber::~Fiber`. -/
def destroy (p : ℕ) : Cmd Unit := do
  let f ← deref p
  if f.stack then
    if f.state ≠ .term ∧ f.state ≠ .init ∧ f.state ≠ .except then
      Command.raise ⟨"m_state == TERM || m_state == INIT || m_state == EXCEPT"⟩
    else Command.modify (Thread.drop p)
  else if f.cb then Command.raise ⟨"!m_cb"⟩
  else if f.state ≠ .exec then Command.raise ⟨"m_state == EXEC"⟩
  else Command.modify (Thread.drop p)

/-- The entry function ends: the callback returned, or threw. -/
def finish (ok : Bool) : Cmd Unit := do
  let s ← Command.state
  let running ← deref s.exec
  match running.cur with
  | none => pure ()
  | some p => do
    let f ← deref p
    Command.modify (Thread.putFiber p
      (if ok then { f with cb := false, state := .term } else { f with state := .except }))
    leave running.toMain p true

/-- What the running code can do. `setScheduler` is the assignment of its own
`t_thread_main_fiber` by a `Scheduler`. -/
inductive Act where
  | getCurrentFiber
  | construct (cb toMain : Bool)
  | destroy (p : ℕ)
  | reset (p : ℕ) (cb : Bool)
  | call (p : ℕ)
  | back (p : ℕ)
  | swapIn (p : ℕ)
  | swapOut (p : ℕ)
  | yieldToReady
  | yieldToHold
  | finish (ok : Bool)
  | setScheduler (p : ℕ)
deriving DecidableEq, Repr

def Act.run : Act → Cmd Unit
  | .getCurrentFiber => do
    let _ ← Fibers.getCurrentFiber
    pure ()
  | .construct cb toMain => Command.modify (Thread.newFiber cb toMain)
  | .destroy p => Fibers.destroy p
  | .reset p cb => Fibers.reset p cb
  | .call p => Fibers.call p
  | .back p => Fibers.back p
  | .swapIn p => Fibers.swapIn p
  | .swapOut p => Fibers.swapOut p
  | .yieldToReady => YieldToReady
  | .yieldToHold => YieldToHold
  | .finish ok => Fibers.finish ok
  | .setScheduler p => Command.modify fun s => { s with scheduler := some p }

end Sylar.Fibers
