import Sylar.Memory.Run
import Mathlib.Data.Int.Basic
import Mathlib.Logic.Function.Basic

/-! # `Scheduler`: worker threads over one queue

`Scheduler::run` on any number of threads, one atomic step at a time, with the
fiber switching of `fiber.cc`. The local variables of the loop are the fields of
`Worker`; what a fiber does between two switches is the choice `Body`. The fiber
that a thread runs is its current one, as long as functions make no fibers of
their own (a constructor changes the current fiber). Waking threads up (`tickle`)
does not touch the state and is left out, and so are the stacks of the fibers.
-/
namespace Sylar
open Memory

namespace Scheduler

/-- What the queue holds: a fiber to resume or a function to call. -/
inductive Task (F C : Type) where
  | fiber (f : F)
  | cb (c : C)
deriving DecidableEq, Repr

/-- A failed `SYLAR_ASSERT`, with the text it logs. -/
structure Assertion where
  text : String
deriving DecidableEq, Repr

inductive FiberState where
  | init
  | hold
  | exec
  | term
  | ready
  | except
deriving DecidableEq, Repr

/-- Where a switch to the fiber continues: at its entry function, inside it, or after its end. -/
inductive Context where
  | fresh
  | inside
  | ended
deriving DecidableEq, Repr

/-- The function of a fiber: `Scheduler::idle` or one that was given. -/
inductive Func (C : Type) where
  | idle
  | user (c : C)
deriving DecidableEq, Repr

structure Fiber (C : Type) where
  state : FiberState
  cb : Option (Func C)
  context : Context
deriving DecidableEq, Repr

/-- An entry of the queue; `none` is the thread id `-1`. -/
structure FiberAndThread (T C : Type) where
  thread : Option T
  task : Task ℕ C
deriving DecidableEq, Repr

/-- The three branches of the loop that switch to a fiber. -/
inductive Kind where
  | fiber
  | callback
  | idle
deriving DecidableEq, Repr

/-- Where a thread is: before `run`, at the top of the loop, behind the locked part, before and
after `swapIn` of a branch, back from it, behind the loop. -/
inductive Pc where
  | outside
  | scan
  | dispatch
  | resume (k : Kind)
  | running (k : Kind)
  | back (k : Kind)
  | stopped
deriving DecidableEq, Repr

structure Worker (T C : Type) where
  pc : Pc
  ft : Option (FiberAndThread T C)
  cbFiber : Option ℕ
  idleFiber : Option ℕ
deriving DecidableEq, Repr

/-- What a running fiber does to give the thread back. -/
inductive Body where
  | yieldToReady
  | yieldToHold
  | swapOut
  | finish
  | throw
deriving DecidableEq, Repr

end Scheduler

structure Scheduler (T C : Type) where
  fibers : List (Scheduler.FiberAndThread T C)
  activeThreadCount : ℤ
  idleThreadCount : ℤ
  fiberAt : ℕ → Scheduler.Fiber C
  nextId : ℕ
  worker : T → Scheduler.Worker T C

namespace Scheduler

variable {T C : Type} [DecidableEq T]

abbrev Cmd (T C : Type) := Command Assertion (Scheduler T C)

def init : Scheduler T C :=
  ⟨[], 0, 0, fun _ => ⟨.init, none, .fresh⟩, 0, fun _ => ⟨.outside, none, none, none⟩⟩

def putWorker (t : T) (w : Worker T C) (s : Scheduler T C) : Scheduler T C :=
  { s with worker := Function.update s.worker t w }

def putFiber (f : ℕ) (x : Fiber C) (s : Scheduler T C) : Scheduler T C :=
  { s with fiberAt := Function.update s.fiberAt f x }

def setWorker (t : T) (w : Worker T C) : Cmd T C Unit := Command.modify (putWorker t w)

def setFiber (f : ℕ) (x : Fiber C) : Cmd T C Unit := Command.modify (putFiber f x)

def getState (f : ℕ) (s : Scheduler T C) : FiberState := (s.fiberAt f).state

def setState (f : ℕ) (st : FiberState) : Cmd T C Unit :=
  Command.modify fun s => s.putFiber f { s.fiberAt f with state := st }

def addActive (n : ℤ) : Cmd T C Unit :=
  Command.modify fun s => { s with activeThreadCount := s.activeThreadCount + n }

def addIdle (n : ℤ) : Cmd T C Unit :=
  Command.modify fun s => { s with idleThreadCount := s.idleThreadCount + n }

def make (x : Fiber C) (s : Scheduler T C) : Scheduler T C :=
  { s.putFiber s.nextId x with nextId := s.nextId + 1 }

/-- `new Fiber(cb)`. -/
def newFiber (x : Fiber C) : Cmd T C ℕ := do
  let s ← Command.state
  Command.modify (make x)
  pure s.nextId

/-- `Fiber::reset`. -/
def reset (f : ℕ) (cb : Option (Func C)) : Cmd T C Unit := do
  let s ← Command.state
  if s.getState f = .term ∨ s.getState f = .except ∨ s.getState f = .init then
    setFiber f ⟨.init, cb, .fresh⟩
  else Command.raise ⟨"m_state == TERM || m_state == EXCEPT || m_state == INIT"⟩

/-- `scheduleNoLock`: a null fiber or function is not queued. -/
def scheduleNoLock (task : Option (Task ℕ C)) (thread : Option T) (s : Scheduler T C) :
    Scheduler T C :=
  { s with fibers := s.fibers ++ (task.map fun x => ⟨thread, x⟩).toList }

def schedule (task : Option (Task ℕ C)) (thread : Option T) : Cmd T C Unit :=
  Command.modify (scheduleNoLock task thread)

def scheduleRange (tasks : List (Option (Task ℕ C))) : Cmd T C Unit :=
  Command.modify fun s => tasks.foldl (fun s task => scheduleNoLock task none s) s

def Worker.goto (w : Worker T C) (pc : Pc) : Worker T C := { w with pc := pc }

/-- Back to the top of the loop, the branch having let go of its fiber. -/
def Worker.drop (w : Worker T C) : Kind → Worker T C
  | .fiber => { w with pc := .scan, ft := none }
  | .callback => { w with pc := .scan, cbFiber := none }
  | .idle => { w with pc := .scan, idleFiber := none }

/-- The fiber that the branch switches to. -/
def Worker.slot (w : Worker T C) : Kind → Option ℕ
  | .fiber => match w.ft with
    | some ⟨_, .fiber f⟩ => some f
    | _ => none
  | .callback => w.cbFiber
  | .idle => w.idleFiber

/-- The beginning of `run`: the thread's main fiber and its idle fiber are made. The other local
variables are null from the start. -/
def enter (t : T) : Cmd T C Unit := do
  let _ ← newFiber ⟨.exec, none, .inside⟩
  let f ← newFiber ⟨.init, some .idle, .fresh⟩
  let s ← Command.state
  setWorker t { s.worker t with pc := .scan, idleFiber := some f }

/-- The entry is for this thread, and its fiber is not executing. -/
def eligible (s : Scheduler T C) (t : T) (e : FiberAndThread T C) : Bool :=
  (e.thread.isNone || e.thread = some t) &&
    match e.task with
    | .fiber f => s.getState f ≠ .exec
    | .cb _ => true

/-- The part under `m_mutex`: the first eligible entry is taken out of the queue. -/
def take (t : T) : Cmd T C Unit := do
  let s ← Command.state
  let w := s.worker t
  match s.fibers.find? (s.eligible t) with
  | none => setWorker t { w with pc := .dispatch, ft := none }
  | some e => do
    Command.modify fun s => { s with fibers := s.fibers.eraseP (s.eligible t) }
    addActive 1
    setWorker t { w with pc := .dispatch, ft := some e }

/-- The choice of the branch, up to its `swapIn`. -/
def dispatch (t : T) : Cmd T C Unit := do
  let s ← Command.state
  let w := s.worker t
  match w.ft with
  | some ⟨_, .fiber f⟩ =>
    if s.getState f ≠ .term ∧ s.getState f ≠ .except then setWorker t (w.goto (.resume .fiber))
    else do
      addActive (-1)
      setWorker t (w.drop .fiber)
  | some ⟨_, .cb c⟩ =>
    match w.cbFiber with
    | some f => do
      reset f (some (.user c))
      setWorker t { w with pc := .resume .callback, ft := none }
    | none => do
      let f ← newFiber ⟨.init, some (.user c), .fresh⟩
      setWorker t { w with pc := .resume .callback, ft := none, cbFiber := some f }
  | none =>
    match w.idleFiber with
    | none => Command.abort .nullPointer
    | some f =>
      if s.getState f = .term then setWorker t (w.goto .stopped)
      else do
        addIdle 1
        setWorker t (w.goto (.resume .idle))

/-- `Fiber::swapIn`. -/
def swapIn (t : T) (k : Kind) : Cmd T C Unit := do
  let s ← Command.state
  let w := s.worker t
  match w.slot k with
  | none => Command.abort .nullPointer
  | some f =>
    if s.getState f = .exec then Command.raise ⟨"m_state != EXEC"⟩
    else do
      setState f .exec
      setWorker t (w.goto (.running k))

/-- What becomes of the fiber record when its function acts. A function that is null throws as
soon as it is called. -/
def act (x : Fiber C) (b : Body) : Except Assertion (Fiber C) :=
  if x.context = .ended then .error ⟨"never reach fiber_id="⟩
  else if x.context = .fresh ∧ x.cb = none then .ok { x with state := .except, context := .ended }
  else
    match b with
    | .yieldToReady =>
      if x.state = .exec then .ok { x with state := .ready, context := .inside }
      else .error ⟨"cur->m_state == EXEC"⟩
    | .yieldToHold =>
      if x.state = .exec then .ok { x with context := .inside }
      else .error ⟨"cur->m_state == EXEC"⟩
    | .swapOut => .ok { x with context := .inside }
    | .finish => .ok ⟨.term, none, .ended⟩
    | .throw => .ok { x with state := .except, context := .ended }

/-- The running fiber gives the thread back. -/
def leave (t : T) (k : Kind) (b : Body) : Cmd T C Unit := do
  let s ← Command.state
  let w := s.worker t
  match w.slot k with
  | none => Command.abort .nullPointer
  | some f =>
    match act (s.fiberAt f) b with
    | .error e => Command.raise e
    | .ok x => do
      setFiber f x
      setWorker t (w.goto (.back k))

/-- A fiber of the queue that did not finish is queued again or put on hold. -/
def putAway (f : ℕ) : Cmd T C Unit := do
  let s ← Command.state
  if s.getState f = .ready then schedule (some (.fiber f)) none
  else if s.getState f ≠ .term ∧ s.getState f ≠ .except then setState f .hold
  else pure ()

/-- What the loop does when the switch returns. -/
def settle (t : T) (k : Kind) : Cmd T C Unit := do
  let s ← Command.state
  let w := s.worker t
  match w.slot k with
  | none => Command.abort .nullPointer
  | some f =>
    match k with
    | .fiber => do
      addActive (-1)
      putAway f
      setWorker t (w.drop .fiber)
    | .callback => do
      addActive (-1)
      if s.getState f = .ready then do
        schedule (some (.fiber f)) none
        setWorker t (w.drop .callback)
      else if s.getState f = .except ∨ s.getState f = .term then do
        reset f none
        setWorker t (w.goto .scan)
      else do
        setState f .hold
        setWorker t (w.drop .callback)
    | .idle => do
      addIdle (-1)
      if s.getState f ≠ .term ∧ s.getState f ≠ .except then do
        setState f .hold
        setWorker t (w.goto .scan)
      else setWorker t (w.goto .scan)

/-- The next step of a thread. -/
def step (t : T) (b : Body) : Cmd T C Unit := do
  let s ← Command.state
  match (s.worker t).pc with
  | .outside => enter t
  | .scan => take t
  | .dispatch => dispatch t
  | .resume k => swapIn t k
  | .running k => leave t k b
  | .back k => settle t k
  | .stopped => pure ()

/-- The steps of the system. Tasks are scheduled by running fibers and by other threads alike;
fibers are made by threads that are no workers. -/
inductive Action (T C : Type) where
  | thread (t : T) (b : Body)
  | schedule (task : Option (Task ℕ C)) (thread : Option T)
  | scheduleRange (tasks : List (Option (Task ℕ C)))
  | newFiber (cb : Option C)

def Action.run : Action T C → Cmd T C Unit
  | .thread t b => step t b
  | .schedule task pin => Scheduler.schedule task pin
  | .scheduleRange tasks => Scheduler.scheduleRange tasks
  | .newFiber cb => do
    let _ ← Scheduler.newFiber ⟨.init, cb.map .user, .fresh⟩
    pure ()

abbrev Reachable (allowed : Scheduler T C → Action T C → Prop) : Scheduler T C → Prop :=
  Memory.Reachable init Action.run allowed

end Scheduler
end Sylar
