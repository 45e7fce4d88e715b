import Sylar.Memory.Run
import Sylar.Memory.SortedSet
import Mathlib.Logic.Function.Basic
import Mathlib.Data.Prod.Lex

/-! # `TimerManager`

The `Timer` objects live at addresses, which order timers of the same deadline. The set of
registered timers is kept in order by a field of its elements, `m_next`, that changes. Times are
`uint64_t` and the clock is read anew in every call.
-/
namespace Sylar.Timers
open Memory

/-- `std::function<void()>`: what the caller passed, or the closure of `addConditionTimer`. -/
inductive Callback (C W : Type) where
  | plain (cb : C)
  | onTimer (cond : W) (cb : Option C)
deriving DecidableEq, Repr

structure Timer (F : Type) where
  recurring : Bool
  ms : UInt64
  next : UInt64
  cb : Option F
deriving DecidableEq, Repr

structure TimerManager (F : Type) where
  /-- The `Timer` objects that are alive. -/
  heap : ℕ → Option (Timer F)
  timers : List ℕ
  tickled : Bool
  previousTime : UInt64

abbrev Cmd (F : Type) := Command Empty (TimerManager F)

variable {F C W : Type}

/-- `Timer(ms, cb, recurring, manager)`. -/
def Timer.new (ms : UInt64) (cb : Option F) (recurring : Bool) (now : UInt64) : Timer F :=
  ⟨recurring, ms, now + ms, cb⟩

def Timer.at (next : UInt64) : Timer F := ⟨false, 0, next, none⟩

/-- `m_next` of the timer at an address. -/
def nextOf (heap : ℕ → Option (Timer F)) (p : ℕ) : UInt64 :=
  match heap p with
  | none => 0
  | some t => t.next

def comparator (heap : ℕ → Option (Timer F)) : Option ℕ → Option ℕ → Bool
  | none, none => false
  | none, some _ => true
  | some _, none => false
  | some lhs, some rhs =>
    if nextOf heap lhs < nextOf heap rhs then true
    else if nextOf heap rhs < nextOf heap lhs then false
    else lhs < rhs

def less (heap : ℕ → Option (Timer F)) (p q : ℕ) : Bool := comparator heap (some p) (some q)

namespace TimerManager

def init (now : UInt64) : TimerManager F := ⟨fun _ => none, [], false, now⟩

def store (p : ℕ) (t : Timer F) (s : TimerManager F) : TimerManager F :=
  { s with heap := Function.update s.heap p (some t) }

def putTimers (l : List ℕ) (s : TimerManager F) : TimerManager F := { s with timers := l }
def putTickled (b : Bool) (s : TimerManager F) : TimerManager F := { s with tickled := b }
def putPreviousTime (t : UInt64) (s : TimerManager F) : TimerManager F :=
  { s with previousTime := t }

/-- `m_timers.insert`. -/
def insert (p : ℕ) (s : TimerManager F) : TimerManager F :=
  s.putTimers (SortedSet.insert (less s.heap) p s.timers)

/-- `m_timers.find`. -/
def find (s : TimerManager F) (p : ℕ) : Option ℕ := SortedSet.find (less s.heap) p s.timers

end TimerManager

open TimerManager

def deref (p : ℕ) : Cmd F (Timer F) := Command.lookup .danglingPointer fun s => s.heap p

/-- `m_timers.erase(it)`. -/
def erase (it : Option ℕ) : Cmd F Unit :=
  match it with
  | none => Command.abort .outOfBounds
  | some i => Command.modify fun s => s.putTimers (s.timers.eraseIdx i)

/-- `addTimer(val, lock)`; `true` if `onTimerInsertedAtFront` is called. -/
def addTimerLocked (p : ℕ) : Cmd F Bool := do
  Command.modify (insert p)
  let s ← Command.state
  let atFront := s.timers.head? = some p && !s.tickled
  Command.modify (putTickled (s.tickled || atFront))
  pure atFront

/-- `addTimer(ms, cb, recurring)`, the new object being placed at `p`. -/
def addTimer (p : ℕ) (ms : UInt64) (cb : Option F) (recurring : Bool) (now : UInt64) :
    Cmd F Bool := do
  Command.modify (store p (.new ms cb recurring now))
  addTimerLocked p

def addConditionTimer (p : ℕ) (ms : UInt64) (cb : Option C) (cond : W) (recurring : Bool)
    (now : UInt64) : Cmd (Callback C W) Bool :=
  addTimer p ms (some (.onTimer cond cb)) recurring now

def cancel (p : ℕ) : Cmd F Bool := do
  let t ← deref p
  if t.cb.isSome then do
    Command.modify (store p { t with cb := none })
    let s ← Command.state
    erase (s.find p)
    pure true
  else pure false

def refresh (p : ℕ) (now : UInt64) : Cmd F Bool := do
  let t ← deref p
  let s ← Command.state
  if t.cb.isNone then pure false
  else if (s.find p).isNone then pure false
  else do
    erase (s.find p)
    Command.modify (store p { t with next := now + t.ms })
    Command.modify (insert p)
    pure true

def reset (p : ℕ) (ms : UInt64) (fromNow : Bool) (now : UInt64) : Cmd F Bool := do
  let t ← deref p
  let s ← Command.state
  if ms = t.ms && !fromNow then pure true
  else if t.cb.isNone then pure false
  else if (s.find p).isNone then pure false
  else do
    erase (s.find p)
    let start := if fromNow then now else t.next - t.ms
    Command.modify (store p { t with ms := ms, next := start + ms })
    let _ ← addTimerLocked p
    pure true

/-- The test of `detectClockRollover`. -/
def rolledOver (previousTime now : UInt64) : Bool :=
  now < previousTime && now < previousTime - 60 * 60 * 1000

/-- `while (it != end && (*it)->m_next == now_ms) ++it`. -/
def skipEqual (heap : ℕ → Option (Timer F)) (now : UInt64) (timers : List ℕ) (it : ℕ) : ℕ :=
  it + ((timers.drop it).takeWhile fun p => nextOf heap p == now).length

/-- Where the timers that are due end; `a` is the address of `now_timer`. -/
def due (s : TimerManager F) (rollover : Bool) (a : ℕ) (now : UInt64) : ℕ :=
  let heap := Function.update s.heap a (some (.at now))
  skipEqual s.heap now s.timers
    (if rollover then s.timers.length else SortedSet.lowerBound (less heap) a s.timers)

/-- An expired timer: its callback is handed out. -/
def handOut (now : UInt64) (p : ℕ) : Cmd F (Option F) := do
  let t ← deref p
  if t.recurring then do
    Command.modify (store p { t with next := now + t.ms })
    Command.modify (insert p)
    pure t.cb
  else do
    Command.modify (store p { t with cb := none })
    pure t.cb

def handOutAll (now : UInt64) : List ℕ → Cmd F (List (Option F))
  | [] => pure []
  | p :: expired => do
    let cb ← handOut now p
    let cbs ← handOutAll now expired
    pure (cb :: cbs)

/-- Whether there is nothing to do although timers are registered. -/
def idle (s : TimerManager F) (rollover : Bool) (now : UInt64) : Bool :=
  match s.timers with
  | [] => true
  | p :: _ => !rollover && now < nextOf s.heap p

/-- The timers whose callbacks a call of `listExpiredCb` hands out. -/
def expired (s : TimerManager F) (a : ℕ) (now : UInt64) : List ℕ :=
  let rollover := rolledOver s.previousTime now
  if idle s rollover now then [] else s.timers.take (due s rollover a now)

/-- `listExpiredCb`: the callbacks that are appended. -/
def listExpiredCb (a : ℕ) (now : UInt64) : Cmd F (List (Option F)) := do
  let s ← Command.state
  if s.timers.isEmpty then pure []
  else do
    let rollover := rolledOver s.previousTime now
    Command.modify (putPreviousTime now)
    if idle s rollover now then pure []
    else do
      let it := due s rollover a now
      Command.modify (putTimers (s.timers.drop it))
      handOutAll now (s.timers.take it)

def getNextTimer (now : UInt64) : Cmd F UInt64 := do
  Command.modify (putTickled false)
  let s ← Command.state
  match s.timers with
  | [] => pure 0xFFFFFFFFFFFFFFFF
  | p :: _ =>
    if nextOf s.heap p ≤ now then pure 0
    else pure (nextOf s.heap p - now)

end Sylar.Timers

