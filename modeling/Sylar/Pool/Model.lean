import Sylar.Memory.Heap
import Sylar.Memory.Run
import Sylar.Memory.Tally

/-! # `HttpConnectionPool`

`getConnection` and `ReleasePtr` called concurrently. The limit is tested under the lock, while
`m_total` is changed outside it, in three places; a connection goes from the list of idle ones to a
call, from the call to a borrower, and with the deleter of the borrower's pointer to a call again.
-/
namespace Sylar.Pool
open Memory

structure Conn where
  createTime : UInt64
  request : UInt64
  connected : Bool
deriving DecidableEq, Repr

structure Limits where
  maxSize : UInt32
  maxAliveTime : UInt32
  maxRequest : UInt32
deriving DecidableEq, Repr

/-- Where a call is. Of `getConnection`: the clock is read; the first lock is released, with `ptr` and
the rest of `invaild_conns` to delete, of which there were `size`; before the second lock; the
limit is passed; the new connection is not counted yet. Of `ReleasePtr`: at the beginning; before
`delete` and before `--m_total`; before the lock. -/
inductive Stage where
  | entered (now : UInt64)
  | purging (ptr : Option ℕ) (todo : List ℕ) (size : ℕ)
  | testing
  | connecting
  | counting (p : ℕ)
  | releasing (p : ℕ)
  | discarding (p : ℕ)
  | uncounting
  | returning (p : ℕ)
  | finished (r : Option ℕ)
deriving DecidableEq, Repr

/-- A connection taken from the list: what it was at that moment, `now_ms` of the call and the
clock. -/
structure Take where
  p : ℕ
  conn : Conn
  now : UInt64
  clock : UInt64
deriving DecidableEq, Repr

/-- The pool and its calls. `held` are the connections of the borrowers; `handouts` and `takes` are
histories. -/
structure State where
  heap : Heap Conn
  conns : List ℕ
  total : UInt32
  clock : UInt64
  calls : List Stage
  held : List ℕ
  handouts : List ℕ
  takes : List Take

abbrev Cmd := Command Empty State

namespace State

def init : State := ⟨.empty, [], 0, 0, [], [], [], []⟩

def goto (i : ℕ) (stage : Stage) (s : State) : State := { s with calls := s.calls.set i stage }

def begin (stage : Stage) (s : State) : State := { s with calls := s.calls ++ [stage] }

def putConn (p : ℕ) (c : Conn) (s : State) : State := { s with heap := s.heap.set p c }

def putConns (l : List ℕ) (s : State) : State := { s with conns := l }

def putTotal (n : UInt32) (s : State) : State := { s with total := n }

/-- `delete p`. -/
def free (p : ℕ) (s : State) : State := { s with heap := s.heap.free p }

/-- `new HttpConnection(sock)`. -/
def alloc (s : State) : State := { s with heap := s.heap.alloc ⟨s.clock, 0, true⟩ }

/-- The call returns the connection to a borrower. -/
def handOut (i p : ℕ) (s : State) : State :=
  { s with
    calls := s.calls.set i (.finished (some p))
    held := p :: s.held
    handouts := p :: s.handouts }

def record (t : List Take) (s : State) : State := { s with takes := t ++ s.takes }

end State

def deref (p : ℕ) : Cmd Conn := Command.lookup .danglingPointer fun s => s.heap.get p

def delete (p : ℕ) : Cmd Unit := do
  let _ ← deref p
  Command.modify (State.free p)

/-- `(conn->m_createTime + m_maxAliveTime) <= now`. -/
def Conn.expired (c : Conn) (lim : Limits) (now : UInt64) : Bool :=
  c.createTime + lim.maxAliveTime.toUInt64 ≤ now

variable (lim : Limits)

/-- The loop under the first lock: the connection found, `invaild_conns` and what stays in the
list. -/
def scan (now : UInt64) : List ℕ → Cmd (Option ℕ × List ℕ × List ℕ)
  | [] => pure (none, [], [])
  | p :: conns => do
    let c ← deref p
    if c.connected = false ∨ c.expired lim now then do
      let (ptr, invalid, rest) ← scan now conns
      pure (ptr, p :: invalid, rest)
    else pure (some p, [], conns)

/-- The history entry of the connection that was found. -/
def takeOf (now : UInt64) (ptr : Option ℕ) (s : State) : List Take :=
  match ptr with
  | none => []
  | some p => (s.heap.get p).toList.map fun c => ⟨p, c, now, s.clock⟩

/-- The section under the first lock. -/
def take (i : ℕ) (now : UInt64) : Cmd Unit := do
  let s ← Command.state
  let (ptr, invalid, rest) ← scan lim now s.conns
  Command.modify (State.putConns rest)
  Command.modify (State.record (takeOf now ptr s))
  Command.modify (State.goto i (.purging ptr invalid invalid.length))

/-- The next step of a call; `ok` is whether a connection can be made. -/
def Stage.run (i : ℕ) (ok : Bool) : Stage → Cmd Unit
  | .entered now => take lim i now
  | .purging ptr (p :: todo) size => do
    delete p
    Command.modify (State.goto i (.purging ptr todo size))
  | .purging ptr [] size => do
    Command.modify fun s => s.putTotal (s.total - UInt32.ofNat size)
    match ptr with
    | some p => Command.modify (State.handOut i p)
    | none => Command.modify (State.goto i .testing)
  | .testing => do
    let s ← Command.state
    if s.total ≥ lim.maxSize then Command.modify (State.goto i (.finished none))
    else Command.modify (State.goto i .connecting)
  | .connecting => do
    let s ← Command.state
    if ok then do
      Command.modify State.alloc
      Command.modify (State.goto i (.counting s.heap.brk))
    else Command.modify (State.goto i (.finished none))
  | .counting p => do
    Command.modify fun s => s.putTotal (s.total + 1)
    Command.modify (State.handOut i p)
  | .releasing p => do
    let s ← Command.state
    let c ← deref p
    Command.modify (State.putConn p { c with request := c.request + 1 })
    if c.connected = false ∨ c.expired lim s.clock ∨ c.request + 1 ≥ lim.maxRequest.toUInt64 then
      Command.modify (State.goto i (.discarding p))
    else Command.modify (State.goto i (.returning p))
  | .discarding p => do
    delete p
    Command.modify (State.goto i .uncounting)
  | .uncounting => do
    Command.modify fun s => s.putTotal (s.total - 1)
    Command.modify (State.goto i (.finished none))
  | .returning p => do
    Command.modify fun s => s.putConns (s.conns ++ [p])
    Command.modify (State.goto i (.finished none))
  | .finished _ => pure ()

inductive Act where
  | tick (now : UInt64)
  | disconnect (p : ℕ)
  | getConnection
  | release (p : ℕ)
  | step (i : ℕ) (ok : Bool)
deriving DecidableEq, Repr

/-- The clock does not go back; a connection can be lost at any time; a borrower lets its connection
go, which calls `ReleasePtr`; a call goes on. -/
def Act.run (a : Act) : Cmd Unit := do
  let s ← Command.state
  match a with
  | .tick now => Command.modify fun s => { s with clock := max s.clock now }
  | .disconnect p =>
    match s.heap.get p with
    | none => pure ()
    | some c => Command.modify (State.putConn p { c with connected := false })
  | .getConnection => Command.modify (State.begin (.entered s.clock))
  | .release p =>
    if p ∈ s.held then
      Command.modify fun s => { s.begin (.releasing p) with held := s.held.erase p }
    else pure ()
  | .step i ok =>
    match s.calls[i]? with
    | none => pure ()
    | some stage => stage.run lim i ok

end Sylar.Pool
