import Mathlib.Algebra.GroupWithZero.Nat
import Sylar.Http.Parser
import Sylar.Memory.Splice

/-! # Socket streams

The peer's bytes come in arrivals; a `recv` takes the next one, or as much of it as it
asked for. A stream holds what has not been received yet, and the objects that a
call of `recvRequest` or `recvResponse` works on: the parser, the buffer, and the memory
that `readFixSize` fills.
-/
namespace Sylar.Http
open Memory
open Sylar.Stream (toInt toSize fixSizeLoop toInt_eq_self_iff)

/-- What one `recv` can find: bytes (none at the end of the stream), or a failure. -/
inductive Arrival where
  | data (bs : List UInt8)
  | failure
deriving DecidableEq, Repr

structure SocketStream (P : Type) where
  arrivals : List Arrival
  connected : Bool
  parser : P
  buffer : List UInt8
  body : List UInt8

variable {P : Type}

namespace SocketStream

def putArrivals (l : List Arrival) (s : SocketStream P) : SocketStream P := { s with arrivals := l }
def putBuffer (l : List UInt8) (s : SocketStream P) : SocketStream P := { s with buffer := l }
def putBody (l : List UInt8) (s : SocketStream P) : SocketStream P := { s with body := l }
def putParser (v : P) (s : SocketStream P) : SocketStream P := { s with parser := v }

def close (s : SocketStream P) : SocketStream P := { s with connected := false }

def advance (u : SocketStream P) (rest : List Arrival) (v : P) (memory : List UInt8) :
    SocketStream P :=
  { u with arrivals := rest, parser := v, buffer := memory }

end SocketStream

/-- Commands on a stream with a parser of type `P`. -/
abbrev Streaming (P : Type) := Command Exception (SocketStream P)

/-- `recv(buffer, length)`: the result, and the bytes that are stored. -/
def receive (length : ℕ) : Streaming P (ℤ × List UInt8) := do
  let s ← Command.state
  if s.connected then
    match s.arrivals with
    | [] => pure (0, [])
    | .failure :: rest => do
      Command.modify (SocketStream.putArrivals rest)
      pure (-1, [])
    | .data bs :: rest => do
      Command.modify (SocketStream.putArrivals
        (if bs.length ≤ length then rest else .data (bs.drop length) :: rest))
      pure (toInt (bs.take length).length, bs.take length)
  else pure (-1, [])

/-- `read(data + start, length)`. -/
def readBuffer (start length : ℕ) : Streaming P ℤ := do
  let (r, bs) ← receive length
  let s ← Command.state
  if start + bs.length ≤ s.buffer.length then do
    Command.modify (SocketStream.putBuffer (splice s.buffer start bs))
    pure r
  else Command.abort .outOfBounds

/-- `read(&body[old] + offset, length)`. -/
def readBody (old length offset : ℕ) : Streaming P ℤ := do
  let (r, bs) ← receive length
  let s ← Command.state
  let start := (old + offset) % 2 ^ 64
  if start + bs.length ≤ s.body.length then do
    Command.modify (SocketStream.putBody (splice s.body start bs))
    pure r
  else Command.abort .outOfBounds

/-- A bound for the number of `recv`s that do not find the end of the stream. -/
def backlog (arrivals : List Arrival) : ℕ :=
  (arrivals.map fun a => match a with
    | .data bs => bs.length + 1
    | .failure => 1).sum

/-- `readFixSize(&body[old], length)`. -/
def readFixSize (old length : ℕ) : Streaming P ℤ := do
  let s ← Command.state
  fixSizeLoop (readBody old length) length (backlog s.arrivals + 2) 0 length

/-- `parser->execute(data, len)`. -/
def runParser (execute : List UInt8 → ℕ → Command Exception P (ℕ × List UInt8)) (len : ℕ) :
    Streaming P ℕ := do
  let s ← Command.state
  let (offset, memory) ← Command.focus SocketStream.parser SocketStream.putParser
    (execute s.buffer len)
  Command.modify (SocketStream.putBuffer memory)
  pure offset

/-- `close(); return nullptr`. -/
def giveUp {α : Type} : Streaming P (Option α) := do
  Command.modify SocketStream.close
  pure none

/-- The conversion of a `uint64_t` to `int64_t`. -/
def toInt64 (x : ℕ) : ℤ := if x % 2 ^ 64 < 2 ^ 63 then (x % 2 ^ 64 : ℕ) else (x % 2 ^ 64 : ℕ) - 2 ^ 64

section Whole

variable {u : SocketStream P} {rest : List Arrival} {x : List UInt8} {n : ℕ}

/-- A read for which the next arrival is not too long. -/
theorem receive_whole (hcon : u.connected = true) (harr : u.arrivals = .data x :: rest)
    (hx : x.length < 2 ^ 31) (hn : x.length ≤ n) :
    receive n u = .done ((x.length : ℤ), x) (u.putArrivals rest) := by
  rw [receive, Command.state_bind_apply, Command.ite_apply, if_pos hcon, harr]
  dsimp only
  rw [Command.modify_bind_apply, if_pos hn, List.take_of_length_le hn,
    toInt_eq_self_iff.mpr hx]
  rfl

/-- Such a read behind the bytes `y` of the buffer. -/
theorem readBuffer_whole {y : List UInt8} (hcon : u.connected = true)
    (harr : u.arrivals = .data x :: rest) (hx : x.length < 2 ^ 31) (hn : x.length ≤ n)
    (htake : u.buffer.take y.length = y) (hbuf : y.length + x.length ≤ u.buffer.length) :
    readBuffer y.length n u = .done (x.length : ℤ)
      ((u.putArrivals rest).putBuffer (y ++ x ++ u.buffer.drop (y.length + x.length))) := by
  have hsplit : splice u.buffer y.length x = y ++ x ++ u.buffer.drop (y.length + x.length) := by
    conv_lhs => rw [← List.take_append_drop y.length u.buffer, htake]
    rw [splice_append_right _ _ le_rfl, Nat.sub_self, splice_zero, List.drop_drop,
      List.append_assoc]
  rw [readBuffer, Command.bind_done (receive_whole hcon harr hx hn)]
  dsimp only
  rw [Command.state_bind_apply, Command.ite_apply, if_pos (by exact hbuf),
    Command.modify_bind_apply, ← hsplit]
  rfl

theorem readBuffer_end (hcon : u.connected = true) (harr : u.arrivals = []) :
    readBuffer 0 n u = .done 0 u := by
  have hreceive : receive n u = .done (0, []) u := by
    rw [receive, Command.state_bind_apply, Command.ite_apply, if_pos hcon, harr]
    rfl
  rw [readBuffer, Command.bind_done hreceive]
  dsimp only
  rw [Command.state_bind_apply, Command.ite_apply, if_pos (by exact Nat.zero_le _),
    Command.modify_bind_apply, splice_zero]
  rfl

end Whole

end Sylar.Http
