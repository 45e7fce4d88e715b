import Sylar.Http.SocketStream

/-! # `HttpSession::recvRequest` -/
namespace Sylar.Http
open Memory
open Sylar.Stream (toInt toSize)

/-- The surroundings of a call: `parser->uri_relaxed`, `http.request.buffer_size`,
`boost::lexical_cast<uint64_t>` and the largest size that can be allocated, which is enough for the
buffer. -/
structure Env where
  relaxed : Bool
  bufferSize : ℕ
  lexicalCast : List UInt8 → Option ℕ
  allocatable : ℕ
  fits : bufferSize ≤ allocatable

/-- A buffer of 64 bytes, and memory for no more. -/
def Env.small (lexicalCast : List UInt8 → Option ℕ) : Env := ⟨false, 64, lexicalCast, 64, le_rfl⟩

/-- The longest body. -/
def Env.longest (env : Env) : ℕ := min maxSize env.allocatable

abbrev Session := SocketStream HttpRequestParser

abbrev Recv := Command Exception Session

def executeBuffer (len : ℕ) : Recv ℕ := runParser HttpRequestParser.execute len

section Code

variable (env : Env) (fix : ℕ → ℕ → Recv ℤ)

/-- The `do … while (true)` loop: `none` for `return nullptr`, otherwise `unparsed_data`. -/
def recvHead : ℕ → ℤ → Recv (Option ℤ)
  | 0, _ => Command.abort .fuelExhausted
  | fuel + 1, unparsed => do
    let r ← readBuffer (toSize unparsed) ((env.bufferSize + 2 ^ 64 - toSize unparsed) % 2 ^ 64)
    if r ≤ 0 then giveUp
    else do
      let readSize := r + unparsed
      let nparser ← executeBuffer (toSize readSize)
      let s ← Command.state
      if s.parser.hasError then giveUp
      else
        let unparsed' := toInt ((toSize readSize + 2 ^ 64 - nparser) % 2 ^ 64)
        if unparsed' = toInt env.bufferSize then giveUp
        else if s.parser.isFinished then pure (some unparsed')
        else recvHead fuel unparsed'

def getContentLength (r : HttpRequest) : ℕ :=
  r.getHeaderAs env.lexicalCast (bytes "content-length") 0

/-- The part of the body that is not in the buffer; `false` if it does not arrive. -/
def fillBody (old need : ℕ) : Recv Bool :=
  if 0 < need then do
    let r ← fix old need
    pure (decide (0 < r))
  else pure true

/-- A body of `size` bytes, the first `old` of them at the front of the buffer. -/
def takeBody (size old : ℕ) : Recv (Option HttpRequest) := do
  let s ← Command.state
  if s.buffer.length < old then Command.abort .outOfBounds
  else do
    Command.modify (SocketStream.putBody (s.buffer.take old ++ List.replicate (size - old) 0))
    let complete ← fillBody fix old (size - old)
    let s ← Command.state
    if complete then pure (some (s.parser.data.setBody s.body)) else giveUp

/-- What follows the loop, with `unparsed_data` bytes at the front of the buffer. -/
def recvBody (unparsed : ℤ) : Recv (Option HttpRequest) := do
  let s ← Command.state
  let contentSize := toInt64 (getContentLength env s.parser.data)
  if 0 < contentSize then
    -- `body.reserve`
    if (maxSize : ℤ) < contentSize then Command.raise .lengthError
    else if (env.allocatable : ℤ) < contentSize then Command.raise .badAlloc
    else
      let size := contentSize.toNat
      takeBody fix size (if 0 < unparsed then min (toSize unparsed) size else 0)
  else pure (some s.parser.data)

def afterHead : Option ℤ → Recv (Option HttpRequest)
  | none => pure none
  | some unparsed => recvBody env fix unparsed

/-- `HttpSession::recvRequest` around some `readFixSize`, the buffer full of whatever the memory
held before. -/
def recvRequestVia (junk : ℕ → UInt8) : Recv (Option HttpRequest) := do
  let s ← Command.state
  Command.modify (SocketStream.putParser (.fresh env.relaxed))
  Command.modify (SocketStream.putBuffer ((List.range env.bufferSize).map junk))
  let unparsed ← recvHead env (backlog s.arrivals + 1) 0
  afterHead env fix unparsed

def recvRequest (junk : ℕ → UInt8) : Recv (Option HttpRequest) :=
  recvRequestVia env readFixSize junk

end Code

/-- What the bytes `y` at the front of a buffer are. -/
theorem buffered {l y : List UInt8} (h : l.take y.length = y) {m : ℕ} (hm : m ≤ y.length) :
    m ≤ l.length ∧ l.take m = y.take m := by
  constructor
  · have hlen := congrArg List.length h
    rw [List.length_take] at hlen
    omega
  · rw [← h, List.take_take, min_eq_left hm]

end Sylar.Http
