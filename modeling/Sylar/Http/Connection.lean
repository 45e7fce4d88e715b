import Sylar.Http.ClientParser
import Sylar.Http.SocketStream

/-! # `HttpConnection::recvResponse`

The functions are stated for any `readFixSize`; the code's own is a loop around `recv`. The loop
over the head of the response and the one over the head of a chunk differ in the third
argument of `execute` only.
-/
namespace Sylar.Http
open Memory
open Sylar.Stream (toInt toSize)

/-- The surroundings of a call: `http.response.buffer_size` and `boost::lexical_cast<uint64_t>`. -/
structure ClientEnv where
  bufferSize : ℕ
  lexicalCast : List UInt8 → Option ℕ

abbrev Connection := SocketStream HttpResponseParser

abbrev ClientRecv := Command Exception Connection

/-- `data[n] = '\0'`. -/
def terminate (n : ℕ) : ClientRecv Unit := do
  let s ← Command.state
  if n < s.buffer.length then Command.modify (SocketStream.putBuffer (splice s.buffer n [0]))
  else Command.abort .outOfBounds

variable (env : ClientEnv)

/-- The loop around `execute`: `none` for `return nullptr`, otherwise what is left unparsed. -/
def recvParsed (chunk : Bool) : ℕ → ℤ → ClientRecv (Option ℤ)
  | 0, _ => Command.abort .fuelExhausted
  | fuel + 1, unparsed => do
    let r ← readBuffer (toSize unparsed) ((env.bufferSize + 2 ^ 64 - toSize unparsed) % 2 ^ 64)
    if r ≤ 0 then giveUp
    else do
      let readSize := r + unparsed
      terminate (toSize readSize)
      let nparser ← runParser (HttpResponseParser.execute chunk) (toSize readSize)
      let s ← Command.state
      if s.parser.hasError then giveUp
      else
        let unparsed' := toInt ((toSize readSize + 2 ^ 64 - nparser) % 2 ^ 64)
        if unparsed' = toInt env.bufferSize then giveUp
        else if s.parser.isFinished then pure (some unparsed')
        else recvParsed chunk fuel unparsed'

/-- The first `n` of the `unparsed` bytes at the front of the buffer leave it. -/
def shiftBuffer (unparsed n : ℕ) : ClientRecv (List UInt8) := do
  let s ← Command.state
  if s.buffer.length < n then Command.abort .outOfBounds
  else do
    Command.modify (SocketStream.putBuffer
      (if n < unparsed then memmove s.buffer unparsed n else s.buffer))
    pure (s.buffer.take n)

-- The `readFixSize` that is called: it fills the memory from some place on.
variable (fix : ℕ → ℕ → ClientRecv ℤ)

def readArray (size : ℕ) : ClientRecv (Option (List UInt8)) := do
  Command.modify (SocketStream.putBody (List.replicate size 0))
  let r ← fix 0 size
  let s ← Command.state
  if r ≤ 0 then giveUp else pure (some s.body)

/-- The data of a chunk that is in the buffer; what is needed after it. -/
def bufferedData (size unparsed : ℤ) : ClientRecv (List UInt8 × ℤ × ℤ) :=
  if 0 < unparsed then do
    let take := min (toSize unparsed) (toSize size)
    let bs ← shiftBuffer (toSize unparsed) take
    pure (bs, toInt64 ((toSize size + 2 ^ 64 - take) % 2 ^ 64),
      toInt ((toSize unparsed + 2 ^ 64 - take) % 2 ^ 64))
  else pure ([], size, unparsed)

def missingData (need : ℤ) : ClientRecv (Option (List UInt8)) :=
  if 0 < need then readArray fix need.toNat else pure (some [])

def recvChunk (size unparsed : ℤ) : ClientRecv (Option (List UInt8 × ℤ)) := do
  let (front, need, unparsed') ← bufferedData size unparsed
  let back ← missingData fix need
  match back with
  | none => pure none
  | some bs => do
    let crlf ← readArray fix 2
    match crlf with
    | none => pure none
    | some _ => pure (some (front ++ bs, unparsed'))

/-- The loop over the chunks, with the body so far. -/
def recvChunks : ℕ → List UInt8 → ℤ → ClientRecv (Option HttpResponse)
  | 0, _, _ => Command.abort .fuelExhausted
  | fuel + 1, body, unparsed => do
    let s ← Command.state
    let parsed ← recvParsed env true (backlog s.arrivals + 1) unparsed
    match parsed with
    | none => pure none
    | some unparsed => do
      let s ← Command.state
      let chunkSize := s.parser.parser.contentLen
      if chunkSize = 0 then do
        -- the last chunk; what is left in the buffer goes with it
        if 2 ≤ unparsed then do
          let _ ← shiftBuffer (toSize unparsed) 2
          pure (some (s.parser.data.setBody body))
        else pure (some (s.parser.data.setBody body))
      else do
        let chunk ← recvChunk fix chunkSize unparsed
        let s ← Command.state
        match chunk with
        | none => pure none
        | some (bs, unparsed) =>
          if s.parser.parser.chunksDone then pure (some (s.parser.data.setBody (body ++ bs)))
          else recvChunks fuel (body ++ bs) unparsed

def HttpResponseParser.getContentLength (v : HttpResponseParser) : ℕ :=
  v.data.getHeaderAs env.lexicalCast (bytes "content-length") 0

def fillFramed (take need : ℕ) : ClientRecv Bool :=
  if need ≠ 0 then do
    let r ← fix take need
    pure (decide (0 < r))
  else pure true

/-- A body of `size` bytes, `take` of them at the front of the buffer; `take` and `need` are
`int`s. -/
def takeFramed (size : ℕ) (take need : ℤ) : ClientRecv (Option HttpResponse) := do
  let s ← Command.state
  if take < 0 ∨ s.buffer.length < take.toNat ∨ size < take.toNat then Command.abort .outOfBounds
  else do
    Command.modify (SocketStream.putBody
      (s.buffer.take take.toNat ++ List.replicate (size - take.toNat) 0))
    let complete ← fillFramed fix take.toNat (toSize need)
    let s ← Command.state
    if complete then pure (some (s.parser.data.setBody s.body)) else giveUp

/-- The body of a response that is not chunked. -/
def recvFramed (unparsed : ℤ) : ClientRecv (Option HttpResponse) := do
  let s ← Command.state
  let contentSize := toInt64 (s.parser.getContentLength env)
  if 0 < contentSize then
    -- `body.resize`
    if (maxSize : ℤ) < contentSize then Command.raise .lengthError
    else
      let need := toInt (toSize contentSize)
      let take := min need unparsed
      takeFramed fix contentSize.toNat take (need - take)
  else if contentSize = 0 then pure (some (s.parser.data.setBody []))
  else pure (some s.parser.data)

def afterResponseHead : Option ℤ → ClientRecv (Option HttpResponse)
  | none => pure none
  | some unparsed => do
    let s ← Command.state
    if s.parser.parser.chunked then recvChunks env fix (backlog s.arrivals + 1) [] unparsed
    else recvFramed env fix unparsed

/-- `HttpConnection::recvResponse` around some `readFixSize`. -/
def recvResponseVia (junk : ℕ → UInt8) : ClientRecv (Option HttpResponse) := do
  let s ← Command.state
  Command.modify (SocketStream.putParser .fresh)
  Command.modify (SocketStream.putBuffer ((List.range (env.bufferSize + 1)).map junk))
  let unparsed ← recvParsed env false (backlog s.arrivals + 1) 0
  afterResponseHead env fix unparsed

def recvResponse (junk : ℕ → UInt8) : ClientRecv (Option HttpResponse) :=
  recvResponseVia env readFixSize junk

end Sylar.Http
