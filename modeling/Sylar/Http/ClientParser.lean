import Sylar.Http.ClientGrammar
import Sylar.Http.Parser
import Sylar.Http.Response

/-! # The response parser

`httpclient_parser` with its actions, the callbacks of `HttpResponseParser` and one call of
`execute`. For a chunk the machine is started afresh, the response object is not.
`on_response_chunk` and `on_response_last_chunk` are empty.
-/
namespace Sylar.Http
open Memory Ragel
open Sylar.Stream (toInt toSize)

structure HttpclientParser where
  cs : Option (State ClientAction)
  bodyStart : ℕ
  contentLen : ℤ
  chunked : Bool
  chunksDone : Bool
  close : Bool
  nread : ℕ
  mark : ℕ
  fieldStart : ℕ
  fieldLen : ℕ
deriving DecidableEq

structure HttpResponseParser where
  parser : HttpclientParser
  data : HttpResponse
  error : ℕ
deriving DecidableEq

abbrev ClientParse := Command Exception HttpResponseParser

def httpclientParserInit : HttpclientParser :=
  ⟨some (start ClientGrammar.main), 0, -1, false, false, false, 0, 0, 0, 0⟩

namespace HttpResponseParser

/-- `HttpResponseParser::HttpResponseParser`. -/
def fresh : HttpResponseParser := ⟨httpclientParserInit, .fresh, 0⟩

def onParser (f : HttpclientParser → HttpclientParser) (v : HttpResponseParser) :
    HttpResponseParser :=
  { v with parser := f v.parser }

def onData (f : HttpResponse → HttpResponse) (v : HttpResponseParser) : HttpResponseParser :=
  { v with data := f v.data }

def setError (n : ℕ) (v : HttpResponseParser) : HttpResponseParser := { v with error := n }

end HttpResponseParser

section Callbacks

variable (memory : List UInt8)

def onResponseReason (start length : ℕ) : ClientParse Unit := do
  let s ← stdString memory start length
  Command.modify (·.onData (·.setReason s))

/-- `strtol` into an `int`, at a place of the memory. -/
def readInt (base start : ℕ) : ClientParse ℤ :=
  match strtolInt base (memory.drop start) with
  | none => Command.abort .outOfBounds
  | some n => pure n

def onResponseStatus (start : ℕ) : ClientParse Unit := do
  let status ← readInt memory 10 start
  Command.modify (·.onData (·.setStatus status))

def onResponseVersion (start length : ℕ) : ClientParse Unit :=
  match strncmp (bytes "HTTP/1.1") (memory.drop start) length with
  | none => Command.abort .outOfBounds
  | some true => Command.modify (·.onData (·.setVersion 0x11))
  | some false =>
    match strncmp (bytes "HTTP/1.0") (memory.drop start) length with
    | none => Command.abort .outOfBounds
    | some true => Command.modify (·.onData (·.setVersion 0x10))
    | some false => Command.modify (·.setError 1001)

def onResponseHeaderDone : ClientParse Unit :=
  Command.modify fun v => v.onData (·.setClose v.parser.close)

def onResponseHttpField (field flen value vlen : ℕ) : ClientParse Unit :=
  if flen = 0 then pure ()
  else do
    let key ← stdString memory field flen
    let val ← stdString memory value vlen
    Command.modify (·.onData (·.setHeader key val))

end Callbacks

/-- The code of an action at position `p` of the buffer, up to `fbreak`. -/
def clientAction (memory : List UInt8) (a : ClientAction) (p : ℕ) : ClientParse Unit := do
  let v ← Command.state
  match a with
  | .mark => Command.modify (·.onParser fun h => { h with mark := p })
  | .startField => Command.modify (·.onParser fun h => { h with fieldStart := p })
  | .writeField =>
    Command.modify (·.onParser fun h => { h with fieldLen := len p h.fieldStart })
  | .startValue => Command.modify (·.onParser fun h => { h with mark := p })
  | .writeContentLen => do
    let n ← readInt memory 10 v.parser.mark
    Command.modify (·.onParser fun h => { h with contentLen := n })
  | .writeConnectionClose => Command.modify (·.onParser fun h => { h with close := true })
  | .writeValue =>
    onResponseHttpField memory v.parser.fieldStart v.parser.fieldLen v.parser.mark
      (len p v.parser.mark)
  | .reasonPhrase => onResponseReason memory v.parser.mark (len p v.parser.mark)
  | .statusCode => onResponseStatus memory v.parser.mark
  | .httpVersion => onResponseVersion memory v.parser.mark (len p v.parser.mark)
  | .chunkSize => do
    let n ← readInt memory 16 v.parser.mark
    Command.modify (·.onParser fun h =>
      { h with chunked := true, contentLen := n, chunksDone := n ≤ 0 })
  | .transChunked => Command.modify (·.onParser fun h => { h with chunked := true })
  | .done => do
    Command.modify (·.onParser fun h => { h with bodyStart := p + 1 })
    onResponseHeaderDone

/-- Only `done` contains `fbreak`. -/
def clientBreaks : ClientAction → Bool
  | .done => true
  | _ => false

namespace HttpclientParser

/-- What is forgotten at the start of a call. -/
def reset (h : HttpclientParser) : HttpclientParser :=
  { h with nread := 0, mark := 0, fieldLen := 0, fieldStart := 0 }

/-- What is kept at its end. -/
def keep (off : ℕ) (halt : Halt ClientAction) (h : HttpclientParser) : HttpclientParser :=
  { h with cs := if h.cs.isSome then halt.cs else h.cs, nread := h.nread + (halt.p - off) }

/-- The checks that lead to `error`. -/
def inside (len : ℕ) (h : HttpclientParser) : Bool :=
  h.mark < len && h.fieldLen ≤ len && h.fieldStart < len

end HttpclientParser

/-- `%% write exec`: nothing happens in the error state. -/
def clientWriteExec (memory : List UInt8) (len off : ℕ) : ClientParse (Halt ClientAction) := do
  let v ← Command.state
  match v.parser.cs with
  | none => pure ⟨none, off, false⟩
  | some s => exec clientBreaks (clientAction memory) s off ((memory.take len).drop off)

/-- `assert(*pe == '\0')`. -/
def assertNul (memory : List UInt8) (len : ℕ) : ClientParse Unit :=
  match memory[len]? with
  | none => Command.abort .outOfBounds
  | some b => assert (b = 0)

/-- `httpclient_parser_execute(parser, buffer, len, off)`. -/
def httpclientParserExecute (memory : List UInt8) (len off : ℕ) : ClientParse ℤ := do
  Command.modify (·.onParser HttpclientParser.reset)
  assert (off ≤ len)
  assertNul memory len
  assert ((len : ℤ) - off = toInt len - toInt off)
  let halt ← clientWriteExec memory len off
  Command.modify (·.onParser (HttpclientParser.keep off halt))
  let v ← Command.state
  assert (halt.p ≤ len)
  assert (v.parser.nread ≤ len)
  assert (v.parser.bodyStart ≤ len)
  pure (if v.parser.inside len then toInt v.parser.nread else -1)

namespace HttpResponseParser

/-- `HttpResponseParser::execute(data, len, chunk)`: the offset, and the memory afterwards. -/
def execute (chunk : Bool) (memory : List UInt8) (len : ℕ) : ClientParse (ℕ × List UInt8) := do
  Command.modify fun v => if chunk then v.onParser fun _ => httpclientParserInit else v
  let offset ← httpclientParserExecute memory len 0
  -- `memmove` from in front of the buffer if the result is -1
  if toSize offset ≤ len then pure (toSize offset, memmove memory len (toSize offset))
  else Command.abort .outOfBounds

def hasError (v : HttpResponseParser) : Bool := v.error ≠ 0 || v.parser.cs = none

/-- `HttpResponseParser::isFinished`, as a condition: the error state counts. The two kinds of
head end in one and the same state, which nothing leaves. -/
def isFinished (v : HttpResponseParser) : Bool :=
  match v.parser.cs with
  | none => true
  | some s => final s

end HttpResponseParser

end Sylar.Http
