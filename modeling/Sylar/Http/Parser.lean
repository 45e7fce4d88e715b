import Sylar.Http.Grammar
import Sylar.Ragel.Exec
import Sylar.Stream.Loop

/-! # The request parser

`http_parser` with its actions, the callbacks of `HttpRequestParser` and one call of
`execute`. A pointer into the caller's buffer is an index into its memory; what lies
behind the bytes of the call is part of the memory and can be read.
-/
namespace Sylar.Http
open Memory Ragel
open Sylar.Stream (toInt)

inductive Exception where
  | lengthError
  | badAlloc
  | assertion
deriving DecidableEq, Repr

/-- `struct http_parser`. Nobody gives `query_start` a first value. -/
structure HttpParser where
  cs : Option (State Action)
  bodyStart : ℕ
  contentLen : ℤ
  nread : ℕ
  mark : ℕ
  fieldStart : ℕ
  fieldLen : ℕ
  queryStart : Option ℕ
  xmlSent : Bool
  jsonSent : Bool

structure HttpRequestParser where
  parser : HttpParser
  data : HttpRequest
  error : ℕ

abbrev Parse := Command Exception HttpRequestParser

def httpParserInit (relaxed : Bool) : HttpParser :=
  ⟨some (start (Grammar.main relaxed)), 0, 0, 0, 0, 0, 0, none, false, false⟩

/-- `HttpRequestParser::HttpRequestParser`. -/
def HttpRequestParser.fresh (relaxed : Bool) : HttpRequestParser :=
  ⟨httpParserInit relaxed, .fresh, 0⟩

namespace HttpRequestParser

def onParser (f : HttpParser → HttpParser) (v : HttpRequestParser) : HttpRequestParser :=
  { v with parser := f v.parser }

def onData (f : HttpRequest → HttpRequest) (v : HttpRequestParser) : HttpRequestParser :=
  { v with data := f v.data }

def setError (n : ℕ) (v : HttpRequestParser) : HttpRequestParser := { v with error := n }

end HttpRequestParser

section Callbacks

-- The memory that the pointers of a call point into.
variable (memory : List UInt8)

/-- `std::string(at, length)`. -/
def stdString {σ : Type} (start length : ℕ) : Command Exception σ (List UInt8) :=
  if maxSize < length then Command.raise .lengthError
  else if start + length ≤ memory.length then pure ((memory.drop start).take length)
  else Command.abort .outOfBounds

def onRequestMethod (start : ℕ) : Parse Unit :=
  match charsToHttpMethod (memory.drop start) with
  | none => Command.abort .outOfBounds
  | some none => Command.modify (·.setError 1000)
  | some (some m) => Command.modify (·.onData (·.setMethod m))

def onRequestFragment (start length : ℕ) : Parse Unit := do
  let s ← stdString memory start length
  Command.modify (·.onData (·.setFragment s))

def onRequestPath (start length : ℕ) : Parse Unit := do
  let s ← stdString memory start length
  Command.modify (·.onData (·.setPath s))

def onRequestQuery (start length : ℕ) : Parse Unit := do
  let s ← stdString memory start length
  Command.modify (·.onData (·.setQuery s))

def onRequestVersion (start length : ℕ) : Parse Unit :=
  match strncmp (bytes "HTTP/1.1") (memory.drop start) length with
  | none => Command.abort .outOfBounds
  | some true => Command.modify (·.onData (·.setVersion 0x11))
  | some false =>
    match strncmp (bytes "HTTP/1.0") (memory.drop start) length with
    | none => Command.abort .outOfBounds
    | some true => Command.modify (·.onData (·.setVersion 0x10))
    | some false => Command.modify (·.setError 1001)

/-- What `on_request_header_done` makes of the version and the `Connection` header. -/
def headerDone (r : HttpRequest) : HttpRequest :=
  let conn := r.getHeader (bytes "Connection") []
  if r.version = 0x10 then
    if sameIgnoringCase conn (bytes "keep-alive") then r else r.setClose true
  else if sameIgnoringCase conn (bytes "close") then r.setClose true
  else r.setClose false

def onRequestHeaderDone : Parse Unit := Command.modify (·.onData headerDone)

def onRequestHttpField (field flen value vlen : ℕ) : Parse Unit :=
  if flen = 0 then pure ()
  else do
    let key ← stdString memory field flen
    let val ← stdString memory value vlen
    Command.modify (·.onData (·.setHeader key val))

end Callbacks

section Actions

/-- `LEN(AT, FPC)`, a `size_t`. -/
def len (p start : ℕ) : ℕ := (((p : ℤ) - start) % 2 ^ 64).toNat

/-- The code of an action at position `p` of the buffer, up to `fbreak`. -/
def action (memory : List UInt8) (a : Action) (p : ℕ) : Parse Unit := do
  let v ← Command.state
  match a with
  | .mark => Command.modify (·.onParser fun h => { h with mark := p })
  | .startField => Command.modify (·.onParser fun h => { h with fieldStart := p })
  | .writeField =>
    Command.modify (·.onParser fun h => { h with fieldLen := len p h.fieldStart })
  | .startValue => Command.modify (·.onParser fun h => { h with mark := p })
  | .writeValue =>
    onRequestHttpField memory v.parser.fieldStart v.parser.fieldLen v.parser.mark
      (len p v.parser.mark)
  | .requestMethod => onRequestMethod memory v.parser.mark
  -- `on_request_uri` is empty
  | .requestUri => pure ()
  | .fragment => onRequestFragment memory v.parser.mark (len p v.parser.mark)
  | .startQuery => Command.modify (·.onParser fun h => { h with queryStart := some p })
  | .queryString =>
    match v.parser.queryStart with
    | none => Command.abort .indeterminateValue
    | some q => onRequestQuery memory q (len p q)
  | .httpVersion => onRequestVersion memory v.parser.mark (len p v.parser.mark)
  | .requestPath => onRequestPath memory v.parser.mark (len p v.parser.mark)
  | .done =>
    if v.parser.xmlSent || v.parser.jsonSent then
      Command.modify (·.onParser fun h =>
        { h with bodyStart := h.mark, contentLen := toInt (len p h.mark + 1) })
    else do
      Command.modify (·.onParser fun h => { h with bodyStart := p + 1 })
      onRequestHeaderDone
  | .xml => Command.modify (·.onParser fun h => { h with xmlSent := true })
  | .json => Command.modify (·.onParser fun h => { h with jsonSent := true })

/-- Only `done` contains `fbreak`. -/
def breaks : Action → Bool
  | .done => true
  | _ => false

end Actions

def assert {σ : Type} (p : Prop) [Decidable p] : Command Exception σ Unit :=
  if p then pure () else Command.raise .assertion

/-- What is forgotten at the start of a call. -/
def HttpParser.reset (h : HttpParser) : HttpParser :=
  { h with nread := 0, mark := 0, fieldLen := 0, fieldStart := 0 }

/-- What is kept at its end. -/
def HttpParser.keep (off : ℕ) (halt : Halt Action) (h : HttpParser) : HttpParser :=
  { h with cs := if h.cs.isSome then halt.cs else h.cs, nread := h.nread + (halt.p - off) }

/-- `%% write exec`: nothing happens in the error state. -/
def writeExec (memory : List UInt8) (len off : ℕ) : Parse (Halt Action) := do
  let v ← Command.state
  match v.parser.cs with
  | none => pure ⟨none, off, false⟩
  | some s => exec breaks (action memory) s off ((memory.take len).drop off)

/-- The assertions at the end of a call. -/
def assertInside (len : ℕ) : Parse Unit := do
  let v ← Command.state
  assert (v.parser.nread ≤ len)
  assert (v.parser.bodyStart ≤ len)
  assert (v.parser.mark < len)
  assert (v.parser.fieldLen ≤ len)
  assert (v.parser.fieldStart < len)

/-- `http_parser_execute(parser, buffer, len, off)`. -/
def httpParserExecute (memory : List UInt8) (len off : ℕ) : Parse ℕ := do
  if len = 0 then pure 0
  else do
    Command.modify (·.onParser HttpParser.reset)
    assert (off ≤ len)
    assert ((len : ℤ) - off = toInt len - toInt off)
    let halt ← writeExec memory len off
    assert (halt.p ≤ len)
    Command.modify (·.onParser (HttpParser.keep off halt))
    assertInside len
    let v ← Command.state
    pure v.parser.nread

/-- `memmove(data, data + offset, len - offset)`. -/
def memmove (memory : List UInt8) (len offset : ℕ) : List UInt8 :=
  (memory.drop offset).take (len - offset) ++ memory.drop (len - offset)

namespace HttpRequestParser

/-- `HttpRequestParser::execute(data, len)`: the offset, and the memory afterwards. -/
def execute (memory : List UInt8) (len : ℕ) : Parse (ℕ × List UInt8) := do
  let offset ← httpParserExecute memory len 0
  pure (offset, memmove memory len offset)

def hasError (v : HttpRequestParser) : Bool := v.error ≠ 0 || v.parser.cs = none

/-- `HttpRequestParser::isFinished`, as a condition: the error state counts. -/
def isFinished (v : HttpRequestParser) : Bool :=
  match v.parser.cs with
  | none => true
  | some s => final s

end HttpRequestParser

end Sylar.Http
