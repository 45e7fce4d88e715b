import Sylar.Http.Cuts
import Sylar.Http.Heads
import Sylar.Memory.Successive

/-! # Several messages on one connection

Every call of `recvRequest` or `recvResponse` has a buffer of its own. A call that is delivered
more than its message takes the message out of the buffer and drops the rest, so the
messages are received in order exactly if every delivery is one message.
-/
namespace Sylar.Http
open Memory
open Sylar.Stream (toInt toSize toSize_of_nonneg)

section Requests

variable {env : Env}

/-- A request: a head that the parser accepts, and the body that the head announces. -/
structure RequestMessage (env : Env) where
  head : List UInt8
  body : List UInt8
  parser : HttpRequestParser
  parsed : requestHead env.relaxed head = some parser
  announced : getContentLength env parser.data = body.length

namespace RequestMessage

def bytes (r : RequestMessage env) : List UInt8 := r.head ++ r.body

def value (r : RequestMessage env) : HttpRequest :=
  if r.body = [] then r.parser.data else r.parser.data.setBody r.body

end RequestMessage

variable {u : Session} {tail : List Arrival}

theorem recvBody_buffered (r : RequestMessage env) (hparser : u.parser = r.parser)
    (more : List UInt8) (htake : u.buffer.take (r.body ++ more).length = r.body ++ more)
    (hmore : (r.body ++ more).length < 2 ^ 31) (hfit : (r.body ++ more).length ≤ env.bufferSize) :
    ∃ b, recvBody env readFixSize ((r.body ++ more).length : ℤ) u =
      .done (some r.value) (u.putBody b) := by
  have hsize : getContentLength env u.parser.data = r.body.length := by rw [hparser, r.announced]
  rw [RequestMessage.value]
  by_cases hnil : r.body = []
  · refine ⟨u.body, ?_⟩
    rw [recvBody, Command.state_bind_apply, hsize, hnil, Command.ite_apply, if_neg (by decide),
      if_pos rfl, ← hparser]
    rfl
  · have hle : r.body.length ≤ (r.body ++ more).length := by simp
    rw [recvBody_eq readFixSize hsize (List.length_pos_iff.mpr hnil)
      (env.le_longest (by omega) (by omega)) hmore, min_eq_right hle,
      takeBody_buffered readFixSize htake hle, List.take_left, if_neg hnil, hparser]
    exact ⟨_, rfl⟩

/-- A delivery that starts with a request: the request is returned, the delivery is used up. -/
theorem recvRequest_delivery (hsize : env.bufferSize < 2 ^ 31) (r : RequestMessage env)
    {more : List UInt8} (hfit : (r.bytes ++ more).length ≤ env.bufferSize)
    (hcon : u.connected = true) (harr : u.arrivals = .data (r.bytes ++ more) :: tail)
    (junk : ℕ → UInt8) :
    ∃ u', recvRequest env junk u = .done (some r.value) u' ∧ u'.connected = true ∧
      u'.arrivals = tail := by
  rw [RequestMessage.bytes, List.append_assoc] at hfit harr
  rcases recvHead_message hsize r.parsed hcon harr hfit junk with
    ⟨w, hround, hcon', harr', hparser, hbuf⟩
  rw [List.length_append] at hfit
  obtain ⟨b, hbody⟩ := recvBody_buffered r hparser more hbuf (by omega) (by omega)
  refine ⟨w.putBody b, ?_, hcon', harr'⟩
  rw [recvRequest, recvRequestVia, Command.state_bind_apply, Command.modify_bind_apply,
    Command.modify_bind_apply, Command.bind_done hround]
  exact hbody

/-- The deliveries that a session has to expect, each within the buffer. -/
structure Awaits (ds : List (List (RequestMessage env))) (u : Session) : Prop where
  connected : u.connected = true
  arrivals : u.arrivals = ds.map fun d => .data (d.flatMap RequestMessage.bytes)
  fit : ∀ d ∈ ds, (d.flatMap RequestMessage.bytes).length ≤ env.bufferSize

theorem recvRequest_takesFirst (hsize : env.bufferSize < 2 ^ 31) (junk : ℕ → UInt8) :
    Command.TakesFirst Awaits (fun r : RequestMessage env => r.value) (recvRequest env junk) where
  first := by
    intro r rs ds u hu
    have hfit := List.forall_mem_cons.mp hu.fit
    obtain ⟨u', hrun, hcon, harr⟩ :=
      recvRequest_delivery hsize r hfit.1 hu.connected hu.arrivals junk
    exact ⟨u', hrun, hcon, harr, hfit.2⟩
  nothing := by
    intro u hu
    have hread : readBuffer (toSize 0) ((env.bufferSize + 2 ^ 64 - toSize 0) % 2 ^ 64)
        ((u.putParser (.fresh env.relaxed)).putBuffer ((List.range env.bufferSize).map junk)) = _ :=
      readBuffer_end hu.connected hu.arrivals
    rw [recvRequest, recvRequestVia, Command.state_bind_apply, Command.modify_bind_apply,
      Command.modify_bind_apply, recvHead]
    exact ⟨_, by rw [Command.bind_apply, Command.bind_done hread]; rfl⟩

end Requests

section Responses

variable {env : ClientEnv}

/-- A response that is framed by its length: a head that the parser accepts, and the body that
the head announces. -/
structure ResponseMessage (env : ClientEnv) where
  head : List UInt8
  body : List UInt8
  parser : HttpResponseParser
  parsed : responseHead head = some parser
  framed : parser.parser.chunked = false
  announced : parser.getContentLength env = body.length

namespace ResponseMessage

def bytes (r : ResponseMessage env) : List UInt8 := r.head ++ r.body

def value (r : ResponseMessage env) : HttpResponse := r.parser.data.setBody r.body

end ResponseMessage

variable {u : Connection} {tail : List Arrival}

theorem toInt_size_of_lt {size : ℕ} (h : size % 2 ^ 32 < 2 ^ 31) (hsize : size < 2 ^ 64) :
    toInt (toSize (size : ℤ)) = (size % 2 ^ 32 : ℕ) := by
  rw [toSize_of_nonneg (by omega) (by omega), Int.toNat_natCast, toInt, if_pos h]

theorem recvFramed_eq (fix : ℕ → ℕ → ClientRecv ℤ) {size : ℕ}
    (hsize : u.parser.getContentLength env = size) (hpos : 0 < size) (hmax : size ≤ maxSize)
    (hm : size % 2 ^ 32 < 2 ^ 31) (n : ℤ) :
    recvFramed env fix n u = takeFramed fix size (min (size % 2 ^ 32 : ℕ) n)
      ((size % 2 ^ 32 : ℕ) - min ((size % 2 ^ 32 : ℕ) : ℤ) n) u := by
  have hlt : size < 2 ^ 63 := hmax.trans_lt (by decide)
  rw [recvFramed, Command.state_bind_apply, hsize, toInt64_of_lt hlt, Command.ite_apply,
    if_pos (by omega), Command.ite_apply, if_neg (by omega), toInt_size_of_lt hm (by omega),
    Int.toNat_natCast]

theorem takeFramed_buffered (fix : ℕ → ℕ → ClientRecv ℤ) {y : List UInt8} {size m : ℕ}
    (hbuf : u.buffer.take y.length = y) (hle : m ≤ y.length) (hm : m ≤ size) :
    takeFramed fix size (m : ℤ) 0 u =
      .done (some (u.parser.data.setBody (y.take m ++ List.replicate (size - m) 0)))
        (u.putBody (y.take m ++ List.replicate (size - m) 0)) := by
  obtain ⟨hlen, htake⟩ := buffered hbuf hle
  rw [takeFramed, Command.state_bind_apply, Command.ite_apply, Int.toNat_natCast,
    if_neg (by omega), htake, Command.modify_bind_apply, fillFramed, if_neg (by decide)]
  rfl

theorem recvFramed_buffered (fix : ℕ → ℕ → ClientRecv ℤ) (r : ResponseMessage env)
    (hparser : u.parser = r.parser) (more : List UInt8)
    (htake : u.buffer.take (r.body ++ more).length = r.body ++ more)
    (hmore : (r.body ++ more).length < 2 ^ 31) :
    ∃ b, recvFramed env fix ((r.body ++ more).length : ℤ) u =
      .done (some r.value) (u.putBody b) := by
  have hsize : u.parser.getContentLength env = r.body.length := by rw [hparser, r.announced]
  rw [ResponseMessage.value]
  by_cases hnil : r.body = []
  · refine ⟨u.body, ?_⟩
    rw [recvFramed, Command.state_bind_apply, hsize, hnil, Command.ite_apply, if_neg (by decide),
      Command.ite_apply, if_pos (by decide), ← hparser]
    rfl
  · have hle : r.body.length ≤ (r.body ++ more).length := by simp
    have heq := recvFramed_eq fix hsize (List.length_pos_iff.mpr hnil) (by rw [maxSize]; omega)
      (by omega) ((r.body ++ more).length : ℤ)
    rw [Nat.mod_eq_of_lt (by omega), min_eq_left (by omega), Int.sub_self] at heq
    rw [heq, takeFramed_buffered fix htake hle le_rfl, List.take_left, Nat.sub_self,
      List.replicate_zero, List.append_nil, hparser]
    exact ⟨_, rfl⟩

/-- A delivery that starts with a response: the response is returned, the delivery is used up. -/
theorem recvResponse_delivery (hsize : env.bufferSize < 2 ^ 31) (r : ResponseMessage env)
    {more : List UInt8} (hfit : (r.bytes ++ more).length ≤ env.bufferSize)
    (hcon : u.connected = true) (harr : u.arrivals = .data (r.bytes ++ more) :: tail)
    (junk : ℕ → UInt8) :
    ∃ u', recvResponse env junk u = .done (some r.value) u' ∧ u'.connected = true ∧
      u'.arrivals = tail := by
  rw [ResponseMessage.bytes, List.append_assoc] at hfit harr
  rcases recvResponseVia_head readFixSize hsize r.parsed hcon harr hfit junk with
    ⟨w, hround, hcon', harr', hparser, hbuf, -⟩
  rw [List.length_append] at hfit
  obtain ⟨b, hbody⟩ := recvFramed_buffered readFixSize r hparser more hbuf (by omega)
  refine ⟨w.putBody b, ?_, hcon', harr'⟩
  rw [recvResponse, hround, afterResponseHead, Command.state_bind_apply, Command.ite_apply,
    if_neg (by rw [hparser, r.framed]; decide)]
  exact hbody

/-- The deliveries that a connection has to expect, each within the buffer. -/
structure Expects (ds : List (List (ResponseMessage env))) (u : Connection) : Prop where
  connected : u.connected = true
  arrivals : u.arrivals = ds.map fun d => .data (d.flatMap ResponseMessage.bytes)
  fit : ∀ d ∈ ds, (d.flatMap ResponseMessage.bytes).length ≤ env.bufferSize

theorem recvResponse_takesFirst (hsize : env.bufferSize < 2 ^ 31) (junk : ℕ → UInt8) :
    Command.TakesFirst Expects (fun r : ResponseMessage env => r.value) (recvResponse env junk) where
  first := by
    intro r rs ds u hu
    have hfit := List.forall_mem_cons.mp hu.fit
    obtain ⟨u', hrun, hcon, harr⟩ :=
      recvResponse_delivery hsize r hfit.1 hu.connected hu.arrivals junk
    exact ⟨u', hrun, hcon, harr, hfit.2⟩
  nothing := by
    intro u hu
    have hread : readBuffer (toSize 0) ((env.bufferSize + 2 ^ 64 - toSize 0) % 2 ^ 64)
        ((u.putParser .fresh).putBuffer ((List.range (env.bufferSize + 1)).map junk)) = _ :=
      readBuffer_end hu.connected hu.arrivals
    rw [recvResponse, recvResponseVia, Command.state_bind_apply, Command.modify_bind_apply,
      Command.modify_bind_apply, recvParsed]
    exact ⟨_, by rw [Command.bind_apply, Command.bind_done hread]; rfl⟩

end Responses

def RequestMessage.getA : RequestMessage (.small fun _ => none) where
  head := Http.bytes "GET /a HTTP/1.1\r\n\r\n"
  body := []
  parser := (requestHead false (Http.bytes "GET /a HTTP/1.1\r\n\r\n")).get (by decide +kernel)
  parsed := (Option.some_get _).symm
  announced := by decide +kernel

def ResponseMessage.three :
    ResponseMessage ⟨64, fun v => if v = Http.bytes "3" then some 3 else none⟩ where
  head := Http.bytes "HTTP/1.1 200 OK\r\nContent-Length: 3\r\n\r\n"
  body := Http.bytes "abc"
  parser := (responseHead (Http.bytes "HTTP/1.1 200 OK\r\nContent-Length: 3\r\n\r\n")).get
    (by decide +kernel)
  parsed := (Option.some_get _).symm
  framed := by decide +kernel
  announced := by decide +kernel

def Connection.opened (arrivals : List Arrival) : Connection := ⟨arrivals, true, .fresh, [], []⟩

end Sylar.Http
