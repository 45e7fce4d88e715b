import Sylar.Http.KeepAlive
import Sylar.Http.Limits
import Sylar.Http.RequestRoundTrip
import Sylar.Http.Servlet
import Sylar.Http.Uri

/-! # Requests and their answers

`HttpServer::handleClient` reads requests from a session until one of them closes it, and sends back
what the servlets make of them. The requests of the clients are those of `DoRequest`.
-/
namespace Sylar.Http
open Memory Ragel
open Sylar.Stream (fixSizeLoop fixSizeLoop_advance fixSizeLoop_stop)

section Messages
open RequestText

variable {r : HttpRequest}

/-- The machine stops at the end of the head of a text. -/
theorem trace_sent (h : Sendable r) {hs : List RequestHead.Header}
    (hplain : ∀ e ∈ hs, e.Distinct) (htext : (parted h hs).text = r.head) :
    (trace false r.head).2 = ⟨some (headed "\r\n"), r.head.length, true⟩ := by
  rcases RequestHead.closes_head (parted h hs) with ⟨front, tail, hfront, htail, hcloses⟩
  rw [htail hplain, List.append_nil, htext] at hfront
  have hmethod := Methods.sweep_method (parted h hs).isMethod
  rw [RequestHead.methodEnd] at hmethod
  have hstart : Marks.initial.mark < ((parted h hs).method ++ bytes " ").length := by
    rw [List.length_append]
    exact Nat.succ_pos _
  rcases hcloses _ [] _ hstart rfl with ⟨l, hsweep, -⟩
  have hend := hsweep []
  rw [List.append_nil] at hend
  rw [trace, hfront, sweep_append hmethod, Nat.zero_add, hend]

/-- A call that is given a head and stops at its end. -/
theorem requestHead_of_execute {head : List UInt8} {x : ℕ × List UInt8} {v : HttpRequestParser}
    {s : State Action} (htrace : (trace false head).2 = ⟨some s, head.length, true⟩)
    (hlen : head.length < 2 ^ 31)
    (hrun : HttpRequestParser.execute head head.length (.fresh false) = .done x v)
    (hfinal : final s = true) (herror : v.error = 0) : requestHead false head = some v := by
  have hne : head.length ≠ 0 := by
    intro hnil
    rw [List.length_eq_zero_iff] at hnil
    subst hnil
    cases htrace
  obtain ⟨_, v', hcall, hret⟩ := Command.bind_eq_done.mp hrun
  cases hret
  rw [httpParserExecute, Command.ite_apply, if_neg hne, Command.modify_bind_apply,
    Command.bind_done (assert_of (Nat.zero_le _)),
    Command.bind_done (assert_of (by rw [Stream.toInt_eq_self_iff.mpr hlen]; rfl))] at hcall
  obtain ⟨halt, v₀, hexec, hcall⟩ := Command.bind_eq_done.mp hcall
  have hexec : exec breaks (action head) (start (Grammar.main false)) 0 head (.fresh false) =
      .done halt v₀ := by
    rw [writeExec, Command.state_bind_apply, List.take_length] at hexec
    exact hexec
  have hhalt : halt = (trace false head).2 := by
    rw [exec_apply] at hexec
    obtain ⟨_, _, -, hret⟩ := Command.bind_eq_done.mp hexec
    cases hret
    rfl
  rw [hhalt, htrace] at hexec hcall
  have hw := requestHead_within hexec
  have hinside : assertInside head.length (v₀.onParser (.keep 0 ⟨some s, head.length, true⟩)) = _ :=
    assertInside_of ⟨hw.bodyStart, hw.mark, hw.fieldLen, hw.fieldStart⟩ (by
      change v₀.parser.nread + (head.length - 0) ≤ _
      rw [hw.nread]
      omega)
  rw [Command.bind_done (assert_of le_rfl), Command.modify_bind_apply,
    Command.bind_done hinside] at hcall
  cases hcall
  rw [requestHead, hexec]
  exact if_pos ⟨hfinal, rfl, herror⟩

theorem requestHead_sent (h : Sendable r) (hlen : r.head.length < 2 ^ 31) :
    ∃ v, requestHead false r.head = some v ∧ v.data = received r := by
  rcases exists_headers (isHeader_sent h) with ⟨hs, hplain, hlines, hentries⟩
  have htext := text_parted h hlines
  rcases RequestHead.execute_head (parted h hs) [] (by rwa [List.append_nil, htext]) [] with
    ⟨v, offset, hrun, heffect, hcs, -⟩
  rw [List.append_nil, List.append_nil, htext] at hrun
  have hmethod : report ((parted h hs).text ++ []) (.fresh, 0)
      (.method 0 (parted h hs).method.length) = (HttpRequest.fresh.setMethod r.method, 0) := by
    have hname := (charsToHttpMethod_name _ (mem_httpMethodMap r.method) h.method).2
    rw [report, List.append_nil, List.drop_zero, htext, HttpRequest.head, HttpRequest.requestLine]
    simp only [List.append_assoc]
    rw [← List.append_assoc, charsToHttpMethod_longer _ hname]
    rfl
  have hresult := heffect _ _ hmethod
  rw [effect_parted h hplain hentries] at hresult
  exact ⟨v, requestHead_of_execute (trace_sent h hplain htext) hlen hrun
    (HeadSteps.last headSteps).1 (congrArg Prod.snd hresult), congrArg Prod.fst hresult⟩

/-- The request that the text of another one is read as. -/
def HttpRequest.delivered (r : HttpRequest) : HttpRequest :=
  { r with headers := sentHeaders r.headers r.close r.body }

theorem lexicalCastUInt64_decimal {n : ℕ} (h : n < 2 ^ 64) :
    lexicalCastUInt64 (decimal n) = some n := by
  have hnumeral : numeral (decimal n) = some n := by
    rw [numeral, if_pos, decimalValue_decimal]
    have hne := decimal_ne_nil n
    simp only [Bool.and_eq_true, List.all_eq_true, Bool.not_eq_true', List.isEmpty_eq_false_iff]
    exact ⟨hne, fun b hb => mem_digit_of_mem_decimal hb⟩
  rw [lexicalCastUInt64_numeral hnumeral, inUInt64, if_pos h]

theorem exists_message (h : Sendable r) {size alloc : ℕ} (hfits : size ≤ alloc)
    (hlen : r.toString.length < 2 ^ 31) :
    ∃ m : RequestMessage ⟨false, size, lexicalCastUInt64, alloc, hfits⟩,
      m.bytes = r.toString ∧ m.value = r.delivered := by
  rw [HttpRequest.toString, HttpRequest.dump, List.length_append] at hlen
  rcases requestHead_sent h (by omega) with ⟨v, hv, hdata⟩
  have hfind : (received r).headers.find (bytes "content-length") =
      if r.body = [] then none else some (decimal r.body.length) := by
    have hkeys : caseFolded (bytes "content-length") = caseFolded (bytes "Content-Length") ∧
        caseFolded (bytes "Connection") ≠ caseFolded (bytes "content-length") := by decide
    have hnone : r.headers.find (bytes "content-length") = none := by
      rw [OrderedMap.find, Option.map_eq_none_iff, List.find?_eq_none]
      intro e he hsame
      simp only [decide_eq_true_eq] at hsame
      exact (h.headers e he).contentLength (hsame.trans hkeys.1)
    simp only [received, sentHeaders]
    split_ifs
    · rw [OrderedMap.find_set, if_neg hkeys.2, hnone]
    · rw [OrderedMap.find_set, if_pos hkeys.1.symm]
  refine ⟨⟨r.head, r.body, v, hv, ?_⟩, rfl, ?_⟩
  · rw [getContentLength, HttpRequest.getHeaderAs, hdata, hfind]
    split_ifs with hnil
    · rw [hnil]
      rfl
    · dsimp only
      rw [lexicalCastUInt64_decimal (by omega)]
      rfl
  · change (if r.body = [] then v.data else v.data.setBody r.body) = _
    rw [hdata, HttpRequest.delivered]
    split_ifs with hnil
    · rw [received, hnil]
    · rfl

end Messages

/-- A session, the results that `send` is going to have, and what was sent. After these results the
peer is gone. -/
structure Served where
  session : Session
  results : List ℤ
  sent : List UInt8

abbrev Serving := Command Exception Served

namespace Served

def putSession (u : Session) (s : Served) : Served := { s with session := u }

end Served

def onSession {α : Type} (c : Recv α) : Serving α :=
  Command.focus Served.session Served.putSession c

/-- `send(data + offset, length)`. -/
def send (data : List UInt8) (offset : ℕ) : Serving ℤ := do
  let s ← Command.state
  if s.session.connected then
    match s.results with
    | [] => pure 0
    | r :: rest =>
      if offset + r.toNat ≤ data.length then do
        Command.modify fun s => { s with
          results := rest, sent := s.sent ++ (data.drop offset).take r.toNat }
        pure r
      else Command.abort .outOfBounds
  else pure (-1)

def sendResponse (rsp : HttpResponse) : Serving ℤ := do
  let s ← Command.state
  fixSizeLoop (send rsp.toString) rsp.toString.length (s.results.length + 2) 0 rsp.toString.length

/-- What a servlet does with a request, the response that was prepared and the session. -/
abbrev Handle (S : Type) := S → HttpRequest → HttpResponse → Serving (HttpRequest × HttpResponse)

structure HttpServer (S : Type) where
  isKeepAlive : Bool
  name : List UInt8
  dispatcher : ServletDispatcher S

namespace HttpServer

variable {S : Type} (server : HttpServer S) (fnmatch : ServletUri → ServletUri → Bool)

/-- The response that a servlet is given. -/
def prepare (req : HttpRequest) : HttpResponse :=
  ((HttpResponse.fresh.setVersion req.version).setClose
    (req.close || !server.isKeepAlive)).setHeader (bytes "Server") server.name

section Code

variable (handle : Handle S) (env : Env) (junk : ℕ → ℕ → UInt8)

/-- The loop of `handleClient`. -/
def serve : ℕ → Serving Unit
  | 0 => Command.abort .fuelExhausted
  | fuel + 1 => do
    let received ← onSession (recvRequest env (junk fuel))
    match received with
    | none => pure ()
    | some req => do
      let x ← handle (server.dispatcher.getMatchedServlet fnmatch req.path) req (server.prepare req)
      let _ ← sendResponse x.2
      if !server.isKeepAlive || x.1.close then pure () else serve fuel

def handleClient : Serving Unit := do
  let s ← Command.state
  server.serve fnmatch handle env junk (backlog s.session.arrivals + 1)
  onSession (Command.modify SocketStream.close)

end Code

section Answers

variable (answer : S → HttpRequest → HttpResponse → HttpRequest × HttpResponse)

/-- What becomes of a request and its response. -/
def handled (req : HttpRequest) : HttpRequest × HttpResponse :=
  answer (server.dispatcher.getMatchedServlet fnmatch req.path) req (server.prepare req)

/-- The responses to requests: none after a request that closes the connection. -/
def responses : List HttpRequest → List HttpResponse
  | [] => []
  | req :: reqs => (server.handled fnmatch answer req).2 ::
    if !server.isKeepAlive || (server.handled fnmatch answer req).1.close then []
    else responses reqs

end Answers

end HttpServer

section Sends

theorem toString_length_pos (rsp : HttpResponse) : 0 < rsp.toString.length := by
  simp [HttpResponse.toString, HttpResponse.dump, HttpResponse.head, HttpResponse.statusLine,
    versionText, bytes]

theorem sendResponse_whole {rsp : HttpResponse} {s : Served} {rest : List ℤ}
    (hcon : s.session.connected = true) (hres : s.results = (rsp.toString.length : ℤ) :: rest)
    (hlen : rsp.toString.length < 2 ^ 31) :
    ∃ n, sendResponse rsp s =
      .done n { s with results := rest, sent := s.sent ++ rsp.toString } := by
  have hpos := toString_length_pos rsp
  have hsend : send rsp.toString 0 s = .done (rsp.toString.length : ℤ)
      { s with results := rest, sent := s.sent ++ rsp.toString } := by
    rw [send, Command.state_bind_apply, Command.ite_apply, if_pos hcon, hres]
    dsimp only
    rw [Command.ite_apply, if_pos (by simp), Command.modify_bind_apply, Command.pure_apply]
    simp
  rw [sendResponse, Command.state_bind_apply,
    fixSizeLoop_advance hsend (by omega) (by simp) (by omega), Int.toNat_natCast, Nat.sub_self,
    fixSizeLoop_stop]
  exact ⟨_, rfl⟩

end Sends

section Runs
open RequestText

variable {S : Type} {server : HttpServer S} {fnmatch : ServletUri → ServletUri → Bool}
  {handle : Handle S} {answer : S → HttpRequest → HttpResponse → HttpRequest × HttpResponse}
  {env : Env} {junk : ℕ → ℕ → UInt8}

/-- The loop over requests that come one by one. -/
theorem serve_answers (hsize : env.bufferSize < 2 ^ 31)
    (hhandle : ∀ x req rsp, handle x req rsp = pure (answer x req rsp))
    {ms : List (RequestMessage env)} {fuel : ℕ} (hfuel : ms.length < fuel) {s : Served}
    (hs : Awaits (ms.map fun m => [m]) s.session)
    (hres : s.results = (server.responses fnmatch answer (ms.map RequestMessage.value)).map fun r =>
      (r.toString.length : ℤ))
    (hlen : ∀ r ∈ server.responses fnmatch answer (ms.map RequestMessage.value),
      r.toString.length < 2 ^ 31) :
    ∃ s', server.serve fnmatch handle env junk fuel s = .done () s' ∧
      s'.sent = s.sent ++ (server.responses fnmatch answer (ms.map RequestMessage.value)).flatMap
        HttpResponse.toString := by
  induction ms generalizing fuel s with
  | nil =>
    obtain ⟨fuel, rfl⟩ := Nat.exists_eq_add_of_lt hfuel
    obtain ⟨u', hrecv⟩ := (recvRequest_takesFirst hsize (junk (0 + fuel))).nothing hs
    refine ⟨s.putSession u', ?_, (List.append_nil _).symm⟩
    rw [List.length_nil, HttpServer.serve, onSession, Command.bind_done (Command.focus_done hrecv)]
    rfl
  | cons m ms ih =>
    obtain ⟨fuel, rfl⟩ : ∃ k, fuel = k + 1 := ⟨fuel - 1, by omega⟩
    rw [List.length_cons, Nat.succ_lt_succ_iff] at hfuel
    obtain ⟨u', hrecv, hs'⟩ := (recvRequest_takesFirst hsize (junk fuel)).first hs
    rw [List.map_cons, HttpServer.responses] at hres hlen ⊢
    rw [List.map_cons] at hres
    rw [List.forall_mem_cons] at hlen
    have hhandled : server.handled fnmatch answer m.value =
        answer (server.dispatcher.getMatchedServlet fnmatch m.value.path) m.value
          (server.prepare m.value) := rfl
    obtain ⟨n, hsend⟩ := sendResponse_whole (s := s.putSession u') hs'.connected hres hlen.1
    rw [HttpServer.serve, onSession, Command.bind_done (Command.focus_done hrecv)]
    dsimp only
    rw [hhandle, Command.pure_bind_apply, ← hhandled, Command.bind_done hsend, Command.ite_apply,
      List.flatMap_cons]
    split_ifs at hlen ⊢ with hclose
    · exact ⟨_, rfl, by simp [Served.putSession]⟩
    · obtain ⟨s', hserve, hsent⟩ :=
        ih hfuel (s := { s.putSession u' with results := _, sent := _ }) hs' rfl hlen.2
      exact ⟨s', hserve, hsent.trans (List.append_assoc ..)⟩

theorem exists_messages {size alloc : ℕ} (hfits : size ≤ alloc) {qs : List HttpRequest}
    (h : ∀ q ∈ qs, Sendable q ∧ q.toString.length < 2 ^ 31) :
    ∃ ms : List (RequestMessage ⟨false, size, lexicalCastUInt64, alloc, hfits⟩),
      ms.map RequestMessage.bytes = qs.map HttpRequest.toString ∧
        ms.map RequestMessage.value = qs.map HttpRequest.delivered := by
  induction qs with
  | nil => exact ⟨[], rfl, rfl⟩
  | cons q qs ih =>
    rw [List.forall_mem_cons] at h
    obtain ⟨ms, hbytes, hvalue⟩ := ih h.2
    obtain ⟨m, hm, hv⟩ := exists_message h.1.1 hfits h.1.2
    exact ⟨m :: ms, by simp [hm, hbytes], by simp [hv, hvalue]⟩

/-- Requests that a client sends one by one are read as they were written and answered in this
order, each by the servlet for its path; the connection is closed after the last answer. -/
theorem handleClient_answers {size alloc : ℕ} (hsize : size < 2 ^ 31) (hfits : size ≤ alloc)
    (hhandle : ∀ x req rsp, handle x req rsp = pure (answer x req rsp)) {qs : List HttpRequest}
    (hqs : ∀ q ∈ qs, Sendable q ∧ q.toString.length ≤ size) {s : Served}
    (hcon : s.session.connected = true)
    (harr : s.session.arrivals = qs.map fun q => .data q.toString)
    (hres : s.results = (server.responses fnmatch answer (qs.map HttpRequest.delivered)).map
      fun r => (r.toString.length : ℤ))
    (hlen : ∀ r ∈ server.responses fnmatch answer (qs.map HttpRequest.delivered),
      r.toString.length < 2 ^ 31) :
    ∃ s', server.handleClient fnmatch handle ⟨false, size, lexicalCastUInt64, alloc, hfits⟩ junk s =
        .done () s' ∧ s'.session.connected = false ∧
      s'.sent = s.sent ++ (server.responses fnmatch answer (qs.map HttpRequest.delivered)).flatMap
        HttpResponse.toString := by
  obtain ⟨ms, hbytes, hvalue⟩ := exists_messages hfits fun q hq =>
    ⟨(hqs q hq).1, (hqs q hq).2.trans_lt hsize⟩
  have hfit : ∀ m ∈ ms, m.bytes.length ≤ size := by
    intro m hm
    have hmem := List.mem_map_of_mem (f := RequestMessage.bytes) hm
    rw [hbytes] at hmem
    obtain ⟨q, hq, heq⟩ := List.mem_map.mp hmem
    rw [← heq]
    exact (hqs q hq).2
  have hawaits : Awaits (ms.map fun m => [m]) s.session := by
    refine ⟨hcon, ?_, ?_⟩
    · have hmap := congrArg (List.map Arrival.data) hbytes
      rw [harr, List.map_map]
      simpa [Function.comp_def] using hmap.symm
    · simpa using hfit
  have hfuel : ms.length < backlog s.session.arrivals + 1 := by
    have hle := length_le_backlog s.session.arrivals
    rw [hawaits.arrivals, List.length_map, List.length_map] at hle
    rw [hawaits.arrivals]
    omega
  rw [← hvalue] at hres hlen ⊢
  obtain ⟨s', hserve, hsent⟩ := serve_answers hsize hhandle hfuel hawaits hres hlen
  refine ⟨s'.putSession s'.session.close, ?_, rfl, hsent⟩
  rw [HttpServer.handleClient, Command.state_bind_apply, Command.bind_done hserve]
  rfl

/-- A client asks for the root, sends a file to another path and asks to close. -/
theorem handleClient_answers_upload :
    let answer : Unit → HttpRequest → HttpResponse → HttpRequest × HttpResponse :=
      fun _ req rsp => (req, rsp.setBody req.path)
    let server : HttpServer Unit := ⟨true, bytes "s", .fresh ()⟩
    let qs := [HttpRequest.fresh, upload]
    let rs := server.responses (fun _ _ => false) answer (qs.map HttpRequest.delivered)
    rs.map HttpResponse.body = [bytes "/", bytes "/a/b"] ∧
    ∃ s', server.handleClient (fun _ _ => false) (fun x req rsp => pure (answer x req rsp))
        ⟨false, 256, lexicalCastUInt64, 256, le_rfl⟩ (fun _ _ => 0)
        ⟨⟨qs.map fun q => .data q.toString, true, .fresh false, [], []⟩,
          rs.map fun r => (r.toString.length : ℤ), []⟩ = .done () s' ∧
      s'.session.connected = false ∧ s'.sent = rs.flatMap HttpResponse.toString := by
  intro answer server qs rs
  have hfresh : Sendable HttpRequest.fresh :=
    ⟨by decide, .inr rfl, rfl, by decide +kernel, by decide +kernel, by decide +kernel,
      List.forall_mem_nil _⟩
  have hsize : 256 < 2 ^ 31 := by decide
  have hqs : ∀ q ∈ qs, Sendable q ∧ q.toString.length ≤ 256 := by
    rw [List.forall_mem_cons, List.forall_mem_singleton]
    exact ⟨⟨hfresh, by decide +kernel⟩, sendable_upload, by decide +kernel⟩
  have hlen : ∀ r ∈ rs, r.toString.length < 2 ^ 31 := by decide +kernel
  exact ⟨by decide +kernel,
    handleClient_answers hsize le_rfl (fun _ _ _ => rfl) hqs rfl rfl rfl hlen⟩

end Runs

section Client

variable {r : HttpRequest} {l : List (List UInt8 × List UInt8)}

/-- The body of the loop over the caller's headers, with `has_host`. -/
def fillHeader (x : HttpRequest × Bool) (e : List UInt8 × List UInt8) : HttpRequest × Bool :=
  if sameIgnoringCase e.1 (bytes "connection") then
    (if sameIgnoringCase e.2 (bytes "keep-alive") then x.1.setClose false else x.1, x.2)
  else
    (x.1.setHeader e.1 e.2,
      if !x.2 && sameIgnoringCase e.1 (bytes "host") then !e.2.isEmpty else x.2)

/-- The loop, and the `Host` header that is added after it. -/
def fillHeaders (host : List UInt8) (headers : List (List UInt8 × List UInt8)) (r : HttpRequest) :
    HttpRequest :=
  let x := headers.foldl fillHeader (r, false)
  if x.2 then x.1 else x.1.setHeader (bytes "Host") host

/-- The request of `HttpConnection::DoRequest`. -/
def doRequest (method : HttpMethod) (uri : Uri) (headers : List (List UInt8 × List UInt8))
    (body : List UInt8) : HttpRequest :=
  (fillHeaders uri.host headers ((((HttpRequest.fresh.setPath uri.getPath).setQuery uri.query)
    |>.setFragment uri.fragment).setMethod method)).setBody body

/-- The request of `HttpConnectionPool::doRequest`. -/
def poolRequest (host vhost : List UInt8) (method : HttpMethod) (url : List UInt8)
    (headers : List (List UInt8 × List UInt8)) (body : List UInt8) : HttpRequest :=
  (fillHeaders (if vhost.isEmpty then host else vhost) headers
    (((HttpRequest.fresh.setPath url).setMethod method).setClose false)).setBody body

/-- The headers that the loop does not skip. -/
def passed (headers : List (List UInt8 × List UInt8)) : List (List UInt8 × List UInt8) :=
  headers.filter fun e => !sameIgnoringCase e.1 (bytes "connection")

/-- One of the caller's headers is a `Host` with a value. -/
def hasHost (headers : List (List UInt8 × List UInt8)) : Bool :=
  headers.any fun e => sameIgnoringCase e.1 (bytes "host") && !e.2.isEmpty

theorem fill_eq (hclose : r.close = false) (b : Bool) :
    l.foldl fillHeader (r, b) = ({ r with headers := r.headers.setAll (passed l) },
      b || hasHost (passed l)) := by
  induction l generalizing r b with
  | nil => simp [passed, hasHost, OrderedMap.setAll]
  | cons e l ih =>
    rw [List.foldl_cons, fillHeader]
    by_cases hconn : sameIgnoringCase e.1 (bytes "connection") = true
    · have hsame : r.setClose false = r := by rw [HttpRequest.setClose, ← hclose]
      rw [if_pos hconn, hsame, ite_self, ih hclose, passed, passed,
        List.filter_cons_of_neg (by simp [hconn])]
    · rw [if_neg hconn, ih (show (r.setHeader e.1 e.2).close = false from hclose), passed, passed,
        List.filter_cons_of_pos (by simp [hconn]), hasHost, hasHost, List.any_cons]
      refine Prod.ext rfl ?_
      cases b <;> cases sameIgnoringCase e.1 (bytes "host") <;> simp

theorem fillHeaders_find (host : List UInt8) (hclose : r.close = false)
    (hheaders : r.headers = .empty) (key : List UInt8) :
    (fillHeaders host l r).close = false ∧ (fillHeaders host l r).headers.find key =
      if sameIgnoringCase key (bytes "host") && !hasHost (passed l) then some host
      else OrderedMap.lastOf caseFolded (passed l) key := by
  have hkeys : caseFolded (bytes "host") = caseFolded (bytes "Host") := by decide
  have hfound : (r.headers.setAll (passed l)).find key =
      OrderedMap.lastOf caseFolded (passed l) key := by
    rw [OrderedMap.find_setAll, hheaders]
    exact Option.or_none
  rw [fillHeaders, fill_eq hclose, Bool.false_or]
  cases hasHost (passed l) with
  | true => exact ⟨hclose, by simpa using hfound⟩
  | false =>
    refine ⟨hclose, ?_⟩
    rw [Bool.not_false, Bool.and_true, ← hfound]
    refine OrderedMap.find_set.trans ?_
    simp only [sameIgnoringCase, hkeys, decide_eq_true_eq, eq_comm (b := caseFolded key)]

/-- The requests of a connection and of a pool never ask to close. A header of theirs is the last
one of the caller's with that name in any case; where no `Host` of the caller's has a value, the
host is that of the URI or of the pool. -/
theorem doRequest_headers (method : HttpMethod) (uri : Uri) (host vhost url body : List UInt8)
    (headers : List (List UInt8 × List UInt8)) (key : List UInt8) :
    let sent := fun host =>
      if sameIgnoringCase key (bytes "host") && !hasHost (passed headers) then some host
      else OrderedMap.lastOf caseFolded (passed headers) key
    ((doRequest method uri headers body).close = false ∧
      (doRequest method uri headers body).headers.find key = sent uri.host) ∧
    (poolRequest host vhost method url headers body).close = false ∧
      (poolRequest host vhost method url headers body).headers.find key =
        sent (if vhost.isEmpty then host else vhost) :=
  ⟨fillHeaders_find uri.host rfl rfl key, fillHeaders_find _ rfl rfl key⟩

end Client
end Sylar.Http
