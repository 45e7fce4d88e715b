import Sylar.Http.RequestHead

/-! # A request read back from its text

What `dump` writes is a head in its parts with the body behind it, so that one call of the parser
gives the request again, with the headers that `dump` adds.
-/
namespace Sylar.Http.RequestText
open Memory Ragel Ragel.Expr RequestHead

section Headers

theorem isName_connection : IsName (bytes "Connection") :=
  ⟨by decide +kernel, by decide, by decide⟩

theorem isName_contentLength : IsName (bytes "Content-Length") :=
  ⟨by decide +kernel, by decide, by decide⟩

theorem isValue_connection (close : Bool) : IsValue (connectionValue close) := by
  cases close
  · exact ⟨by decide, by decide +kernel, by decide⟩
  · exact ⟨by decide, by decide +kernel, by decide⟩

theorem isValue_decimal (n : ℕ) : IsValue (decimal n) where
  ne_nil := decimal_ne_nil n
  text := by
    intro b hb
    have hdigit := digit_of_mem_decimal hb
    refine ⟨by omega, ?_⟩
    rintro rfl
    simp at hdigit
  start := by
    intro hhead
    have hdigit := digit_of_mem_decimal (List.mem_of_mem_head? hhead)
    exact absurd hdigit.1 (by decide)

theorem fieldValue_accepts {value : List UInt8} (hvalue : IsValue value) :
    Grammar.fieldValue.accepts value = true := by
  rw [Grammar.fieldValue, leaving, entering, accepts_leave, accepts_enter, accepts_star]
  refine ⟨value.map fun b => [b], ?_, ?_⟩
  · rw [← List.flatMap_def, List.flatMap_singleton']
  rw [List.forall_mem_map]
  intro b hb
  have htext := hvalue.text b hb
  have hzero : b ≠ 0 := by
    rintro rfl
    exact absurd htext.1 (by decide)
  refine ⟨?_, List.cons_ne_nil _ _⟩
  rw [Grammar.content, accepts_alt, Bool.or_eq_true, accepts_cls]
  have hall : ∀ b ∈ Grammar.any.members, b ≠ 0 → b ≠ 127 →
    (Cls.diff Grammar.any Grammar.HTTPCtl).mem b = true := by decide +kernel
  exact .inl ⟨b, hall b (Cls.mem_members.mpr (Grammar.mem_any b)) hzero htext.2, rfl⟩

theorem IsValue.oneLine {value : List UInt8} (hvalue : IsValue value) :
    ∀ b ∈ value, b ∉ bytes "\r\n" := by
  intro b hb hline
  have htext := hvalue.text b hb
  have hall : ∀ c ∈ bytes "\r\n", c.toNat < 32 := by decide
  have hlow := hall b hline
  omega

/-- The line of a header with a blank in front of its value. -/
def plain {name value : List UInt8} (hname : IsName name) (hvalue : IsValue value) :
    RequestHead.Header where
  name := name
  ows := bytes " "
  value := value
  newline := bytes "\r\n"
  isName := hname.token
  isOws := RequestHead.space_isOws
  isValue := fieldValue_accepts hvalue
  oneLine := hvalue.oneLine
  isNewline := Methods.crlf_accepts

theorem stored_plain {name value : List UInt8} (hname : IsName name) (hvalue : IsValue value) :
    (plain hname hvalue).stored = value := by
  rcases List.exists_cons_of_ne_nil hvalue.ne_nil with ⟨b, w, rfl⟩
  have hb : blank.mem b = false := by
    have htext := hvalue.text b List.mem_cons_self
    have hspace : b ≠ byte ' ' := fun heq => hvalue.start (congrArg some heq)
    have htab : b ≠ byte '\t' := by
      rintro rfl
      exact absurd htext.1 (by decide)
    rw [Bool.eq_false_iff, ne_eq, blank, Grammar.mem_oneOf]
    simp [bytes, hspace, htab]
  change (b :: w).dropWhile blank.mem = b :: w
  rw [List.dropWhile_cons, hb, if_neg Bool.false_ne_true]

theorem exists_headers {es : List (List UInt8 × List UInt8)}
    (h : ∀ e ∈ es, IsName e.1 ∧ IsValue e.2) :
    ∃ hs : List RequestHead.Header, (∀ e ∈ hs, e.Distinct) ∧
      hs.flatMap RequestHead.Header.text = es.flatMap (fun e => headerLine e.1 e.2) ∧
      hs.map RequestHead.Header.entry = es := by
  induction es with
  | nil => exact ⟨[], nofun, rfl, rfl⟩
  | cons e es ih =>
    rw [List.forall_mem_cons] at h
    rcases ih h.2 with ⟨hs, hplain, htext, hentries⟩
    refine ⟨plain h.1.1 h.1.2 :: hs, ?_, ?_, ?_⟩
    · exact List.forall_mem_cons.mpr ⟨⟨h.1.1.newline, h.1.1.crlf⟩, hplain⟩
    · rw [List.flatMap_cons, List.flatMap_cons, htext]
      simp [plain, RequestHead.Header.text, headerLine, bytes]
    · rw [List.map_cons, hentries, Header.entry, stored_plain h.1.1 h.1.2]
      rfl

end Headers

section Whole

/-- A header that is not one of the two that `dump` writes itself. -/
structure IsHeader (e : List UInt8 × List UInt8) : Prop where
  name : IsName e.1
  value : IsValue e.2
  connection : caseFolded e.1 ≠ caseFolded (bytes "Connection")
  contentLength : caseFolded e.1 ≠ caseFolded (bytes "Content-Length")

/-- A request whose text is read back: the grammar has its target, and its headers are plain. -/
structure Sendable (r : HttpRequest) : Prop where
  method : r.method ≠ .msearch
  version : r.version = 0x10 ∨ r.version = 0x11
  slash : r.path.head? = some (byte '/')
  path : (Grammar.relativePart false).accepts r.path = true
  query : (Grammar.query false).accepts r.query = true
  fragment : (Grammar.fragment false).accepts r.fragment = true
  headers : ∀ e ∈ r.headers.entries, IsHeader e

variable {r : HttpRequest}

/-- The request that is read from the text. -/
def received (r : HttpRequest) : HttpRequest :=
  { r with headers := sentHeaders r.headers r.close r.body, body := [] }

theorem find_sentHeaders (headers : MapType) (close : Bool) (body : List UInt8) :
    (sentHeaders headers close body).find (bytes "Connection") = some (connectionValue close) := by
  have hkeys : caseFolded (bytes "Content-Length") ≠ caseFolded (bytes "Connection") := by decide
  simp only [sentHeaders]
  split_ifs
  · rw [OrderedMap.find_set, if_pos rfl]
  · rw [OrderedMap.find_set, if_neg hkeys, OrderedMap.find_set, if_pos rfl]

/-- The headers of the text, in its order. -/
def sent (r : HttpRequest) : List (List UInt8 × List UInt8) :=
  (bytes "Connection", connectionValue r.close) :: (r.headers.entries ++
    if r.body = [] then [] else [(bytes "Content-Length", decimal r.body.length)])

theorem isHeader_sent (h : Sendable r) : ∀ e ∈ sent r, IsName e.1 ∧ IsValue e.2 := by
  rw [sent, List.forall_mem_cons, List.forall_mem_append]
  refine ⟨⟨isName_connection, isValue_connection _⟩, ?_, ?_⟩
  · intro e he
    exact ⟨(h.headers e he).name, (h.headers e he).value⟩
  · split_ifs
    · nofun
    · rw [List.forall_mem_singleton]
      exact ⟨isName_contentLength, isValue_decimal _⟩

/-- The headers are stored one after the other. -/
theorem setAll_sent (h : Sendable r) :
    OrderedMap.empty.setAll (sent r) = sentHeaders r.headers r.close r.body := by
  have hconnection : (OrderedMap.empty.set (bytes "Connection")
      (connectionValue r.close)).setAll r.headers.entries =
        r.headers.set (bytes "Connection") (connectionValue r.close) := by
    rw [OrderedMap.setAll_set fun e he => (h.headers e he).connection, OrderedMap.setAll_entries]
  rw [sentHeaders, ← hconnection, sent]
  split_ifs <;> simp [OrderedMap.setAll]

/-- The end of the head finds the `Connection` header and sets the flag as it was. -/
theorem headerDone_received (hversion : r.version = 0x10 ∨ r.version = 0x11) :
    headerDone ((received r).setClose false) = received r := by
  have hconn : ((received r).setClose false).getHeader (bytes "Connection") [] =
      connectionValue r.close := by
    rw [HttpRequest.getHeader, show ((received r).setClose false).headers.find _ = _ from
      find_sentHeaders r.headers r.close r.body]
    rfl
  have hclose : received r = { received r with close := r.close } := rfl
  rw [headerDone, hconn]
  rcases hversion with hv | hv
  · rw [show ((received r).setClose false).version = 0x10 from hv, if_pos rfl]
    cases hc : r.close
    · rw [if_pos (by decide), hclose, hc]
      rfl
    · rw [if_neg (by decide), hclose, hc]
      rfl
  · rw [show ((received r).setClose false).version = 0x11 from hv, if_neg (by decide)]
    cases hc : r.close
    · rw [if_neg (by decide), hclose, hc]
      rfl
    · rw [if_pos (by decide), hclose, hc]
      rfl

/-- A part of the target that is not written if it is empty. -/
def written (s : List UInt8) : Option (List UInt8) := if s = [] then none else some s

theorem marked_written (c : Char) (s : List UInt8) : marked c (written s) = targetPart c s := by
  rw [written, targetPart]
  split_ifs <;> rfl

theorem of_mem_written {s q : List UInt8} (h : q ∈ written s) : s = q ∧ q ≠ [] := by
  rw [written] at h
  split_ifs at h with hne
  · cases h
  · cases h
    exact ⟨rfl, hne⟩

theorem versionText_accepts (h : r.version = 0x10 ∨ r.version = 0x11) :
    Grammar.HTTPVersion.accepts (versionText r.version) = true ∧
      versionOf (versionText r.version) = r.version := by
  rcases h with h | h <;> rw [h] <;> decide +kernel

/-- The parts of the text. -/
def parted (h : Sendable r) (hs : List RequestHead.Header) : Head where
  method := httpMethodToString r.method
  path := r.path
  query := written r.query
  fragment := written r.fragment
  version := versionText r.version
  newline := bytes "\r\n"
  headers := hs
  last := bytes "\r\n"
  isMethod := (charsToHttpMethod_name _ (mem_httpMethodMap r.method) h.method).1
  slash := h.slash
  isPath := h.path
  isQuery := fun _ hq => (of_mem_written hq).1 ▸ h.query
  isFragment := fun _ hf => (of_mem_written hf).1 ▸ h.fragment
  isVersion := (versionText_accepts h.version).1
  isNewline := Methods.crlf_accepts
  isLast := Methods.crlf_accepts

theorem text_parted (h : Sendable r) {hs : List RequestHead.Header}
    (hs' : hs.flatMap RequestHead.Header.text = (sent r).flatMap fun e => headerLine e.1 e.2) :
    (parted h hs).text = r.head := by
  have hlines : (sent r).flatMap (fun e => headerLine e.1 e.2) ++ bytes "\r\n" =
      connectionLine r.close ++ headerLines r.headers ++ lengthLines r.body := by
    rw [headerLines_eq fun e he => (h.headers e he).connection, lengthLines, sent]
    split_ifs <;> simp [connectionLine]
  rw [Head.text, show (parted h hs).headers = hs from rfl, hs',
    show (parted h hs).last = bytes "\r\n" from rfl, hlines]
  simp [Head.target, parted, marked_written, HttpRequest.head, HttpRequest.requestLine]

theorem storePart_fresh (r : HttpRequest) :
    (storePart .fragment (written r.fragment) (storePart .query (written r.query)
      ((HttpRequest.fresh.setMethod r.method).setPath r.path))).setVersion r.version =
        { r with close := false, headers := .empty, body := [] } := by
  by_cases hq : r.query = [] <;> by_cases hf : r.fragment = [] <;>
    simp [storePart, written, hq, hf, HttpRequest.fresh, HttpRequest.setPart, HttpRequest.setMethod,
      HttpRequest.setPath, HttpRequest.setQuery, HttpRequest.setFragment, HttpRequest.setVersion]

/-- What the text does to a new request. -/
theorem effect_parted (h : Sendable r) {hs : List RequestHead.Header}
    (hplain : ∀ e ∈ hs, e.Distinct) (hentries : hs.map RequestHead.Header.entry = sent r) :
    (parted h hs).effect (HttpRequest.fresh.setMethod r.method) = received r := by
  have hfound : (parted h hs).found.map RequestHead.Header.entry = sent r := by
    rw [found_of_distinct _ hplain]
    exact hentries
  have hversion : versionOf (parted h hs).version = r.version := (versionText_accepts h.version).2
  refine Eq.trans (congrArg headerDone ?_) (headerDone_received h.version)
  rw [hfound, hversion, show (parted h hs).query = written r.query from rfl,
    show (parted h hs).fragment = written r.fragment from rfl,
    show (parted h hs).path = r.path from rfl, storePart_fresh, received, ← setAll_sent h]
  rfl

/-- What is written is read back, with the headers that `dump` adds, and the body is left. -/
theorem request_roundTrip (h : Sendable r) (hlen : r.toString.length < 2 ^ 31)
    (junk : List UInt8) :
    ∃ v offset memory,
      HttpRequestParser.execute (r.toString ++ junk) r.toString.length (.fresh false) =
        .done (offset, memory) v ∧
      v.hasError = false ∧ v.isFinished = true ∧
      v.data = { r with headers := sentHeaders r.headers r.close r.body, body := [] } ∧
      r.toString.length - offset = r.body.length ∧ r.body <+: memory := by
  rcases exists_headers (isHeader_sent h) with ⟨hs, hplain, hlines, hentries⟩
  have htext := text_parted h hlines
  rcases execute_head (parted h hs) r.body (by rwa [htext]) junk with
    ⟨v, offset, hrun, heffect, hcs, hoffset⟩
  rw [htext] at hrun heffect hoffset
  have hmethod : report (r.head ++ r.body) (.fresh, 0)
      (.method 0 (parted h hs).method.length) = (HttpRequest.fresh.setMethod r.method, 0) := by
    have hstart : ∃ rest, r.head ++ r.body = httpMethodToString r.method ++ bytes " " ++ rest := by
      simp only [HttpRequest.head, HttpRequest.requestLine, List.append_assoc]
      exact ⟨_, rfl⟩
    rcases hstart with ⟨rest, hstart⟩
    have hname := (charsToHttpMethod_name _ (mem_httpMethodMap r.method) h.method).2
    rw [report, List.drop_zero, hstart, charsToHttpMethod_longer rest hname]
    rfl
  have hresult := heffect _ _ hmethod
  rw [effect_parted h hplain hentries] at hresult
  have hoffset := hoffset hplain
  refine ⟨v, offset, _, hrun, ?_, ?_, congrArg Prod.fst hresult, ?_, ?_⟩
  · rw [HttpRequestParser.hasError, hcs, show v.error = 0 from congrArg Prod.snd hresult]
    rfl
  · rw [HttpRequestParser.isFinished, hcs]
    exact (HeadSteps.last headSteps).1
  · rw [hoffset, HttpRequest.toString, HttpRequest.dump, List.length_append]
    omega
  · rw [hoffset, memmove_append]
    exact List.prefix_append _ _

def upload : HttpRequest :=
  ⟨.post, 0x11, true, bytes "/a/b", bytes "x=1", bytes "top",
    OrderedMap.empty.set (bytes "Host") (bytes "h"), bytes "hi"⟩

theorem sendable_upload : Sendable upload where
  method := by decide
  version := .inr rfl
  slash := rfl
  path := by decide +kernel
  query := by decide +kernel
  fragment := by decide +kernel
  headers := by
    change ∀ e ∈ [(bytes "Host", bytes "h")], IsHeader e
    rw [List.forall_mem_singleton]
    exact ⟨⟨by decide +kernel, by decide, by decide⟩, ⟨by decide, by decide +kernel, by decide⟩,
      by decide, by decide⟩

theorem upload_roundTrip : ∃ v offset memory,
    HttpRequestParser.execute (upload.toString ++ []) upload.toString.length (.fresh false) =
      .done (offset, memory) v ∧
    v.hasError = false ∧ v.isFinished = true ∧
    v.data = { upload with
      headers := sentHeaders upload.headers upload.close upload.body, body := [] } ∧
    upload.toString.length - offset = upload.body.length ∧ upload.body <+: memory :=
  request_roundTrip sendable_upload (by decide +kernel) []

/-- An empty segment in front: the rule `path` has it, but a target that starts with two slashes
has to go on with an authority. -/
def slashes : HttpRequest := HttpRequest.fresh.setPath (bytes "//a:b")

theorem slashes_rejected : slashes.path.head? = some (byte '/') ∧
    (Grammar.path false).accepts slashes.path = true ∧
    (Grammar.relativePart false).accepts slashes.path = false ∧
    (match HttpRequestParser.execute slashes.toString slashes.toString.length (.fresh false) with
      | .done _ v => v.hasError
      | _ => false) = true := by
  decide +kernel

end Whole

end Sylar.Http.RequestText
