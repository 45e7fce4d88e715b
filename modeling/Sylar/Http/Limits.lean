import Sylar.Http.Lengths
import Sylar.Http.Numerals

/-! # The length of a request body

`recvRequest` turns the text of the `Content-Length` header into a number and does not look at
`http.request.max_body_size`. A text that is not a number becomes the length zero, and a length
from `2 ^ 63` on is negative; in both cases the request is returned without a body.
-/
namespace Sylar.Http
open Memory Ragel
open Sylar.Stream (toInt toSize toSize_of_nonneg)

def numeral (v : List UInt8) : Option ℕ :=
  if !v.isEmpty && v.all Grammar.digit.mem then some (decimalValue v) else none

def inUInt64 (n : ℕ) : Option ℕ := if n < 2 ^ 64 then some n else none

/-- `boost::lexical_cast<uint64_t>`: a numeral in range, perhaps with a sign. -/
def lexicalCastUInt64 : List UInt8 → Option ℕ
  | [] => none
  | b :: ds =>
    if b = byte '+' then (numeral ds).bind inUInt64
    else if b = byte '-' then ((numeral ds).bind inUInt64).map fun n => (2 ^ 64 - n) % 2 ^ 64
    else (numeral (b :: ds)).bind inUInt64

theorem lexicalCastUInt64_lt {v : List UInt8} {n : ℕ} (h : lexicalCastUInt64 v = some n) :
    n < 2 ^ 64 := by
  have hin {o : Option ℕ} (ho : o.bind inUInt64 = some n) : n < 2 ^ 64 := by
    rcases Option.bind_eq_some_iff.mp ho with ⟨k, -, hk⟩
    rw [inUInt64] at hk
    split_ifs at hk with hlt
    cases hk
    exact hlt
  cases v with
  | nil => cases h
  | cons b ds =>
    rw [lexicalCastUInt64] at h
    split_ifs at h
    · exact hin h
    · rcases Option.map_eq_some_iff.mp h with ⟨k, -, rfl⟩
      exact Nat.mod_lt _ (by decide)
    · exact hin h

/-- A numeral has no sign. -/
theorem lexicalCastUInt64_numeral {v : List UInt8} {n : ℕ} (h : numeral v = some n) :
    lexicalCastUInt64 v = inUInt64 n := by
  cases v with
  | nil => cases h
  | cons b ds =>
    have hb : Grammar.digit.mem b = true := by
      rw [numeral] at h
      split_ifs at h with hv
      simp at hv
      exact hv.1
    have hsign : b ≠ byte '+' ∧ b ≠ byte '-' := by
      constructor <;>
      · rintro rfl
        revert hb
        decide
    rw [lexicalCastUInt64, if_neg hsign.1, if_neg hsign.2, h]
    rfl

/-- A length for which there is no body is not positive, or too long. -/
theorem length_sign {v : List UInt8} {bound : ℕ}
    (h : ¬∃ n, lexicalCastUInt64 v = some n ∧ 0 < n ∧ n ≤ bound) :
    toInt64 ((lexicalCastUInt64 v).getD 0) ≤ 0 ∨
      (bound : ℤ) < toInt64 ((lexicalCastUInt64 v).getD 0) := by
  cases hn : lexicalCastUInt64 v with
  | none => exact .inl le_rfl
  | some n =>
    have hlt := lexicalCastUInt64_lt hn
    rw [Option.getD_some, toInt64, Nat.mod_eq_of_lt hlt]
    split_ifs
    · rcases Nat.eq_zero_or_pos n with rfl | hpos
      · exact .inl le_rfl
      · right
        by_contra hmax
        exact h ⟨n, hn, hpos, by omega⟩
    · left
      omega

section Head

theorem action_body (m : List UInt8) (a : Action) (p : ℕ) :
    Command.Ensures (fun v => v.data.body = []) (action m a p) fun _ v => v.data.body = [] := by
  have htext {start length : ℕ} {f : List UInt8 → HttpRequest → HttpRequest}
      (hf : ∀ s r, (f s r).body = r.body) :
      Command.Ensures (fun v : HttpRequestParser => v.data.body = [])
        (stdString m start length >>= fun s => Command.modify (·.onData (f s)))
        fun _ v => v.data.body = [] :=
    stdString_ensures.bind fun s => .modify fun v hv => (hf s v.data).trans hv
  refine .state_bind fun v => ?_
  cases a with
  | writeValue =>
    exact .ite (.pure fun _ hv => hv) (stdString_ensures.bind fun _ => htext fun _ _ => rfl)
  | requestMethod =>
    dsimp only [onRequestMethod]
    rcases charsToHttpMethod _ with _ | _ | method
    · exact .abort _
    · exact .modify fun _ hv => hv
    · exact .modify fun _ hv => hv
  | fragment | requestPath => exact htext fun _ _ => rfl
  | queryString =>
    dsimp only
    cases v.parser.queryStart with
    | none => exact .abort _
    | some q => exact htext fun _ _ => rfl
  | httpVersion =>
    dsimp only
    rw [onRequestVersion_eq]
    rcases readVersion _ _ with _ | _ | version
    · exact .abort _
    · exact .modify fun _ hv => hv
    · exact .modify fun _ hv => hv
  | done =>
    have hdone (r : HttpRequest) : (headerDone r).body = r.body := by
      simp only [headerDone]
      split_ifs <;> rfl
    exact .ite (.modify fun _ hv => hv)
      (.bind (.modify fun _ hv => hv) fun _ => .modify fun v hv => (hdone v.data).trans hv)
  | requestUri => exact .pure fun _ hv => hv
  | _ => exact .modify fun _ hv => hv

variable {env : Env} {head y : List UInt8} {v : HttpRequestParser}

theorem requestHead_body {relaxed : Bool} (h : requestHead relaxed head = some v) :
    v.data.body = [] := by
  rcases requestHead_eq h with ⟨s, v₀, hexec, -, -, rfl⟩
  have hbody : v₀.data.body = [] :=
    exec_bounds (R := fun _ (w : HttpRequestParser) => w.data.body = [])
      (S := fun _ (w : HttpRequestParser) => w.data.body = []) (fun a p _ => action_body head a p)
      (fun a p _ => action_body head a p) (fun _ _ hw => hw) _ _ _ _ _ _ rfl hexec rfl
  exact hbody

/-- A call whose first `recv` brings the head and some of the body. -/
theorem recvRequestVia_head (fix : ℕ → ℕ → Recv ℤ) (hbuffer : env.bufferSize < 2 ^ 31)
    (hhead : requestHead env.relaxed head = some v) {u : Session} {rest : List Arrival}
    (hcon : u.connected = true) (harr : u.arrivals = .data (head ++ y) :: rest)
    (hfit : (head ++ y).length ≤ env.bufferSize) (junk : ℕ → UInt8) :
    ∃ w : Session, recvRequestVia env fix junk u = recvBody env fix (y.length : ℤ) w ∧
      w.connected = true ∧ w.arrivals = rest ∧ w.parser = v ∧ w.buffer.take y.length = y := by
  rcases recvHead_message hbuffer hhead hcon harr hfit junk with ⟨w, hround, hw⟩
  refine ⟨w, ?_, hw⟩
  rw [recvRequestVia, Command.state_bind_apply, Command.modify_bind_apply,
    Command.modify_bind_apply, Command.bind_done hround]
  rfl

end Head

section Limit

variable {env : Env} {fix : ℕ → ℕ → Recv ℤ} {u : Session} {y : List UInt8} {size : ℕ}

/-- A body of `size` bytes, as much of it as possible from the buffer. -/
theorem takeBody_following (hfix : Delivers fix) (hcon : u.connected = true)
    (hbuf : u.buffer.take y.length = y) :
    match following size y u.arrivals with
    | some bs => ∃ u', takeBody fix size (min y.length size) u =
        .done (some (u.parser.data.setBody bs)) u'
    | none => ∃ u', takeBody fix size (min y.length size) u = .done none u' := by
  have hlen := (buffered hbuf le_rfl).1
  rcases Nat.lt_or_ge y.length size with hlt | hge
  · have hfill := hfix.fill (u := u.putBody (y ++ List.replicate (size - y.length) 0)) 0 hcon hlt rfl
    rw [min_eq_left hlt.le, takeBody, Command.state_bind_apply, Command.ite_apply,
      if_neg (by omega), hbuf, Command.modify_bind_apply, fillBody, if_pos (by omega)]
    change match following size y u.arrivals with | some _ => _ | none => _ at hfill
    cases hnext : following size y u.arrivals with
    | none =>
      rw [hnext] at hfill
      rcases hfill with ⟨rest, b, hrun⟩
      rw [Command.bind_done hrun]
      exact ⟨_, rfl⟩
    | some bs =>
      rw [hnext] at hfill
      rcases hfill with ⟨rest, hrun⟩
      rw [List.replicate_zero, List.append_nil] at hrun
      rw [Command.bind_done hrun]
      exact ⟨_, rfl⟩
  · rw [following, if_pos hge, min_eq_right hge, takeBody_buffered fix hbuf hge]
    exact ⟨_, rfl⟩

theorem recvBody_sized (hfix : Delivers fix) (hcon : u.connected = true)
    (hbuf : u.buffer.take y.length = y) (hy : y.length < 2 ^ 31)
    (hsize : getContentLength env u.parser.data = size) (hpos : 0 < size)
    (hmax : size ≤ env.longest) :
    match following size y u.arrivals with
    | some bs => ∃ u', recvBody env fix (y.length : ℤ) u =
        .done (some (u.parser.data.setBody bs)) u'
    | none => ∃ u', recvBody env fix (y.length : ℤ) u = .done none u' := by
  rw [recvBody_eq fix hsize hpos hmax hy]
  exact takeBody_following hfix hcon hbuf

/-- A length that is not positive as an `int64_t`. -/
theorem recvBody_bare (hsize : toInt64 (getContentLength env u.parser.data) ≤ 0) (n : ℤ) :
    recvBody env fix n u = .done (some u.parser.data) u := by
  rw [recvBody, Command.state_bind_apply, Command.ite_apply, if_neg (not_lt.mpr hsize)]
  rfl

theorem recvBody_long (hsize : (env.longest : ℤ) < toInt64 (getContentLength env u.parser.data))
    (n : ℤ) : ∃ e, recvBody env fix n u = .raised e u := by
  have hpos : 0 < toInt64 (getContentLength env u.parser.data) :=
    lt_of_le_of_lt (Int.natCast_nonneg _) hsize
  rw [recvBody, Command.state_bind_apply, Command.ite_apply, if_pos hpos, Command.ite_apply]
  rw [Env.longest] at hsize
  by_cases hmax : (maxSize : ℤ) < toInt64 (getContentLength env u.parser.data)
  · rw [if_pos hmax]
    exact ⟨_, rfl⟩
  · rw [if_neg hmax, Command.ite_apply, if_pos (by omega)]
    exact ⟨_, rfl⟩

/-- What the header field `v` asks for: its value is a numeral within the limit and the body is so
many bytes, unless the stream ends early; otherwise there is no request. -/
def Limited (limit : ℕ) (v y : List UInt8) (arrivals : List Arrival) :
    Outcome Exception Session (Option HttpRequest) → Prop
  | .done (some r) _ => ∃ n, numeral v = some n ∧ n ≤ limit ∧ following n y arrivals = some r.body
  | .done none _ => ∀ n, numeral v = some n → n ≤ limit → following n y arrivals = none
  | _ => False

/-- A length that is read and can be allocated. -/
theorem limited_sized_iff (hfix : Delivers fix) (hcon : u.connected = true)
    (hbuf : u.buffer.take y.length = y) (hy : y.length < 2 ^ 31)
    (hsize : getContentLength env u.parser.data = size) (hpos : 0 < size)
    (hmax : size ≤ env.longest) {v : List UInt8} (hv : lexicalCastUInt64 v = some size)
    (limit : ℕ) :
    Limited limit v y u.arrivals (recvBody env fix (y.length : ℤ) u) ↔
      (numeral v = some size ∧ size ≤ limit) ∨ following size y u.arrivals = none := by
  have hbody := recvBody_sized hfix hcon hbuf hy hsize hpos hmax
  cases hnext : following size y u.arrivals with
  | some bs =>
    rw [hnext] at hbody
    rcases hbody with ⟨u', hdone⟩
    rw [hdone]
    constructor
    · rintro ⟨k, hk, hlimit, hbs⟩
      have hkn : k = size := (following_length hbs).symm.trans (following_length hnext)
      exact .inl (hkn ▸ ⟨hk, hlimit⟩)
    · rintro (⟨hn, hlimit⟩ | hnone)
      · exact ⟨size, hn, hlimit, hnext⟩
      · cases hnone
  | none =>
    rw [hnext] at hbody
    rcases hbody with ⟨u', hdone⟩
    rw [hdone]
    refine iff_of_true ?_ (.inr rfl)
    intro k hk hlimit
    rw [lexicalCastUInt64_numeral hk, inUInt64] at hv
    split_ifs at hv
    cases hv
    exact hnext

/-- Any other length: the request has no body, or there is none. -/
theorem limited_unsized_iff {v : List UInt8} (hbody : u.parser.data.body = [])
    (hsize : getContentLength env u.parser.data = (lexicalCastUInt64 v).getD 0)
    (hv : ¬∃ n, lexicalCastUInt64 v = some n ∧ 0 < n ∧ n ≤ env.longest) (limit : ℕ) :
    Limited limit v y u.arrivals (recvBody env fix (y.length : ℤ) u) ↔ numeral v = some 0 := by
  rcases length_sign hv with hle | hlong
  · rw [recvBody_bare (by rw [hsize]; exact hle)]
    constructor
    · rintro ⟨n, hn, -, hnil⟩
      rw [hbody] at hnil
      rw [hn, ← following_length hnil]
      rfl
    · intro hzero
      refine ⟨0, hzero, Nat.zero_le _, ?_⟩
      rw [hbody, following, if_pos (Nat.zero_le _), List.take_zero]
  · have hraised : ∃ e, recvBody env fix (y.length : ℤ) u = .raised e u :=
      recvBody_long (by rw [hsize]; exact hlong) _
    rcases hraised with ⟨e, he⟩
    rw [he]
    refine iff_of_false id fun hzero => ?_
    rw [lexicalCastUInt64_numeral hzero] at hlong
    exact absurd hlong (not_lt.mpr (Int.natCast_nonneg _))

/-- A request is limited as it should be exactly if its length is a numeral within the limit that a
body can have, or the stream ends before a body of the length that is read. -/
theorem recvRequest_limit_iff (hfix : Delivers fix) (hbuffer : env.bufferSize < 2 ^ 31)
    (hcast : env.lexicalCast = lexicalCastUInt64) {head v : List UInt8} {parser : HttpRequestParser}
    (hhead : requestHead env.relaxed head = some parser)
    (hfield : parser.data.headers.find (bytes "content-length") = some v) {rest : List Arrival}
    (hcon : u.connected = true) (harr : u.arrivals = .data (head ++ y) :: rest)
    (hfit : (head ++ y).length ≤ env.bufferSize) (junk : ℕ → UInt8) (limit : ℕ) :
    Limited limit v y rest (recvRequestVia env fix junk u) ↔
      (∃ n, numeral v = some n ∧ n ≤ limit ∧ n ≤ env.longest) ∨
        ∃ n, lexicalCastUInt64 v = some n ∧ 0 < n ∧ n ≤ env.longest ∧ following n y rest = none := by
  have hlen : (head ++ y).length = head.length + y.length := List.length_append
  have hmax : env.longest < 2 ^ 63 := lt_of_le_of_lt (min_le_left _ _) (by decide)
  rcases recvRequestVia_head fix hbuffer hhead hcon harr hfit junk with
    ⟨w, hrun, hcon', rfl, rfl, hbuf⟩
  have hlength : getContentLength env w.parser.data = (lexicalCastUInt64 v).getD 0 := by
    rw [getContentLength, HttpRequest.getHeaderAs, hfield, hcast]
  have hnumeral {n : ℕ} (hn : numeral v = some n) (hle : n ≤ env.longest) :
      lexicalCastUInt64 v = some n := by
    rw [lexicalCastUInt64_numeral hn, inUInt64, if_pos (by omega)]
  rw [hrun]
  by_cases hsized : ∃ n, lexicalCastUInt64 v = some n ∧ 0 < n ∧ n ≤ env.longest
  · rcases hsized with ⟨n, hn, hpos, hle⟩
    have hunique {k : ℕ} (hk : lexicalCastUInt64 v = some k) : k = n :=
      Option.some.inj (hk.symm.trans hn)
    rw [hn, Option.getD_some] at hlength
    rw [limited_sized_iff hfix hcon' hbuf (by omega) hlength hpos hle hn]
    constructor
    · rintro (⟨hk, hlimit⟩ | hnone)
      · exact .inl ⟨n, hk, hlimit, hle⟩
      · exact .inr ⟨n, hn, hpos, hle, hnone⟩
    · rintro (⟨k, hk, hlimit, hkmax⟩ | ⟨k, hk, -, -, hnone⟩)
      · exact .inl (hunique (hnumeral hk hkmax) ▸ ⟨hk, hlimit⟩)
      · exact .inr (hunique hk ▸ hnone)
  · rw [limited_unsized_iff (requestHead_body hhead) hlength hsized]
    constructor
    · intro hzero
      exact .inl ⟨0, hzero, Nat.zero_le _, Nat.zero_le _⟩
    · rintro (⟨k, hk, -, hkmax⟩ | ⟨k, hk, hpos, hle, -⟩)
      · have hzero : k = 0 := by
          by_contra hne
          exact hsized ⟨k, hnumeral hk hkmax, Nat.pos_of_ne_zero hne, hkmax⟩
        rw [hk, hzero]
      · exact absurd ⟨k, hk, hpos, hle⟩ hsized

def RequestMessage.three : RequestMessage (.small lexicalCastUInt64) where
  head := Http.bytes "POST / HTTP/1.1\r\nContent-Length: 3\r\n\r\n"
  body := Http.bytes "abc"
  parser := (requestHead false (Http.bytes "POST / HTTP/1.1\r\nContent-Length: 3\r\n\r\n")).get
    (by decide +kernel)
  parsed := (Option.some_get _).symm
  announced := by decide +kernel

/-- A body of which one byte comes with the head. -/
theorem recvRequest_limit_three :
    let env : Env := .small lexicalCastUInt64
    let rest : List Arrival := [.data (bytes "bc")]
    Limited 10 (bytes "3") (bytes "a") rest (recvRequestVia env deliver (fun _ => 0)
      (.opened (.data (RequestMessage.three.head ++ bytes "a") :: rest))) := by
  intro env rest
  have hbuffer : env.bufferSize < 2 ^ 31 := by decide
  have hfield : RequestMessage.three.parser.data.headers.find (bytes "content-length") =
      some (bytes "3") := by
    decide +kernel
  have hfit : (RequestMessage.three.head ++ bytes "a").length ≤ env.bufferSize := by decide
  have hnumeral : numeral (bytes "3") = some 3 := by decide +kernel
  have hmax : 3 ≤ env.longest := by decide
  rw [recvRequest_limit_iff deliver_delivers hbuffer rfl RequestMessage.three.parsed hfield rfl rfl
    hfit]
  exact Or.inl ⟨3, hnumeral, by omega, hmax⟩

def bodyReceived : Outcome Exception Session (Option HttpRequest) → Option (List UInt8)
  | .done (some r) _ => some r.body
  | _ => none

theorem not_limited {limit : ℕ} {v y b : List UInt8} {arrivals : List Arrival}
    {out : Outcome Exception Session (Option HttpRequest)} (hout : bodyReceived out = some b)
    (hv : ∀ n, numeral v = some n → limit < n) : ¬Limited limit v y arrivals out := by
  intro h
  match out with
  | .done (some r) _ =>
    rcases h with ⟨n, hn, hlimit, -⟩
    exact absurd hlimit (Nat.not_le.mpr (hv n hn))
  | .done none _ => cases hout
  | .raised _ _ => cases hout
  | .fault _ => cases hout

/-- A length that is not a number, and one above the limit: both requests are returned. -/
theorem limit_ignored :
    let env : Env := .small lexicalCastUInt64
    let received (length body : String) :=
      let head := bytes "POST / HTTP/1.1\r\nContent-Length: " ++ bytes length ++ bytes "\r\n\r\n"
      recvRequestVia env deliver (fun _ => 0) (.opened [.data (head ++ bytes body)])
    ¬Limited 2 (bytes "abc") [] [] (received "abc" "") ∧
      ¬Limited 2 (bytes "3") (bytes "xyz") [] (received "3" "xyz") := by
  intro env received
  have habc : bodyReceived (received "abc" "") = some [] ∧ numeral (bytes "abc") = none := by
    decide +kernel
  have hthree : bodyReceived (received "3" "xyz") = some (bytes "xyz") ∧
      numeral (bytes "3") = some 3 := by
    decide +kernel
  constructor
  · apply not_limited habc.1
    rw [habc.2]
    nofun
  · apply not_limited hthree.1
    rw [hthree.2]
    rintro n ⟨⟩
    decide

end Limit

end Sylar.Http
