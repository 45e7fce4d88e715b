import Mathlib.Data.List.TakeWhile
import Sylar.Http.Numerals
import Sylar.Http.ResponseStates
import Sylar.Ragel.Accepts

/-! # Responses that are read back

What `HttpResponse::dump` writes is what `HttpResponseParser` accepts, piece by piece. A header of the
response is taken for a field only; the `Connection` and `Content-Length` lines of `dump` itself are
read by two rules at once.
-/
namespace Sylar.Http.ResponseText
open Memory Ragel Ragel.Expr

section Names

/-- Where the machine is after some bytes of a name. -/
def On (u : List UInt8) (s : State ClientAction) : Prop :=
  s = answered (bytes "a") ∨
    u ≠ [] ∧ (∃ w ∈ special, u.map lower <+: w) ∧ s = answered (u.map lower)

theorem mem_both (b : UInt8) : b ∈ both (lower b) := by
  have hall : ∀ b ∈ Grammar.any.members, b ∈ both (lower b) := by decide +kernel
  exact hall b (Cls.mem_members.mpr (Grammar.mem_any b))

/-- A byte that no special name goes on with leaves the rule for fields. -/
theorem step_leaves {u : List UInt8} {w : List UInt8} {b : UInt8} (hw : w ∈ special)
    (hu : u <+: w) (hne : u ≠ []) (hother : ∀ w' ∈ special, ¬u ++ [lower b] <+: w')
    (hcolon : u ∈ special → b ≠ byte ':') :
    step (answered u) b = step (answered (bytes "a")) b := by
  have htake : w.take u.length = u := (List.prefix_iff_eq_take.mp hu).symm
  rcases NameSteps.others nameSteps w hw u.length (List.mem_range.mpr (Nat.lt_succ_of_le hu.length_le))
    (mt List.length_eq_zero_iff.mp hne) with ⟨hlast, hheads⟩
  rw [htake] at hlast hheads
  rcases List.length_eq_one_iff.mp (NameSteps.more nameSteps).2.2 with ⟨g, hg⟩
  rw [hg] at hlast ⊢
  have hsplit : answered u = (answered u).dropLast ++ [g] :=
    (List.dropLast_append_getLast? g hlast).symm
  rw [hsplit]
  apply step_append
  intro c hc
  rw [Bool.eq_false_iff]
  intro hb
  rcases hheads c hc b (Cls.mem_members.mpr hb) with ⟨w', hw', hpre⟩ | ⟨hspecial, hb⟩
  · exact hother w' hw' hpre
  · exact hcolon hspecial hb

theorem On.step {u : List UInt8} {s : State ClientAction} {b : UInt8} (h : On u s)
    (hb : ClientGrammar.token.mem b = true) :
    ∃ s', On (u ++ [b]) s' ∧ step s b = some (s', []) := by
  have hgeneric := step_of_leads (NameSteps.more nameSteps).1 hb
  rcases h with rfl | ⟨hne, ⟨w, hw, hu⟩, rfl⟩
  · exact ⟨_, .inl rfl, hgeneric⟩
  · by_cases hon : ∃ w' ∈ special, u.map lower ++ [lower b] <+: w'
    · rcases hon with ⟨w', hw', hpre⟩
      refine ⟨answered ((u ++ [b]).map lower), .inr ⟨by simp, ⟨w', hw', by simpa using hpre⟩, rfl⟩, ?_⟩
      rcases hpre with ⟨z, rfl⟩
      have hlen : (u.map lower).length = u.length := List.length_map lower
      have hget : (u.map lower ++ [lower b] ++ z).getD u.length 0 = lower b := by
        rw [← hlen, List.append_assoc]
        simp
      have htake : (u.map lower ++ [lower b] ++ z).take u.length = u.map lower := by
        rw [List.append_assoc, ← hlen, List.take_left]
      have htake' : (u.map lower ++ [lower b] ++ z).take (u.length + 1) = (u ++ [b]).map lower := by
        rw [List.map_append, List.map_singleton]
        apply List.take_left'
        simp
      have hstep := NameSteps.onWay nameSteps _ hw' u.length (by simp)
        (mt List.length_eq_zero_iff.mp hne) b
      rw [hget, htake, htake'] at hstep
      exact hstep (mem_both b)
    · refine ⟨_, .inl rfl, ?_⟩
      rw [step_leaves hw hu (by simpa using hne) (fun w' hw' hpre => hon ⟨w', hw', hpre⟩), hgeneric]
      rintro - rfl
      revert hb
      decide

theorem On.colon {u : List UInt8} {s : State ClientAction} (h : On u s)
    (hu : u.map lower ∉ special) :
    Ragel.step s (byte ':') = some (answered (bytes "a:"), [.writeField]) := by
  rcases h with rfl | ⟨hne, ⟨w, hw, hpre⟩, rfl⟩
  · exact (NameSteps.more nameSteps).2.1
  · rw [step_leaves hw hpre (by simpa using hne) _ (fun hspecial => absurd hspecial hu),
      (NameSteps.more nameSteps).2.1]
    -- no special name has a colon
    intro w' hw' hcolon
    have hnone : ∀ w ∈ special, lower (byte ':') ∉ w := by decide
    exact hnone w' hw' (hcolon.subset (List.mem_append_right _ (List.mem_singleton_self _)))

/-- A name that is taken for a field. -/
structure IsName (name : List UInt8) : Prop where
  token : ClientGrammar.fieldName.accepts name = true
  connection : caseFolded name ≠ caseFolded (bytes "Connection")
  contentLength : caseFolded name ≠ caseFolded (bytes "Content-Length")
  transferEncoding : caseFolded name ≠ caseFolded (bytes "Transfer-Encoding")

theorem token_of_accepts {name : List UInt8} (h : ClientGrammar.fieldName.accepts name = true) :
    name ≠ [] ∧ ∀ b ∈ name, ClientGrammar.token.mem b = true := by
  rw [ClientGrammar.fieldName, leaving, entering, accepts_leave, accepts_enter,
    accepts_plus_cls] at h
  simpa using h

theorem lower_not_special {name : List UInt8} (h : IsName name) : name.map lower ∉ special := by
  rcases token_of_accepts h.token with ⟨-, htoken⟩
  have hnul : (0 : UInt8) ∉ name := by
    intro hmem
    exact absurd (htoken 0 hmem) (by decide)
  have hfold : caseFolded name = (name.map lower).map UInt8.toNat := by
    rw [caseFolded, List.takeWhile_eq_self_iff.mpr, List.map_map]
    · apply List.map_congr_left
      intro b _
      have hb := b.toNat_lt
      rw [Function.comp_apply, lower, UInt8.toNat_ofNat', Nat.mod_eq_of_lt]
      rw [toLower]
      split_ifs <;> omega
    · intro b hb
      rw [decide_eq_true_eq]
      rintro rfl
      exact hnul hb
  intro hspecial
  rcases List.mem_cons.mp hspecial with heq | hspecial
  · exact h.connection (by rw [hfold, heq]; decide)
  rcases List.mem_cons.mp hspecial with heq | hspecial
  · exact h.contentLength (by rw [hfold, heq]; decide)
  · exact h.transferEncoding (by rw [hfold, List.mem_singleton.mp hspecial]; decide)

/-- The name of a header. -/
theorem sweep_name {name : List UInt8} (h : IsName name) :
    ∃ s, On name s ∧ ∀ p rest, sweep clientBreaks headersStart p (name ++ rest) =
      ((.startField, p) :: (sweep clientBreaks s (p + name.length) rest).1,
        (sweep clientBreaks s (p + name.length) rest).2) := by
  rcases token_of_accepts h.token with ⟨hne, htoken⟩
  rcases List.exists_cons_of_ne_nil hne with ⟨b, w, rfl⟩
  rw [List.forall_mem_cons] at htoken
  have hfirst : ∃ s, On [b] s ∧ step headersStart b = some (s, [.startField]) := by
    by_cases hb : b ∈ bytes "cCtT"
    · refine ⟨answered [lower b], .inr ⟨by simp, ?_, rfl⟩, (NameSteps.first nameSteps).2 b hb⟩
      have hall : ∀ b ∈ bytes "cCtT", ∃ w ∈ special, [lower b] <+: w := by decide +kernel
      exact hall b hb
    · refine ⟨_, .inl rfl, step_of_leads (NameSteps.first nameSteps).1 ?_⟩
      rw [Cls.mem, htoken.1, Bool.eq_false_iff.mpr (mt Grammar.mem_oneOf.mp hb)]
      rfl
  rcases hfirst with ⟨s₁, hs₁, hstep⟩
  rcases sweep_along (w := w) (fun u s hs b hb => hs.step (htoken.2 b hb)) hs₁ with ⟨s, hs, hsweep⟩
  refine ⟨s, hs, ?_⟩
  intro p rest
  rw [List.cons_append, sweep_calm hstep rfl, hsweep, Nat.add_assoc, Nat.add_comm 1]
  rfl

end Names

/-- What the pieces of a text change. -/
def view (v : HttpResponseParser) : HttpResponse × ℕ × Bool := (v.data, v.error, v.parser.close)

def update (f : HttpResponse → HttpResponse) (y : HttpResponse × ℕ × Bool) :
    HttpResponse × ℕ × Bool :=
  (f y.1, y.2)

/-- The limit is that of an `int`. -/
abbrev Reading := Reads clientBreaks clientAction (2 ^ 31) view

section Headers

/-- A value on one line that does not start with a blank. -/
structure IsValue (value : List UInt8) : Prop where
  ne_nil : value ≠ []
  text : ∀ b ∈ value, b ≠ byte '\r' ∧ b ≠ byte '\n'
  start : ∀ b ∈ value.head?, Grammar.space.mem b = false

theorem mem_text {b : UInt8} (h : b ≠ byte '\r' ∧ b ≠ byte '\n') : text.mem b = true := by
  have hnot : (Grammar.oneOf "\r\n").mem b = false := by
    rw [Bool.eq_false_iff, ne_eq, Grammar.mem_oneOf]
    simp [bytes, h.1, h.2]
  rw [text, Cls.mem, Grammar.mem_any, hnot]
  rfl

theorem sweep_value {value : List UInt8} (h : IsValue value) (p : ℕ) (rest : List UInt8) :
    sweep clientBreaks (answered (bytes "a: ")) p (value ++ rest) =
      ((.startValue, p) :: (sweep clientBreaks (answered (bytes "a: b")) (p + value.length) rest).1,
        (sweep clientBreaks (answered (bytes "a: b")) (p + value.length) rest).2) := by
  rcases List.exists_cons_of_ne_nil h.ne_nil with ⟨b, w, rfl⟩
  have hfirst : step (answered (bytes "a: ")) b = some (answered (bytes "a: b"), [.startValue]) := by
    apply step_of_leads (FieldSteps.value fieldSteps).2.1
    rw [solid, Cls.mem, Grammar.mem_any, h.start b rfl]
    rfl
  have hloop : ∀ b ∈ w, step (answered (bytes "a: b")) b = some (answered (bytes "a: b"), []) :=
    fun b hb => step_of_leads (FieldSteps.value fieldSteps).2.2.1
      (mem_text (h.text b (List.mem_cons_of_mem _ hb)))
  rw [List.cons_append, sweep_calm hfirst rfl, sweep_loop hloop, Nat.add_assoc, Nat.add_comm 1]
  rfl

theorem sweep_header {name value : List UInt8} (hname : IsName name) (hvalue : IsValue value) :
    sweep clientBreaks headersStart 0 (headerLine name value) =
      ([(.startField, 0), (.writeField, name.length), (.startValue, name.length + 1),
          (.startValue, name.length + 2), (.writeValue, name.length + 2 + value.length)],
        ⟨some headersStart, (headerLine name value).length, false⟩) := by
  rcases sweep_name hname with ⟨s, hs, hsweep⟩
  rcases (FieldSteps.value fieldSteps) with ⟨hblank, -, -, hcr, hlf⟩
  have hline : headerLine name value =
      name ++ (byte ':' :: byte ' ' :: (value ++ [byte '\r', byte '\n'])) := by
    rw [headerLine, show bytes ": " = [byte ':', byte ' '] from rfl,
      show bytes "\r\n" = [byte '\r', byte '\n'] from rfl]
    simp
  rw [hline, hsweep, sweep_calm (hs.colon (lower_not_special hname)) rfl, sweep_calm hblank rfl,
    sweep_value hvalue, sweep_calm hcr rfl, sweep_calm hlf rfl, sweep_nil]
  simp [Nat.add_comm, Nat.add_left_comm]

/-- The parser when a name and the start of a value have been found. -/
def found (field flen mark : ℕ) (v : HttpResponseParser) : HttpResponseParser :=
  v.onParser fun h => { h with fieldStart := field, fieldLen := flen, mark := mark }

variable {pre name value post : List UInt8} {v : HttpResponseParser}

theorem perform_found {m : List UInt8} {i n : ℕ} (h : i + n < 2 ^ 31)
    (l : List (ClientAction × ℕ)) (v : HttpResponseParser) :
    perform (clientAction m) ((.startField, i) :: (.writeField, i + n) ::
      (.startValue, i + (n + 1)) :: (.startValue, i + (n + 2)) :: l) v =
        perform (clientAction m) l (found i n (i + (n + 2)) v) := by
  have hlen : len (i + n) i = n := len_add_left (by omega)
  change perform (clientAction m) l (found i (len (i + n) i) (i + (n + 2)) v) = _
  rw [hlen]

theorem action_writeValue (hne : name ≠ [])
    (hlen : (pre ++ headerLine name value).length < 2 ^ 31) :
    clientAction (pre ++ headerLine name value ++ post) .writeValue
        (pre.length + (name.length + 2 + value.length))
        (found pre.length name.length (pre.length + (name.length + 2)) v) =
      .done () ((found pre.length name.length (pre.length + (name.length + 2)) v).onData
        (·.setHeader name value)) := by
  have hsize : pre.length + (name.length + 2 + value.length) < 2 ^ 31 := by
    rw [headerLine] at hlen
    simp only [List.length_append] at hlen
    have hcolon : (bytes ": ").length = 2 := rfl
    omega
  have hvlen : len (pre.length + (name.length + 2 + value.length)) (pre.length + (name.length + 2)) =
      value.length := by
    rw [len_of_le (by omega) (by omega)]
    omega
  have hstrings := stdString_headerLine hlen post
    (found pre.length name.length (pre.length + (name.length + 2)) v)
  change onResponseHttpField _ pre.length name.length (pre.length + (name.length + 2))
    (len (pre.length + (name.length + 2 + value.length)) (pre.length + (name.length + 2))) _ = _
  rw [hvlen, onResponseHttpField, if_neg (mt List.length_eq_zero_iff.mp hne),
    Command.bind_done hstrings.1, Command.bind_done hstrings.2]
  rfl

/-- A line that is stored as a header and leads from one state to another. -/
theorem reads_line {s' : State ClientAction} (hne : name ≠ [])
    (hsweep : sweep clientBreaks headersStart 0 (headerLine name value) =
      ([(.startField, 0), (.writeField, name.length), (.startValue, name.length + 1),
          (.startValue, name.length + 2), (.writeValue, name.length + 2 + value.length)],
        ⟨some s', (headerLine name value).length, false⟩)) :
    Reading headersStart (headerLine name value) s' (update (·.setHeader name value)) := by
  apply Reads.of_sweep hsweep
  intro pre post v hlen
  refine ⟨(found pre.length name.length (pre.length + (name.length + 2)) v).onData
    (·.setHeader name value), ?_, rfl⟩
  have hshort : pre.length + name.length < 2 ^ 31 := by
    rw [headerLine] at hlen
    simp only [List.length_append] at hlen
    omega
  exact (perform_found hshort _ v).trans (Command.bind_done (action_writeValue hne hlen) _)

theorem reads_header (hname : IsName name) (hvalue : IsValue value) :
    Reading headersStart (headerLine name value) headersStart (update (·.setHeader name value)) :=
  reads_line (token_of_accepts hname.token).1 (sweep_header hname hvalue)

theorem reads_connection (close : Bool) :
    Reading headersStart (connectionLine close) (connected close)
      (update (·.setHeader (bytes "Connection") (connectionValue close))) :=
  reads_line (by decide) (FieldSteps.connection fieldSteps close (by cases close <;> decide))

end Headers

section Length

/-- What is pending after the `Connection` line. -/
def settle (close : Bool) (y : HttpResponse × ℕ × Bool) : HttpResponse × ℕ × Bool :=
  (y.1, y.2.1, y.2.2 || close)

def settled (close : Bool) (v : HttpResponseParser) : HttpResponseParser :=
  v.onParser fun h => { h with close := h.close || close }

theorem perform_pending {m : List UInt8} (close : Bool) (i : ℕ) (l : List (ClientAction × ℕ))
    (v : HttpResponseParser) :
    perform (clientAction m) (((pending close).map fun a => (a, i)) ++ l) v =
      perform (clientAction m) l (settled close v) := by
  cases close with
  | false =>
    have hsame : settled false v = v := by
      rw [settled, HttpResponseParser.onParser]
      simp
    rw [hsame]
    rfl
  | true =>
    have hset : settled true v = v.onParser fun h => { h with close := true } := by
      rw [settled]
      simp
    rw [hset]
    rfl

/-- What the end of the head does. -/
def finished (y : HttpResponse × ℕ × Bool) : HttpResponse × ℕ × Bool := (y.1.setClose y.2.2, y.2)

theorem ends_head (close : Bool) :
    Ends clientBreaks clientAction (2 ^ 31) view (connected close) (bytes "\r\n")
      (finished ∘ settle close) := by
  apply Ends.of_sweep (FieldSteps.last fieldSteps).1
    ((FieldSteps.last fieldSteps).2 close (by cases close <;> decide))
  intro pre post v _
  refine ⟨((settled close v).onParser fun h => { h with bodyStart := pre.length + 1 + 1 }).onData
    (·.setClose (v.parser.close || close)), ?_, rfl⟩
  rw [List.map_append, List.map_map]
  exact perform_pending close pre.length _ v

theorem sweep_lengthLine {n : ℕ} (close : Bool) :
    sweep clientBreaks (connected close) 0 (headerLine (bytes "Content-Length") (decimal n)) =
      (((pending close).map fun a => (a, 0)) ++
          [(.startField, 0), (.writeField, 14), (.startValue, 15), (.startValue, 16),
            (.writeContentLen, 16 + (decimal n).length), (.writeValue, 16 + (decimal n).length)],
        ⟨some headersStart, (headerLine (bytes "Content-Length") (decimal n)).length, false⟩) := by
  have hline : headerLine (bytes "Content-Length") (decimal n) =
      bytes "Content-Length: " ++ (decimal n ++ [byte '\r', byte '\n']) := by
    rw [headerLine, show bytes "\r\n" = [byte '\r', byte '\n'] from rfl,
      show bytes "Content-Length: " = bytes "Content-Length" ++ bytes ": " from rfl]
    simp
  have hdigit : ∀ b ∈ decimal n, Grammar.digit.mem b = true := by
    intro b hb
    have hrange := digit_of_mem_decimal hb
    rw [Grammar.digit, Grammar.range, Cls.mem, Bool.and_eq_true]
    exact ⟨decide_eq_true hrange.1, decide_eq_true hrange.2⟩
  rcases (FieldSteps.digits fieldSteps) with ⟨hfirst, hloop, hcr, hlf⟩
  have hdigits := sweep_word (p := 16) (decimal_ne_nil n)
    (rfl : clientBreaks .startValue = false)
    (fun b hb => ⟨step_of_leads hfirst (hdigit b hb), step_of_leads hloop (hdigit b hb)⟩)
  rw [hline, sweep_append (FieldSteps.contentLength fieldSteps close (by cases close <;> decide))]
  change (_ ++ (sweep clientBreaks _ 16 _).1, (sweep clientBreaks _ 16 _).2) = _
  rw [hdigits, sweep_calm hcr rfl, sweep_calm hlf rfl, sweep_nil]
  simp [show (bytes "Content-Length: ").length = 16 from rfl]
  omega

theorem strtolInt_decimal (n : ℕ) (rest : List UInt8) :
    ∃ z, strtolInt 10 (decimal n ++ byte '\r' :: rest) = some z :=
  ⟨_, strtolInt_digits (decimal_ne_nil n) (fun _ hb => mem_digit_of_mem_decimal hb) (by decide) rest⟩

/-- The length of the body is stored as a header as well. -/
theorem reads_lengthLine (n : ℕ) (close : Bool) :
    Reading (connected close) (headerLine (bytes "Content-Length") (decimal n)) headersStart
      (update (·.setHeader (bytes "Content-Length") (decimal n)) ∘ settle close) := by
  apply Reads.of_sweep (sweep_lengthLine close)
  intro pre post v hlen
  have hmemory : (pre ++ headerLine (bytes "Content-Length") (decimal n) ++ post).drop
      (pre.length + 16) = decimal n ++ byte '\r' :: (byte '\n' :: post) := by
    have hsplit : pre ++ headerLine (bytes "Content-Length") (decimal n) ++ post =
        (pre ++ bytes "Content-Length: ") ++ (decimal n ++ byte '\r' :: (byte '\n' :: post)) := by
      rw [headerLine, show bytes "\r\n" = [byte '\r', byte '\n'] from rfl,
        show bytes "Content-Length: " = bytes "Content-Length" ++ bytes ": " from rfl]
      simp
    rw [hsplit]
    apply List.drop_left'
    rw [List.length_append]
    rfl
  rcases strtolInt_decimal n (byte '\n' :: post) with ⟨z, hz⟩
  have hnumber (x : HttpResponseParser) (q : ℕ) :
      clientAction (pre ++ headerLine (bytes "Content-Length") (decimal n) ++ post)
          .writeContentLen q (found pre.length 14 (pre.length + 16) x) =
        .done () (found pre.length 14 (pre.length + 16)
          (x.onParser fun h => { h with contentLen := z })) := by
    change (readInt _ 10 (pre.length + 16) >>= fun n =>
      Command.modify (·.onParser fun h => { h with contentLen := n })) _ = _
    rw [readInt, hmemory, hz]
    rfl
  have hshort : pre.length + 14 < 2 ^ 31 := by
    have hlength : (headerLine (bytes "Content-Length") (decimal n)).length =
        14 + 2 + (decimal n).length + 2 := by
      rw [headerLine, List.length_append, List.length_append, List.length_append]
      rfl
    rw [List.length_append, hlength] at hlen
    omega
  refine ⟨(found pre.length 14 (pre.length + 16) ((settled close v).onParser fun h =>
    { h with contentLen := z })).onData (·.setHeader (bytes "Content-Length") (decimal n)), ?_, rfl⟩
  rw [List.map_append, List.map_map]
  refine (perform_pending close pre.length _ v).trans ((perform_found hshort _ _).trans ?_)
  refine (Command.bind_done (hnumber _ _) _).trans ?_
  exact Command.bind_done (action_writeValue (by decide) hlen) _

theorem ends_lengthLines (body : List UInt8) (close : Bool) :
    Ends clientBreaks clientAction (2 ^ 31) view (connected close) (lengthLines body)
      (finished ∘ update (fun q => if body = [] then q
        else q.setHeader (bytes "Content-Length") (decimal body.length)) ∘ settle close) := by
  by_cases hbody : body = []
  · simp only [lengthLines, if_pos hbody]
    exact ends_head close
  · simp only [lengthLines, if_neg hbody]
    have hsettled : settle false = id := by
      funext y
      simp [settle]
    have hends := (reads_lengthLine body.length close).ends (ends_head false)
    rw [hsettled] at hends
    exact hends

end Length

section StatusLine

theorem strtolInt_status : ∀ e ∈ httpStatusMap,
    strtolInt 10 (decimal (e.1 % 2 ^ 32).toNat ++ bytes " ") = some e.1 := by
  decide +kernel

/-- Every description can be sent as a reason. -/
theorem httpStatusMap_reasons : ∀ e ∈ httpStatusMap, httpStatusToString e.1 ≠ [] ∧
    ∀ b ∈ httpStatusToString e.1, b ≠ byte '\r' ∧ b ≠ byte '\n' := by
  decide +kernel

theorem reads_version {version : UInt8} (h : version = 0x10 ∨ version = 0x11) :
    Reading (start ClientGrammar.main) (versionText version ++ bytes " ") (reached "HTTP/1.1 ")
      (update (·.setVersion version)) := by
  have hmem : version ∈ [(0x10 : UInt8), 0x11] := by
    rcases h with rfl | rfl <;> decide
  apply Reads.of_sweep (StatusSteps.version statusSteps version hmem)
  intro pre post v hlen
  have hsize : len (pre.length + 8) pre.length = 8 := by
    rw [List.length_append] at hlen
    exact len_add_left (by omega)
  refine ⟨(v.onParser fun h => { h with mark := pre.length }).onData (·.setVersion version), ?_, rfl⟩
  change (onResponseVersion _ pre.length (len (pre.length + 8) pre.length) >>= fun _ => pure ()) _ = _
  rw [onResponseVersion_eq, hsize, readVersion_text h]
  rfl

theorem reads_status {e : ℤ × List UInt8} (he : e ∈ httpStatusMap) :
    Reading (reached "HTTP/1.1 ") (decimal (e.1 % 2 ^ 32).toNat ++ bytes " ")
      (reached "HTTP/1.1 200 ") (update (·.setStatus e.1)) := by
  apply Reads.of_sweep (StatusSteps.status statusSteps e he)
  intro pre post v _
  have hnumber : strtolInt 10 ((pre ++ (decimal (e.1 % 2 ^ 32).toNat ++ bytes " ") ++ post).drop
      pre.length) = some e.1 := by
    rw [List.append_assoc, List.drop_left]
    exact strtolInt_longer post (strtolInt_status e he)
  refine ⟨(v.onParser fun h => { h with mark := pre.length }).onData (·.setStatus e.1), ?_, rfl⟩
  change (onResponseStatus _ pre.length >>= fun _ => pure ()) _ = _
  rw [onResponseStatus, readInt, hnumber]
  rfl

theorem reads_reason {reason : List UInt8} (hne : reason ≠ [])
    (h : ∀ b ∈ reason, b ≠ byte '\r' ∧ b ≠ byte '\n') :
    Reading (reached "HTTP/1.1 200 ") (reason ++ bytes "\r\n") headersStart
      (update (·.setReason reason)) := by
  rcases (StatusSteps.reason statusSteps) with ⟨hfirst, hloop, hcr, hlf⟩
  have hsweep : sweep clientBreaks (reached "HTTP/1.1 200 ") 0 (reason ++ bytes "\r\n") =
      ([(.mark, 0), (.reasonPhrase, reason.length)],
        ⟨some headersStart, (reason ++ bytes "\r\n").length, false⟩) := by
    rw [sweep_word hne rfl (fun b hb => ⟨step_of_leads hfirst (mem_text (h b hb)),
      step_of_leads hloop (mem_text (h b hb))⟩), show bytes "\r\n" = [byte '\r', byte '\n'] from rfl,
      sweep_calm hcr rfl, sweep_calm hlf rfl, sweep_nil]
    simp
  apply Reads.of_sweep hsweep
  intro pre post v hlen
  have htext : stdString (pre ++ (reason ++ bytes "\r\n") ++ post) pre.length
      (len (pre.length + reason.length) pre.length)
      (v.onParser fun h => { h with mark := pre.length }) =
        .done reason (v.onParser fun h => { h with mark := pre.length }) := by
    rw [← List.append_assoc, List.length_append, List.length_append] at hlen
    rw [← List.append_assoc pre, List.append_assoc (pre ++ reason)]
    apply stdString_middle _ rfl
    · exact (len_add_left (by omega)).symm
    · rw [maxSize]
      omega
  refine ⟨(v.onParser fun h => { h with mark := pre.length }).onData (·.setReason reason), ?_, rfl⟩
  have hcallback : onResponseReason (pre ++ (reason ++ bytes "\r\n") ++ post) pre.length
      (len (pre.length + reason.length) pre.length)
      (v.onParser fun h => { h with mark := pre.length }) =
        .done () ((v.onParser fun h => { h with mark := pre.length }).onData
          (·.setReason reason)) := by
    rw [onResponseReason, Command.bind_done htext]
    rfl
  exact Command.bind_done hcallback fun _ => pure ()

end StatusLine

section Whole

theorem reads_headers {headers : MapType}
    (h : ∀ e ∈ headers.entries, IsName e.1 ∧ IsValue e.2) :
    Reading headersStart (headerLines headers) headersStart (update fun q =>
      { q with headers := q.headers.setAll headers.entries }) := by
  have heffect (l : List (List UInt8 × List UInt8)) (y : HttpResponse × ℕ × Bool) :
      l.foldl (fun y e => update (·.setHeader e.1 e.2) y) y =
        update (fun q => { q with headers := q.headers.setAll l }) y := by
    induction l generalizing y with
    | nil => rfl
    | cons e l ih => exact ih _
  rw [headerLines_eq fun e he => (h e he).1.connection, ← funext (heffect _)]
  exact Reads.flatMap fun e he => reads_header (h e he).1 (h e he).2

/-- A response whose text is read back. -/
structure Sendable (r : HttpResponse) : Prop where
  version : r.version = 0x10 ∨ r.version = 0x11
  status : r.status ∈ httpStatusMap.map Prod.fst
  reason : ∀ b ∈ r.reason, b ≠ byte '\r' ∧ b ≠ byte '\n'
  headers : ∀ e ∈ r.headers.entries, IsName e.1 ∧ IsValue e.2

variable {r : HttpResponse}

theorem reads_statusLine (h : Sendable r) :
    Reading (start ClientGrammar.main) r.statusLine headersStart (update fun q =>
      ((q.setVersion r.version).setStatus r.status).setReason r.effectiveReason) := by
  rcases List.mem_map.mp h.status with ⟨e, he, hcode⟩
  have hreason : r.effectiveReason ≠ [] ∧
      ∀ b ∈ r.effectiveReason, b ≠ byte '\r' ∧ b ≠ byte '\n' := by
    rw [HttpResponse.effectiveReason]
    split_ifs with hempty
    · rw [← hcode]
      exact httpStatusMap_reasons e he
    · exact ⟨hempty, h.reason⟩
  have hline : r.statusLine = versionText r.version ++ bytes " " ++
      ((decimal (r.status % 2 ^ 32).toNat ++ bytes " ") ++ (r.effectiveReason ++ bytes "\r\n")) := by
    simp only [HttpResponse.statusLine, List.append_assoc]
  rw [hline, ← hcode]
  exact (reads_version h.version).trans ((reads_status he).trans (reads_reason hreason.1 hreason.2))

theorem ends_text (h : Sendable r) :
    ∃ f, Ends clientBreaks clientAction (2 ^ 31) view (start ClientGrammar.main) r.head f ∧
      f (HttpResponse.fresh, 0, false) = ({ r with
        reason := r.effectiveReason, headers := sentHeaders r.headers r.close r.body
        body := [] }, 0, r.close) := by
  refine ⟨_, (((reads_statusLine h).trans (reads_headers h.headers)).trans
    (reads_connection r.close)).ends (ends_lengthLines r.body r.close), ?_⟩
  have hheaders : sentHeaders r.headers r.close r.body = sentHeaders
      (OrderedMap.empty.setAll r.headers.entries) r.close r.body := by
    rw [OrderedMap.setAll_entries]
  rw [hheaders]
  simp only [Function.comp_apply, update, settle, finished, Bool.false_or, sentHeaders]
  split_ifs <;> rfl

/-- What is written is read back, with the headers that `dump` adds, and the body is left. -/
theorem response_roundTrip (h : Sendable r) (hlen : r.toString.length < 2 ^ 31)
    (junk : List UInt8) :
    ∃ v offset memory,
      HttpResponseParser.execute false (r.toString ++ 0 :: junk) r.toString.length .fresh =
        .done (offset, memory) v ∧
      v.hasError = false ∧ v.isFinished = true ∧
      v.data = { r with
        reason := r.effectiveReason, headers := sentHeaders r.headers r.close r.body, body := [] } ∧
      r.toString.length - offset = r.body.length ∧ r.body <+: memory := by
  rcases ends_text h with ⟨f, hends, hf⟩
  have hhead : r.head.length < 2 ^ 31 := by
    rw [HttpResponse.toString, HttpResponse.dump, List.length_append] at hlen
    omega
  rcases hends.exec hhead .fresh with ⟨s, v, hfinal, hexec, hview⟩
  have hdata := hview.trans hf
  have hresponse : responseHead r.head =
      some (v.onParser (HttpclientParser.keep 0 ⟨some s, r.head.length, true⟩)) := by
    have herror : v.error = 0 := congrArg (fun y => y.2.1) hdata
    rw [responseHead, hexec]
    exact if_pos ⟨hfinal, rfl, herror⟩
  have hfinished := responseHead_finished hresponse
  refine ⟨_, _, _, execute_responseHead hresponse hlen junk, hfinished.1, hfinished.2,
    congrArg Prod.fst hdata, ?_, ?_⟩
  · rw [HttpResponse.toString, HttpResponse.dump, List.length_append]
    omega
  · rw [memmove_append]
    exact List.prefix_append _ _

def notFound : HttpResponse :=
  ⟨404, 0x11, true, bytes "no", [], OrderedMap.empty.set (bytes "Connect") (bytes "x y")⟩

theorem sendable_notFound : Sendable notFound where
  version := .inr rfl
  status := by decide
  reason := nofun
  headers := by
    change ∀ e ∈ [(bytes "Connect", bytes "x y")], IsName e.1 ∧ IsValue e.2
    rw [List.forall_mem_singleton]
    exact ⟨⟨by decide +kernel, by decide, by decide, by decide⟩, by decide, by decide,
      by decide +kernel⟩

theorem notFound_roundTrip : ∃ v offset memory,
    HttpResponseParser.execute false (notFound.toString ++ 0 :: []) notFound.toString.length
      .fresh = .done (offset, memory) v ∧
    v.hasError = false ∧ v.isFinished = true ∧
    v.data = { notFound with
      reason := notFound.effectiveReason
      headers := sentHeaders notFound.headers notFound.close notFound.body, body := [] } ∧
    notFound.toString.length - offset = notFound.body.length ∧ notFound.body <+: memory :=
  response_roundTrip sendable_notFound (by decide +kernel) []

/-- A text whose length is no `int` is not read at all. -/
theorem execute_long {x : List UInt8} (h : 2 ^ 31 ≤ x.length) (junk : List UInt8)
    (v : HttpResponseParser) :
    HttpResponseParser.execute false (x ++ 0 :: junk) x.length v =
      .raised .assertion (v.onParser HttpclientParser.reset) := by
  have hint : ¬(x.length : ℤ) - (0 : ℕ) = Stream.toInt x.length - Stream.toInt 0 := by
    have hne := mt Stream.toInt_eq_self_iff.mp (not_lt.mpr h)
    rw [show Stream.toInt 0 = 0 from rfl]
    omega
  have hnul : assertNul (x ++ 0 :: junk) x.length (v.onParser HttpclientParser.reset) =
      .done () (v.onParser HttpclientParser.reset) := by
    rw [assertNul, List.getElem?_append_right le_rfl, Nat.sub_self]
    rfl
  have hraised : httpclientParserExecute (x ++ 0 :: junk) x.length 0 v =
      .raised .assertion (v.onParser HttpclientParser.reset) := by
    rw [httpclientParserExecute, Command.modify_bind_apply, assert, if_pos (Nat.zero_le _),
      Command.pure_bind_apply, Command.bind_done hnul, assert, if_neg hint]
    rfl
  rw [HttpResponseParser.execute, Command.modify_bind_apply]
  exact Command.bind_raised hraised _

def huge : HttpResponse := HttpResponse.fresh.setBody (List.replicate (2 ^ 31) 0)

theorem huge_raises : Sendable huge ∧ ∃ v,
    HttpResponseParser.execute false (huge.toString ++ 0 :: []) huge.toString.length .fresh =
      .raised .assertion v := by
  constructor
  · exact ⟨.inr rfl, List.mem_map.mpr ⟨(200, bytes "OK"), by decide, rfl⟩, nofun, nofun⟩
  · refine ⟨_, execute_long ?_ _ _⟩
    have hbody : huge.body.length = 2 ^ 31 := List.length_replicate
    rw [HttpResponse.toString, HttpResponse.dump, List.length_append, hbody]
    exact Nat.le_add_left _ _

end Whole

end Sylar.Http.ResponseText
