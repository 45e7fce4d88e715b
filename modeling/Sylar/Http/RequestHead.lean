import Sylar.Http.Methods

/-! # A request head in its parts

A head as the grammar has it, with parts that may be empty. The machine reports each part from the
place that was recorded last to the place where it ends. A part without bytes records the place where
it ends, so that every part is read as it stands; only a name that starts with a line end is not, since
the machine takes it for the end of the head.
-/
namespace Sylar.Http.RequestHead
open Memory Ragel Ragel.Expr Grammar RequestText

/-- `name ":" OWS value CRLF`, on one line. -/
structure Header where
  name : List UInt8
  ows : List UInt8
  value : List UInt8
  newline : List UInt8
  isName : fieldName.accepts name = true
  isOws : ∀ b ∈ ows, b ∈ bytes " \t"
  isValue : fieldValue.accepts value = true
  oneLine : ∀ b ∈ value, b ∉ bytes "\r\n"
  isNewline : (CRLF : Rule).accepts newline = true

theorem space_isOws : ∀ b ∈ bytes " ", b ∈ bytes " \t" := by decide

namespace Header

def text (h : Header) : List UInt8 := h.name ++ byte ':' :: (h.ows ++ h.value ++ h.newline)

/-- The value without leading blanks. -/
def stored (h : Header) : List UInt8 := trimmed h.value

/-- The name does not start with a line end. -/
def Distinct (h : Header) : Prop := ¬bytes "\n" <+: h.name ∧ ¬bytes "\r\n" <+: h.name

instance (h : Header) : Decidable h.Distinct := inferInstanceAs (Decidable (_ ∧ _))

end Header

/-- The value of the last header with a name, the case of letters apart. -/
def lastValue (headers : List Header) (key : List UInt8) : Option (List UInt8) :=
  (headers.reverse.find? fun h => caseFolded h.name = caseFolded key).map Header.stored

structure Head where
  method : List UInt8
  path : List UInt8
  query : Option (List UInt8)
  fragment : Option (List UInt8)
  version : List UInt8
  newline : List UInt8
  headers : List Header
  last : List UInt8
  isMethod : Method.accepts method = true
  slash : path.head? = some (byte '/')
  isPath : (relativePart false).accepts path = true
  isQuery : ∀ q ∈ query, (Grammar.query false).accepts q = true
  isFragment : ∀ f ∈ fragment, (Grammar.fragment false).accepts f = true
  isVersion : HTTPVersion.accepts version = true
  isNewline : (CRLF : Rule).accepts newline = true
  isLast : (CRLF : Rule).accepts last = true

/-- An optional part with the character in front of it. -/
def marked (c : Char) : Option (List UInt8) → List UInt8
  | none => []
  | some w => byte c :: w

def Head.target (h : Head) : List UInt8 :=
  h.path ++ marked '?' h.query ++ marked '#' h.fragment ++ bytes " "

def Head.text (h : Head) : List UInt8 :=
  h.method ++ bytes " " ++ (h.target ++ (h.version ++ h.newline) ++
    (h.headers.flatMap Header.text ++ h.last))

section Pieces

/-- What the actions `l` on the bytes `w` report, after the places `m` have been recorded in front
of them. -/
structure Account (pre w post : List UInt8) (m : Marks) (l : List (Action × ℕ))
    (F : HttpRequest → HttpRequest) : Prop where
  mark : (m.run l).mark < (pre ++ w).length
  socket : (m.run l).socket = false
  tokens : ∀ t ∈ m.tokens l, t.reach ≤ (pre ++ w).length ∧ ∀ i p, t ≠ .method i p
  effect : ∀ r e, (m.tokens l).foldl (report (pre ++ w ++ post)) (r, e) = (F r, e)

theorem Account.append {pre w w' post : List UInt8} {m : Marks} {l l' : List (Action × ℕ)}
    {F G : HttpRequest → HttpRequest} (h : Account pre w (w' ++ post) m l F)
    (h' : Account (pre ++ w) w' post (m.run l) l' G) :
    Account pre (w ++ w') post m (l ++ l') (G ∘ F) where
  mark := by
    rw [Marks.run_append, ← List.append_assoc]
    exact h'.mark
  socket := by
    rw [Marks.run_append]
    exact h'.socket
  tokens := by
    intro t ht
    rw [Marks.tokens_append] at ht
    rw [← List.append_assoc]
    rcases List.mem_append.mp ht with ht | ht
    · refine ⟨(h.tokens t ht).1.trans ?_, (h.tokens t ht).2⟩
      exact (List.prefix_append _ _).length_le
    · exact h'.tokens t ht
  effect := by
    intro r e
    have hbuffer : pre ++ (w ++ w') ++ post = pre ++ w ++ (w' ++ post) := by
      simp only [List.append_assoc]
    have heffect := h'.effect (F r) e
    rw [List.append_assoc (pre ++ w)] at heffect
    rw [Marks.tokens_append, List.foldl_append, hbuffer, h.effect, heffect]
    rfl

/-- The machine goes from `s` to `s'` on the bytes `w`, which do `F` to the request. -/
def Tells (s : State Action) (w : List UInt8) (s' : State Action)
    (F : HttpRequest → HttpRequest) : Prop :=
  ∀ pre post m, m.mark < pre.length → m.socket = false → ∃ l,
    (∀ rest, sweep breaks s pre.length (w ++ rest) =
      (l ++ (sweep breaks s' (pre ++ w).length rest).1,
        (sweep breaks s' (pre ++ w).length rest).2)) ∧
    Account pre w post m l F

/-- The machine accepts at the end of the bytes `w`. -/
def Closes (s : State Action) (w : List UInt8) (F : HttpRequest → HttpRequest) : Prop :=
  ∀ pre post m, m.mark < pre.length → m.socket = false → ∃ l,
    (∀ rest, sweep breaks s pre.length (w ++ rest) =
      (l, ⟨some (headed "\r\n"), (pre ++ w).length, true⟩)) ∧
    Account pre w post m l F

variable {s s' s'' : State Action} {w w' : List UInt8} {F G : HttpRequest → HttpRequest}

theorem Tells.of_sweep {l : List (Action × ℕ)}
    (hsweep : sweep breaks s 0 w = (l, ⟨some s', w.length, false⟩))
    (h : ∀ pre post m, m.mark < pre.length → m.socket = false →
      Account pre w post m (shifted pre.length l) F) : Tells s w s' F := by
  intro pre post m hmark hsocket
  refine ⟨_, ?_, h pre post m hmark hsocket⟩
  intro rest
  rw [sweep_append (sweep_at hsweep pre.length), List.length_append]
  rfl

theorem Tells.trans (h : Tells s w s' F) (h' : Tells s' w' s'' G) :
    Tells s (w ++ w') s'' (G ∘ F) := by
  intro pre post m hmark hsocket
  rcases h pre (w' ++ post) m hmark hsocket with ⟨l, hsweep, hl⟩
  rcases h' (pre ++ w) post (m.run l) hl.mark hl.socket with ⟨l', hsweep', hl'⟩
  refine ⟨l ++ l', ?_, hl.append hl'⟩
  intro rest
  rw [List.append_assoc w, hsweep, hsweep', List.append_assoc l, ← List.append_assoc pre]

theorem Tells.closes (h : Tells s w s' F) (h' : Closes s' w' G) :
    Closes s (w ++ w') (G ∘ F) := by
  intro pre post m hmark hsocket
  rcases h pre (w' ++ post) m hmark hsocket with ⟨l, hsweep, hl⟩
  rcases h' (pre ++ w) post (m.run l) hl.mark hl.socket with ⟨l', hsweep', hl'⟩
  refine ⟨l ++ l', ?_, hl.append hl'⟩
  intro rest
  rw [List.append_assoc w, hsweep, hsweep', ← List.append_assoc pre]

end Pieces

section Parts

theorem run_requestUri {l : List (Action × ℕ)} (h : ∀ x ∈ l, x.1 = .requestUri) (m : Marks) :
    m.run l = m ∧ m.tokens l = [] := by
  induction l with
  | nil => exact ⟨rfl, rfl⟩
  | cons x l ih =>
    rw [List.forall_mem_cons] at h
    rcases x with ⟨a, p⟩
    rw [Marks.run, Marks.tokens, show a = .requestUri from h.1]
    exact ih h.2

theorem slice_middle (pre w post : List UInt8) :
    slice (pre ++ w ++ post) pre.length (pre.length + w.length) = w := by
  rw [slice, List.append_assoc, List.drop_left, Nat.add_sub_cancel_left, List.take_left]

/-- A part that may be missing. -/
def storePart (part : Part) (w : Option (List UInt8)) (r : HttpRequest) : HttpRequest :=
  w.elim r (r.setPart part)

/-- A part of the target and the byte behind it. -/
theorem tells_part {part : Part} {s s' : State Action} {w : List UInt8} {c : UInt8}
    {uri : List Action} (huri : ∀ a ∈ uri, a = .requestUri)
    (hsweep : sweep breaks s 0 (w ++ [c]) =
      ([(opens part, 0), (closes part, w.length)] ++ uri.map fun a => (a, w.length),
        ⟨some s', (w ++ [c]).length, false⟩)) :
    Tells s (w ++ [c]) s' (·.setPart part w) := by
  apply Tells.of_sweep hsweep
  intro pre post m hmark hsocket
  have hrest (m : Marks) := run_requestUri (l := shifted pre.length (uri.map fun a => (a, w.length)))
    (by simpa [shifted] using huri) m
  have hlist : shifted pre.length ([(opens part, 0), (closes part, w.length)] ++
      uri.map fun a => (a, w.length)) = [(opens part, pre.length),
        (closes part, pre.length + w.length)] ++
      shifted pre.length (uri.map fun a => (a, w.length)) := by
    simp [shifted]
  have hrun : m.run (shifted pre.length ([(opens part, 0), (closes part, w.length)] ++
      uri.map fun a => (a, w.length))) = m.after (opens part) pre.length := by
    rw [hlist, Marks.run_append, (hrest _).1]
    cases part <;> rfl
  have htokens : m.tokens (shifted pre.length ([(opens part, 0), (closes part, w.length)] ++
      uri.map fun a => (a, w.length))) = [.text part pre.length (pre.length + w.length)] := by
    rw [hlist, Marks.tokens_append, (hrest _).2, List.append_nil]
    cases part <;> rfl
  have hlen : (pre ++ (w ++ [c])).length = pre.length + w.length + 1 := by
    simp only [List.length_append, List.length_singleton]
    omega
  refine ⟨?_, ?_, ?_, ?_⟩
  · rw [hrun, hlen]
    cases part <;> simp only [opens, Marks.after] <;> omega
  · rw [hrun]
    cases part <;> exact hsocket
  · rw [htokens, List.forall_mem_singleton, hlen]
    exact ⟨le_rfl, by rintro _ _ ⟨⟩⟩
  · intro r e
    have hbuffer : pre ++ (w ++ [c]) ++ post = pre ++ w ++ ([c] ++ post) := by
      simp only [List.append_assoc]
    rw [htokens, List.foldl_cons, List.foldl_nil, hbuffer, report, slice_middle]

theorem tells_target (h : Head) :
    Tells (requested "GET ") h.target (requested "GET / ") fun r =>
      storePart .fragment h.fragment (storePart .query h.query (r.setPath h.path)) := by
  have hquery (q : List UInt8) (hq : h.query = some q) : RequestText.parts.accepts q = true := by
    have hq' := h.isQuery q hq
    rw [Grammar.query, leaving, accepts_leave] at hq'
    exact hq'
  have hfragment (f : List UInt8) (hf : h.fragment = some f) :
      RequestText.parts.accepts f = true := by
    have hf' := h.isFragment f hf
    rw [Grammar.fragment, leaving, entering, accepts_leave, accepts_enter] at hf'
    exact hf'
  have hpath {c : UInt8} {s' : State Action} {uri : List Action} (hc : c ∈ bytes " ?#")
      (hout : wayOut pathContext c = some (s', .requestPath :: uri))
      (huri : ∀ a ∈ uri, a = .requestUri) :
      Tells (requested "GET ") (h.path ++ [c]) s' (·.setPart .path h.path) :=
    tells_part huri (sweep_path h.slash h.isPath hc hout huri)
  have hafter {c : UInt8} {s' : State Action} {q : List UInt8} (hq : h.query = some q)
      (hc : c ∈ bytes " #")
      (hout : wayOut queryContext c = some (s', [.queryString, .requestUri]))
      (hempty : step queryStart c = some (s', [.startQuery, .queryString, .requestUri])) :
      Tells queryStart (q ++ [c]) s' (·.setPart .query q) :=
    tells_part (by simp) (sweep_query (hquery q hq) hc hout hempty)
  have hlast {f : List UInt8} (hf : h.fragment = some f) :
      Tells fragmentStart (f ++ bytes " ") (requested "GET / ") (·.setPart .fragment f) :=
    tells_part (List.forall_mem_nil _) (sweep_fragment (hfragment f hf))
  rcases (TargetSteps.wayOut targetSteps) with ⟨hend, hpathq, hpathf, hqueryend, hqueryf, -⟩
  rw [Head.target]
  cases hq : h.query with
  | none =>
    cases hf : h.fragment with
    | none =>
      simp only [marked, List.append_nil]
      exact hpath (by decide) hend (by simp)
    | some f =>
      simp only [marked, List.append_nil]
      rw [List.append_cons, List.append_assoc]
      exact (hpath (by decide) hpathf (by simp)).trans (hlast hf)
  | some q =>
    cases hf : h.fragment with
    | none =>
      simp only [marked, List.append_nil]
      rw [List.append_cons, List.append_assoc]
      exact (hpath (by decide) hpathq (by simp)).trans
        (hafter hq (by decide) hqueryend (TargetSteps.empty targetSteps).1)
    | some f =>
      have htext : h.path ++ marked '?' (some q) ++ marked '#' (some f) ++ bytes " " =
          h.path ++ [byte '?'] ++ (q ++ [byte '#'] ++ (f ++ bytes " ")) := by
        simp [marked]
      rw [htext]
      exact (hpath (by decide) hpathq (by simp)).trans
        ((hafter hq (by decide) hqueryf (TargetSteps.empty targetSteps).2.1).trans (hlast hf))

def versionOf (v : List UInt8) : UInt8 := if v = bytes "HTTP/1.1" then 0x11 else 0x10

theorem tells_version {v n : List UInt8} (hv : v ∈ versions) (hn : n ∈ newlines) :
    Tells (requested "GET / ") (v ++ n) (headed "") (·.setVersion (versionOf v)) := by
  apply Tells.of_sweep (LineSteps.version lineSteps v hv n hn)
  intro pre post m hmark hsocket
  have hlen : pre.length + 8 < (pre ++ (v ++ n)).length := by
    have hall : ∀ v ∈ versions, ∀ n ∈ newlines, 8 < (v ++ n).length := by decide
    have := hall v hv n hn
    rw [List.length_append]
    omega
  refine ⟨?_, hsocket, ?_, ?_⟩
  · change pre.length + 0 < _
    omega
  · change ∀ t ∈ [Token.version (pre.length + 0) (pre.length + 8)], _
    rw [List.forall_mem_singleton]
    exact ⟨hlen, nofun⟩
  · intro r e
    change report _ (r, e) (.version (pre.length + 0) (pre.length + 8)) = _
    rw [report, Nat.add_zero, List.append_assoc, List.drop_left, Nat.add_sub_cancel_left]
    simp only [versions, List.mem_cons, List.not_mem_nil, or_false] at hv
    rcases hv with rfl | rfl <;> rfl

end Parts

section Headers

theorem Header.raw (h : Header) : IsRaw (h.ows ++ h.value) := by
  intro b hb
  rcases List.mem_append.mp hb with hb | hb
  · left
    rw [blank, mem_oneOf]
    exact h.isOws b hb
  · apply HeadSteps.bytes headSteps b (Cls.mem_members.mpr (mem_any b))
    have hzero : b ≠ 0 := by
      rintro rfl
      exact not_mem_of_accepts (HeadSteps.value headSteps).1 h.isValue hb
    have hdel : b ≠ 127 := by
      rintro rfl
      exact not_mem_of_accepts (HeadSteps.value headSteps).2 h.isValue hb
    have hline := h.oneLine b hb
    simp only [List.mem_cons, List.not_mem_nil, or_false, not_or]
    exact ⟨hzero, hdel, fun heq => hline (by rw [heq]; decide), fun heq => hline (by rw [heq]; decide)⟩

theorem Header.trimmed_raw (h : Header) : trimmed (h.ows ++ h.value) = h.stored := by
  apply List.dropWhile_append_of_pos
  intro b hb
  rw [blank, mem_oneOf]
  exact h.isOws b hb

theorem run_startValue (m : Marks) (p k : ℕ) :
    m.run ((List.range' p (k + 1)).map fun q => (.startValue, q)) = { m with mark := p + k } ∧
      m.tokens ((List.range' p (k + 1)).map fun q => (.startValue, q)) = [] := by
  induction k generalizing m p with
  | zero => exact ⟨rfl, rfl⟩
  | succ k ih =>
    rw [List.range'_succ, List.map_cons, Marks.run, Marks.tokens, (ih _ _).1, (ih _ _).2,
      Nat.add_assoc p, Nat.add_comm 1]
    exact ⟨rfl, rfl⟩

/-- The actions on a header report its name, and what follows the blanks in front of its value. -/
theorem account_header (name raw : List UInt8) (c : ℕ) (m : Marks) :
    m.run (shifted c ((.startField, 0) :: (.writeField, name.length) ::
        ((List.range' (name.length + 1) ((margin raw).length + 1)).map (fun q => (.startValue, q)) ++
          [(.writeValue, name.length + 1 + raw.length)]))) =
        ⟨c + (name.length + 1) + (margin raw).length, c, c, c + name.length, m.queryStart, m.socket⟩ ∧
      m.tokens (shifted c ((.startField, 0) :: (.writeField, name.length) ::
        ((List.range' (name.length + 1) ((margin raw).length + 1)).map (fun q => (.startValue, q)) ++
          [(.writeValue, name.length + 1 + raw.length)]))) =
        [.field c c (c + name.length) (c + (name.length + 1) + (margin raw).length)
          (c + (name.length + 1 + raw.length))] := by
  have hlist : shifted c ((.startField, 0) :: (.writeField, name.length) ::
      ((List.range' (name.length + 1) ((margin raw).length + 1)).map
          (fun q => (Action.startValue, q)) ++
        [(.writeValue, name.length + 1 + raw.length)])) =
      [(.startField, c), (.writeField, c + name.length)] ++
        ((List.range' (c + (name.length + 1)) ((margin raw).length + 1)).map
            (fun q => (.startValue, q)) ++
          [(.writeValue, c + (name.length + 1 + raw.length))]) := by
    have hrange : List.range' (c + (name.length + 1)) ((margin raw).length + 1) =
        (List.range' (name.length + 1) ((margin raw).length + 1)).map (c + ·) :=
      (List.map_add_range' (name.length + 1) ((margin raw).length + 1) 1).symm
    rw [hrange, shifted, List.map_cons, List.map_cons, List.map_append, List.map_map, List.map_map]
    rfl
  have hrun := run_startValue { m with fieldStart := c, fieldSince := c, fieldUpto := c + name.length }
    (c + (name.length + 1)) (margin raw).length
  constructor
  · rw [hlist, Marks.run_append, Marks.run_append]
    exact congrArg (fun m : Marks => m.run [(.writeValue, c + (name.length + 1 + raw.length))]) hrun.1
  · rw [hlist, Marks.tokens_append, Marks.tokens_append]
    change [] ++ (Marks.tokens { m with
      fieldStart := c, fieldSince := c, fieldUpto := c + name.length } _ ++
      (Marks.run { m with
        fieldStart := c, fieldSince := c, fieldUpto := c + name.length } _).tokens _) = _
    rw [hrun.1, hrun.2]
    rfl

theorem slice_trimmed (h : Header) (pre post : List UInt8) :
    slice (pre ++ h.text ++ post)
        (pre.length + (h.name.length + 1) + (margin (h.ows ++ h.value)).length)
        (pre.length + (h.name.length + 1 + (h.ows ++ h.value).length)) =
      trimmed (h.ows ++ h.value) := by
  have hsplit := margin_append_trimmed (h.ows ++ h.value)
  have hmemory : pre ++ h.text ++ post = (pre ++ h.name ++ byte ':' :: margin (h.ows ++ h.value)) ++
      trimmed (h.ows ++ h.value) ++ (h.newline ++ post) := by
    rw [Header.text, ← hsplit]
    simp only [List.append_assoc, List.cons_append]
    rw [hsplit]
  have hstart : pre.length + (h.name.length + 1) + (margin (h.ows ++ h.value)).length =
      (pre ++ h.name ++ byte ':' :: margin (h.ows ++ h.value)).length := by
    simp only [List.length_append, List.length_cons]
    omega
  have hstop : pre.length + (h.name.length + 1 + (h.ows ++ h.value).length) =
      (pre ++ h.name ++ byte ':' :: margin (h.ows ++ h.value)).length +
        (trimmed (h.ows ++ h.value)).length := by
    have hlength := congrArg List.length hsplit
    rw [List.length_append] at hlength
    rw [← hstart, ← hlength]
    omega
  rw [hmemory, hstart, hstop, slice_middle]

theorem tells_header {h : Header} (hname : h.Distinct) :
    Tells (headed "") h.text (headed "") (·.setHeader h.name h.stored) := by
  have hisName : IsName h.name := ⟨h.isName, hname.1, hname.2⟩
  have hsweep : sweep breaks (headed "") 0 h.text = _ :=
    sweep_line hisName h.raw (Methods.newline_of_accepts h.isNewline)
  apply Tells.of_sweep hsweep
  intro pre post m hmark hsocket
  rcases account_header h.name (h.ows ++ h.value) pre.length m with ⟨hrun, htokens⟩
  have hmargin : (margin (h.ows ++ h.value)).length ≤ (h.ows ++ h.value).length :=
    (List.takeWhile_prefix _).length_le
  have hnewline : 0 < h.newline.length := by
    have hall : ∀ n ∈ newlines, 0 < n.length := by decide
    exact hall _ (Methods.newline_of_accepts h.isNewline)
  have hlen : pre.length + (h.name.length + 1 + (h.ows ++ h.value).length) < (pre ++ h.text).length := by
    simp only [Header.text, List.length_append, List.length_cons]
    omega
  refine ⟨?_, ?_, ?_, ?_⟩
  · rw [hrun]
    change pre.length + (h.name.length + 1) + (margin (h.ows ++ h.value)).length < _
    omega
  · rw [hrun]
    exact hsocket
  · rw [htokens, List.forall_mem_singleton, Token.reach, Nat.add_sub_cancel_left]
    refine ⟨?_, by rintro _ _ ⟨⟩⟩
    omega
  · intro r e
    have hne : h.name.length ≠ 0 := mt List.length_eq_zero_iff.mp (token_of_isName hisName).1
    have hkey : ((pre ++ h.text ++ post).drop pre.length).take h.name.length = h.name := by
      rw [List.append_assoc, List.drop_left, Header.text, List.append_assoc, List.take_left]
    rw [htokens, List.foldl_cons, List.foldl_nil, report, Nat.add_sub_cancel_left, if_neg hne, hkey,
      slice_trimmed, h.trimmed_raw]

theorem Tells.nil {s : State Action} : Tells s [] s id := by
  intro pre post m hmark hsocket
  refine ⟨[], ?_, ?_, hsocket, List.forall_mem_nil _, fun _ _ => rfl⟩
  · intro rest
    rw [List.append_nil]
    rfl
  · rw [List.append_nil]
    exact hmark

/-- The name of a header and what is stored for it. -/
def Header.entry (h : Header) : List UInt8 × List UInt8 := (h.name, h.stored)

theorem tells_headers {hs : List Header} (h : ∀ e ∈ hs, e.Distinct) :
    Tells (headed "") (hs.flatMap Header.text) (headed "") fun r =>
      { r with headers := r.headers.setAll (hs.map Header.entry) } := by
  induction hs with
  | nil => exact Tells.nil
  | cons e hs ih =>
    rw [List.forall_mem_cons] at h
    exact (tells_header h.1).trans (ih h.2)

theorem closes_last {n : List UInt8} (hn : n ∈ newlines) :
    Closes (headed "") n headerDone := by
  intro pre post m hmark hsocket
  have hplaced := sweep_at ((HeadSteps.last headSteps).2 n hn) pre.length
  have hpos : 0 < n.length := by
    have hall : ∀ n ∈ newlines, 0 < n.length := by decide
    exact hall n hn
  have htokens : m.tokens [(.startField, pre.length + 0), (.done, pre.length + (n.length - 1))] =
      [.headerDone (pre.length + (n.length - 1))] := by
    change ([] ++ ((if m.socket then none else some _ : Option Token).toList ++ [])) = _
    rw [hsocket]
    rfl
  refine ⟨[(.startField, pre.length + 0), (.done, pre.length + (n.length - 1))], ?_, ?_, hsocket, ?_, ?_⟩
  · intro rest
    rw [sweep_append_of_stop (.inr (by rw [hplaced])), hplaced, List.length_append]
    rfl
  · exact hmark.trans_le (List.prefix_append _ _).length_le
  · rw [htokens, List.forall_mem_singleton, List.length_append]
    refine ⟨?_, nofun⟩
    change pre.length + (n.length - 1) + 1 ≤ _
    omega
  · intro r e
    rw [htokens]
    rfl

/-- The machine takes the first name that starts with a line end for the end of the head. -/
theorem headers_text (hs : List Header) {last : List UInt8} (hlast : last ∈ newlines) :
    ∃ n ∈ newlines, ∃ tail, hs.flatMap Header.text ++ last =
        (hs.takeWhile fun h => h.Distinct).flatMap Header.text ++ n ++ tail ∧
      ((∀ h ∈ hs, h.Distinct) → tail = []) := by
  induction hs with
  | nil => exact ⟨last, hlast, [], by simp, fun _ => rfl⟩
  | cons h hs ih =>
    by_cases hdistinct : h.Distinct
    · rcases ih with ⟨n, hn, tail, htext, htail⟩
      refine ⟨n, hn, tail, ?_, ?_⟩
      · rw [List.flatMap_cons, List.append_assoc, htext, List.takeWhile_cons,
          if_pos (decide_eq_true hdistinct), List.flatMap_cons]
        simp only [List.append_assoc]
      · intro hall
        exact htail (List.forall_mem_cons.mp hall).2
    · have hstart : ∃ n ∈ newlines, n <+: h.name := by
        rw [Header.Distinct, not_and_or, not_not, not_not] at hdistinct
        rcases hdistinct with hpre | hpre
        · exact ⟨_, by decide, hpre⟩
        · exact ⟨_, by decide, hpre⟩
      rcases hstart with ⟨n, hn, rest, hrest⟩
      refine ⟨n, hn, rest ++ byte ':' :: (h.ows ++ h.value ++ h.newline) ++
        (hs.flatMap Header.text ++ last), ?_, ?_⟩
      · rw [List.takeWhile_cons, if_neg (by simpa using hdistinct), List.flatMap_cons, Header.text,
          ← hrest]
        simp only [List.append_assoc, List.flatMap_nil, List.nil_append]
      · intro hall
        exact absurd (hall h List.mem_cons_self) hdistinct

end Headers

section Whole

variable (h : Head)

/-- The headers that the machine comes to. -/
def Head.found : List Header := h.headers.takeWhile fun e => e.Distinct

theorem methodEnd : [Methods.targetFrame Methods.parts.target] = requested "GET " := by
  have hget : (HttpMethod.get, bytes "GET") ∈ httpMethodMap := by decide
  have hsweep := Methods.sweep_method (w := bytes "GET") (by decide +kernel)
  rw [LineSteps.method lineSteps _ hget (by decide)] at hsweep
  exact (Option.some.inj (congrArg (fun x => x.2.cs) hsweep)).symm

/-- What a head does to a request. -/
def Head.effect (r : HttpRequest) : HttpRequest :=
  let target := storePart .fragment h.fragment (storePart .query h.query (r.setPath h.path))
  let line := target.setVersion (versionOf h.version)
  headerDone { line with headers := line.headers.setAll (h.found.map Header.entry) }

theorem closes_head : ∃ front tail, h.text = h.method ++ bytes " " ++ (front ++ tail) ∧
    ((∀ e ∈ h.headers, e.Distinct) → tail = []) ∧ Closes (requested "GET ") front h.effect := by
  rcases headers_text h.headers (Methods.newline_of_accepts h.isLast) with
    ⟨n, hn, tail, htext, htail⟩
  have hdistinct : ∀ e ∈ h.found, e.Distinct := by
    intro e he
    simpa using List.mem_takeWhile_imp he
  have hversion := tells_version (Methods.version_of_accepts h.isVersion)
    (Methods.newline_of_accepts h.isNewline)
  refine ⟨h.target ++ (h.version ++ h.newline) ++ h.found.flatMap Header.text ++ n, tail, ?_, htail,
    (((tells_target h).trans hversion).trans (tells_headers hdistinct)).closes (closes_last hn)⟩
  rw [Head.text, htext, Head.found]
  simp only [List.append_assoc]

theorem not_open_head (body : List UInt8) : ¬Open (h.text ++ body) := by
  have hnames : ∀ n ∈ httpMethodMap, n.2.length ≤ 11 := by decide
  have hmethod := Methods.length_method h.isMethod
  have hpath : 1 ≤ h.path.length := by
    rw [Nat.one_le_iff_ne_zero, ne_eq, List.length_eq_zero_iff]
    intro hnil
    have hslash := h.slash
    rw [hnil] at hslash
    cases hslash
  have hversion : ∀ v ∈ versions, v.length = 8 := by decide
  have hversion := hversion _ (Methods.version_of_accepts h.isVersion)
  have hnewline : ∀ v ∈ newlines, 1 ≤ v.length := by decide
  have hnewline := hnewline _ (Methods.newline_of_accepts h.isNewline)
  rintro ⟨n, hn, hpre, -⟩
  have hle := hpre.length_le
  have hname := hnames n hn
  have hblank : (bytes " ").length = 1 := rfl
  simp only [Head.text, Head.target, List.length_append] at hle
  omega

/-- One call with a whole head and what follows it. -/
theorem execute_head (body : List UInt8) (hlen : (h.text ++ body).length < 2 ^ 31)
    (junk : List UInt8) :
    ∃ v offset,
      HttpRequestParser.execute (h.text ++ body ++ junk) (h.text ++ body).length (.fresh false) =
        .done (offset, memmove (h.text ++ body ++ junk) (h.text ++ body).length offset) v ∧
      (∀ r e, report (h.text ++ body) (.fresh, 0) (.method 0 h.method.length) = (r, e) →
        v.result = (h.effect r, e)) ∧
      v.parser.cs = some (headed "\r\n") ∧
      ((∀ e ∈ h.headers, e.Distinct) → offset = h.text.length) := by
  rcases closes_head h with ⟨front, tail, htext, htail, hcloses⟩
  have hlong : (Marks.initial.run [(.mark, 0), (.requestMethod, h.method.length)]).mark <
      (h.method ++ bytes " ").length := by
    rw [List.length_append]
    exact Nat.succ_pos _
  rcases hcloses (h.method ++ bytes " ") (tail ++ body) _ hlong rfl with ⟨l, hsweep, hl⟩
  have hmemory : h.text ++ body = h.method ++ bytes " " ++ front ++ (tail ++ body) := by
    rw [htext]
    simp only [List.append_assoc]
  have htrace : trace false (h.text ++ body) =
      ([(.mark, 0), (.requestMethod, h.method.length)] ++ l,
        ⟨some (headed "\r\n"), (h.method ++ bytes " " ++ front).length, true⟩) := by
    have hmethod := Methods.sweep_method h.isMethod
    rw [methodEnd] at hmethod
    rw [trace, hmemory, List.append_assoc (h.method ++ bytes " "), sweep_append hmethod,
      Nat.zero_add, hsweep]
  have htokens : tokens false (h.text ++ body) = .method 0 h.method.length ::
      (Marks.initial.run [(.mark, 0), (.requestMethod, h.method.length)]).tokens l := by
    rw [tokens, htrace, Marks.tokens_append]
    rfl
  have hfront : (h.method ++ bytes " " ++ front).length ≤ (h.text ++ body).length := by
    rw [hmemory]
    exact (List.prefix_append _ _).length_le
  have hne : h.text ++ body ≠ [] := by
    rw [htext]
    simp [bytes]
  have hright : Clear (tokens false (h.text ++ body)) (h.text ++ body).length := by
    intro t ht hbad
    rw [htokens] at ht
    rcases List.mem_cons.mp ht with rfl | ht
    · have hreach : (Token.method 0 h.method.length).reach ≤ (h.method ++ bytes " ").length := by
        rw [List.length_append]
        exact le_rfl
      have hle : (h.method ++ bytes " ").length ≤ (h.method ++ bytes " " ++ front).length :=
        (List.prefix_append _ _).length_le
      omega
    · have hreach := (hl.tokens t ht).1
      omega
  have hopen (i p : ℕ) (ht : .method i p ∈ tokens false (h.text ++ body)) :
      ¬Open ((h.text ++ body).drop i) := by
    rw [htokens] at ht
    rcases List.mem_cons.mp ht with ht | ht
    · rw [(Token.method.inj ht).1]
      exact not_open_head h body
    · exact absurd rfl ((hl.tokens _ ht).2 i p)
  rcases execute_whole hne hlen hright hopen junk with ⟨v, hrun, hv⟩
  refine ⟨v, _, hrun, ?_, ?_, ?_⟩
  · intro r e hmethod
    rw [hv.result, htokens, List.foldl_cons, hmethod, hmemory]
    exact hl.effect r e
  · rw [hv.cs, htrace]
  · intro hall
    rw [htrace, htext, htail hall, List.append_nil]

theorem headerDone_eq (r : HttpRequest) : ∃ b, headerDone r = r.setClose b := by
  rw [headerDone]
  split_ifs <;> exact ⟨_, rfl⟩

/-- The parts of a request that was new before the head. -/
theorem execute_read (hlen : h.text.length < 2 ^ 31) (junk : List UInt8) :
    ∃ v offset memory,
      HttpRequestParser.execute (h.text ++ junk) h.text.length (.fresh false) =
        .done (offset, memory) v ∧
      v.data.path = h.path ∧ v.data.query = h.query.getD [] ∧
      v.data.fragment = h.fragment.getD [] ∧
      v.data.headers = OrderedMap.empty.setAll (h.found.map Header.entry) ∧
      v.isFinished = true ∧ ((∀ e ∈ h.headers, e.Distinct) → offset = h.text.length) := by
  rcases execute_head h [] (by rwa [List.append_nil]) junk with ⟨v, offset, hrun, heffect, hcs, hoff⟩
  rw [List.append_nil] at hrun heffect
  have hnew : ∃ m e, report h.text (.fresh, 0) (.method 0 h.method.length) =
      (HttpRequest.fresh.setMethod m, e) := by
    rw [report]
    split
    · exact ⟨_, _, rfl⟩
    · exact ⟨.get, _, rfl⟩
  rcases hnew with ⟨m, e, hnew⟩
  have hdata : v.data = h.effect (HttpRequest.fresh.setMethod m) :=
    congrArg Prod.fst (heffect _ _ hnew)
  have hparts : ∃ b, v.data = HttpRequest.setClose { HttpRequest.fresh with
      method := m, version := versionOf h.version, path := h.path, query := h.query.getD [],
      fragment := h.fragment.getD [],
      headers := OrderedMap.empty.setAll (h.found.map Header.entry) } b := by
    rw [hdata, Head.effect]
    rcases headerDone_eq _ with ⟨b, hclose⟩
    refine ⟨b, hclose.trans ?_⟩
    cases h.fragment <;> cases h.query <;> rfl
  rcases hparts with ⟨b, hparts⟩
  refine ⟨v, offset, _, hrun, ?_, ?_, ?_, ?_, ?_, hoff⟩
  · rw [hparts]
    rfl
  · rw [hparts]
    rfl
  · rw [hparts]
    rfl
  · rw [hparts]
    rfl
  · rw [HttpRequestParser.isFinished, hcs]
    exact (HeadSteps.last headSteps).1

end Whole

section Lookup

theorem caseFolded_cons {b : UInt8} (h : b ≠ 0) (w : List UInt8) :
    caseFolded (b :: w) = toLower b :: caseFolded w := by
  rw [caseFolded, List.takeWhile_cons, if_pos (by simpa using h), List.map_cons]
  rfl

/-- A byte of a line end is not the other case of a byte. -/
theorem cons_of_caseFolded {b : UInt8} (hb : b = 10 ∨ b = 13) {w y : List UInt8}
    (h : caseFolded (b :: w) = caseFolded y) : ∃ y', y = b :: y' ∧ caseFolded w = caseFolded y' := by
  have hne : b ≠ 0 := by rcases hb with rfl | rfl <;> decide
  have hcase (c : UInt8) (hc : toLower b = toLower c) : c = b := by
    rw [← UInt8.toNat_inj]
    rcases hb with rfl | rfl
    · simp only [toLower, UInt8.reduceToNat] at hc ⊢
      split_ifs at hc <;> omega
    · simp only [toLower, UInt8.reduceToNat] at hc ⊢
      split_ifs at hc <;> omega
  rw [caseFolded_cons hne] at h
  cases y with
  | nil => cases h
  | cons c y =>
    by_cases hc : c = 0
    · rw [hc, caseFolded] at h
      cases h
    · rw [caseFolded_cons hc, List.cons.injEq] at h
      exact ⟨y, by rw [hcase c h.1], h.2⟩

/-- Whether a name starts with a line end is seen without the case of letters. -/
theorem distinct_of_caseFolded {e e' : Header} (h : caseFolded e.name = caseFolded e'.name)
    (he : e'.Distinct) : e.Distinct := by
  constructor
  · rintro ⟨w, hw⟩
    rw [← hw] at h
    rcases cons_of_caseFolded (.inl rfl) h with ⟨y, hy, -⟩
    exact he.1 ⟨y, hy.symm⟩
  · rintro ⟨w, hw⟩
    rw [← hw] at h
    rcases cons_of_caseFolded (.inr rfl) h with ⟨y, hy, hrest⟩
    rcases cons_of_caseFolded (.inl rfl) hrest with ⟨y', rfl, -⟩
    exact he.2 ⟨y', hy.symm⟩

theorem find_entries (hs : List Header) (key : List UInt8) :
    (OrderedMap.empty.setAll (hs.map Header.entry) : MapType).find key = lastValue hs key := by
  rw [OrderedMap.find_setAll, OrderedMap.lastOf, ← List.map_reverse, List.find?_map, lastValue]
  change Option.or _ none = _
  rw [Option.or_none, Option.map_map]
  exact congrArg (Option.map Header.stored)
    (List.find?_congr fun e _ => decide_eq_decide.mpr Iff.rfl)

/-- A header with the key is there if something is found under it. -/
theorem exists_of_lastValue {hs : List Header} {key : List UInt8}
    (h : (lastValue hs key).isSome = true) : ∃ e ∈ hs, caseFolded e.name = caseFolded key := by
  rw [lastValue, Option.isSome_map, List.find?_isSome] at h
  simpa using h

end Lookup

section Result

variable (h : Head)

/-- The head is read as it stands there. -/
def Head.Read (junk : List UInt8) : Prop :=
  ∃ v offset memory,
    HttpRequestParser.execute (h.text ++ junk) h.text.length (.fresh false) =
      .done (offset, memory) v ∧
    v.data.path = h.path ∧ v.data.query = h.query.getD [] ∧ v.data.fragment = h.fragment.getD [] ∧
    (∀ key, v.data.headers.find key = lastValue h.headers key) ∧
    v.isFinished = true ∧ offset = h.text.length

/-- The parser takes a text of this length, and no name ends the head. -/
structure Head.Plain : Prop where
  length : h.text.length < 2 ^ 31
  names : ∀ e ∈ h.headers, e.Distinct

theorem found_of_distinct (hall : ∀ e ∈ h.headers, e.Distinct) : h.found = h.headers := by
  rw [Head.found, List.takeWhile_eq_self_iff]
  intro e he
  exact decide_eq_true (hall e he)

theorem read_of_plain (hplain : h.Plain) (junk : List UInt8) : h.Read junk := by
  rcases execute_read h hplain.length junk with
    ⟨v, offset, memory, hrun, hpath, hquery, hfragment, hheaders, hfinished, hoffset⟩
  refine ⟨v, offset, memory, hrun, hpath, hquery, hfragment, ?_, hfinished, hoffset hplain.names⟩
  intro key
  rw [hheaders, found_of_distinct h hplain.names, find_entries]

theorem plain_of_read {junk : List UInt8} (hread : h.Read junk) : h.Plain := by
  rcases hread with ⟨v, offset, memory, hrun, -, -, -, hfind, -, -⟩
  have hlen := Methods.length_of_execute hrun
  rcases execute_read h hlen junk with ⟨v', _, _, hrun', -, -, -, hheaders, -, -⟩
  rw [hrun] at hrun'
  cases hrun'
  refine ⟨hlen, ?_⟩
  intro e he
  have hsome : (lastValue h.headers e.name).isSome = true := by
    rw [lastValue, Option.isSome_map, List.find?_isSome]
    exact ⟨e, List.mem_reverse.mpr he, decide_eq_true rfl⟩
  rw [← hfind, hheaders, find_entries] at hsome
  -- a name that was stored for the key of `e` starts with no line end, so neither does that of `e`
  rcases exists_of_lastValue hsome with ⟨e', he', hkey⟩
  have hdistinct : e'.Distinct := by simpa using List.mem_takeWhile_imp he'
  exact distinct_of_caseFolded hkey.symm hdistinct

/-- A head is read as it stands there exactly if no header name starts with a line end and the text
is shorter than 2^31 bytes. -/
theorem read_iff (junk : List UInt8) : h.Read junk ↔ h.Plain :=
  ⟨plain_of_read h, fun hplain => read_of_plain h hplain junk⟩

/-- A name of token bytes, which LF is one of. -/
def broken : Header where
  name := bytes "\nA"
  ows := bytes " "
  value := bytes "b"
  newline := bytes "\r\n"
  isName := by decide +kernel
  isOws := space_isOws
  isValue := by decide +kernel
  oneLine := by decide
  isNewline := Methods.crlf_accepts

def brokenHead : Head where
  method := bytes "GET"
  path := bytes "/a"
  query := none
  fragment := none
  version := bytes "HTTP/1.1"
  newline := bytes "\r\n"
  headers := [broken]
  last := bytes "\r\n"
  isMethod := by decide +kernel
  slash := rfl
  isPath := by decide +kernel
  isQuery := by rintro _ ⟨⟩
  isFragment := by rintro _ ⟨⟩
  isVersion := Methods.version_accepts
  isNewline := Methods.crlf_accepts
  isLast := Methods.crlf_accepts

/-- The end of the head that was found, and what is stored under a key. -/
def outcome (h : Head) (key : List UInt8) : Option (ℕ × Option (List UInt8)) :=
  match HttpRequestParser.execute h.text h.text.length (.fresh false) with
  | .done (offset, _) v => some (offset, v.data.headers.find key)
  | _ => none

/-- The head ends behind the LF, and the header is lost. -/
theorem broken_name_lost :
    brokenHead.text = bytes "GET /a HTTP/1.1\r\n\nA: b\r\n\r\n" ∧
    outcome brokenHead (bytes "\nA") = some (18, none) ∧
    lastValue brokenHead.headers (bytes "\nA") = some (bytes "b") ∧ ¬brokenHead.Read [] := by
  have hlost : outcome brokenHead (bytes "\nA") = some (18, none) := by decide +kernel
  have hlast : lastValue brokenHead.headers (bytes "\nA") = some (bytes "b") := by decide +kernel
  refine ⟨by decide +kernel, hlost, hlast, ?_⟩
  rintro ⟨v, offset, memory, hexec, -, -, -, hread, -⟩
  rw [List.append_nil] at hexec
  rw [outcome, hexec, Option.some.injEq, Prod.mk.injEq, hread, hlast] at hlost
  cases hlost.2

end Result

end Sylar.Http.RequestHead
