import Mathlib.Data.List.Find
import Mathlib.Data.List.TakeWhile
import Sylar.Http.RequestText

/-! # The method of a request line

The request line as the grammar has it, with any target. The machine delimits the method exactly, but
`on_request_method` does not use the length: it looks up the first name that the text starts with.
-/
namespace Sylar.Http.Methods
open Memory Ragel Ragel.Expr Grammar RequestText

/-- `StringToHttpMethod(m)`, whose `strcmp` ends at the first NUL. -/
def stringToHttpMethod (m : List UInt8) : Option HttpMethod :=
  (httpMethodMap.find? fun e => e.2 = m.takeWhile (· ≠ 0)).map Prod.fst

/-- A request line in its parts. -/
structure Line where
  method : List UInt8
  target : List UInt8
  version : List UInt8
  newline : List UInt8
  isMethod : Method.accepts method = true
  isTarget : (URIReference false).accepts target = true
  isVersion : HTTPVersion.accepts version = true
  isNewline : (CRLF : Rule).accepts newline = true

def Line.text (l : Line) : List UInt8 :=
  l.method ++ bytes " " ++ (l.target ++ bytes " " ++ (l.version ++ l.newline))

section Machine

/-- The class of the bytes of a method, and what follows its first byte. -/
def methodCls : Cls := .union upper digit
def methodRest : Rule := upTo (cls methodCls) 19

/-- The number of `request_method`, what follows the method and the target, with their actions. -/
structure Parts where
  requestMethod : ℕ
  afterMethod : Rule
  target : Rule

def parts : Parts :=
  match start (Grammar.main false) with
  | [finish _ _ (alt (seq (seq (leave n _ _) (seq blank (seq t rest))) _) _)] =>
    ⟨n, seq blank (seq t rest), t⟩
  | _ => ⟨0, eps, eps⟩

def methodContext (r : Rule) : Rule :=
  finish line.done .done (seq (seq (leave parts.requestMethod .requestMethod r) parts.afterMethod)
    line.headers)

def targetFrame (r : Rule) : Rule :=
  finish line.done .done (cat (cat r line.afterTarget) line.headers)

theorem frame_methodContext : Frame methodContext :=
  (((frame_id.leave _ _).seq nofun _).seq nofun _).finish (null_seq_of_right null_headers) _ _

theorem frame_target : Frame targetFrame := by
  apply ((frame_id.cat line.afterTarget).cat line.headers).finish
  rw [null_cat, null_headers]
  cases (cat eps line.afterTarget).null <;> rfl

/-- The steps along a request line. -/
structure Steps : Prop where
  method : Method.avoids (byte ' ') = true ∧ Method.avoids 0 = true
  first : leads (start (Grammar.main false)) methodCls [methodContext methodRest] [.mark] = true
  plain : methodRest.plain = true ∧ ∀ c ∈ bytes " ", methodRest.avoids c = true
  inside : ∀ b ∈ any.members, b ∉ bytes " " →
    (methodContext eps).deriv b = [] ∧ (targetFrame eps).deriv b = []
  blank : wayOut methodContext (byte ' ') = some ([targetFrame parts.target], [.requestMethod])
  calm : parts.target.calm = true ∧ parts.target.avoids (byte ' ') = true
  grammar : parts.target.bare = URIReference false
  actions : ∀ x ∈ parts.target.embedded, x.2 ∈
    [.mark, .requestPath, .requestUri, .startQuery, .queryString, .fragment]
  wayOut : wayOut targetFrame (byte ' ') = some (requested "GET / ", [])

theorem steps : Steps where
  method := by decide +kernel
  first := by decide +kernel
  plain := by decide +kernel
  inside := by
    simp only [← List.isEmpty_iff]
    decide +kernel
  blank := by decide +kernel
  calm := by decide +kernel
  grammar := by decide +kernel
  actions := by decide +kernel
  wayOut := by decide +kernel

theorem deriv_inside {b : UInt8} (h : b ≠ byte ' ') :
    (methodContext eps).deriv b = [] ∧ (targetFrame eps).deriv b = [] :=
  (Steps.inside steps) b (Cls.mem_members.mpr (mem_any b)) (by simpa [bytes] using h)

/-- The method, up to the blank behind it. -/
theorem sweep_method {w : List UInt8} (h : Method.accepts w = true) :
    sweep breaks (start (Grammar.main false)) 0 (w ++ bytes " ") =
      ([(.mark, 0), (.requestMethod, w.length)],
        ⟨some [targetFrame parts.target], (w ++ bytes " ").length, false⟩) := by
  rw [Method, leaving, entering, accepts_leave, accepts_enter] at h
  cases w with
  | nil => cases h
  | cons b w =>
    change (seq (cls methodCls) methodRest : Rule).accepts (b :: w) = true at h
    have hfirst : methodCls.mem b = true ∧ methodRest.accepts w = true := by
      by_cases hb : methodCls.mem b = true
      · simpa [accepts, Expr.deriv, hb, cat, null] using h
      · simp [accepts, Expr.deriv, hb, null] at h
    have hin (c : UInt8) (hc : c ∉ bytes " ") : (methodContext eps).deriv c = [] :=
      (deriv_inside (by simpa [bytes] using hc)).1
    exact (within_singleton methodContext methodRest).sweep_through frame_methodContext
      (Steps.plain steps).1 (step_of_leads (Steps.first steps) hfirst.1) hin (Steps.plain steps).2
      hfirst.2 (List.mem_singleton_self _) (Steps.blank steps) rfl rfl

/-- The target, up to the blank behind it: whatever it is, it reports texts only. -/
theorem sweep_target {w : List UInt8} (h : (URIReference false).accepts w = true) (p : ℕ) :
    ∃ l : List (Action × ℕ),
      (∀ ap ∈ l, ap.1 ∈
        [.mark, .requestPath, .requestUri, .startQuery, .queryString, .fragment]) ∧
      ∀ rest, sweep breaks [targetFrame parts.target] p (w ++ bytes " " ++ rest) =
        (l ++ (sweep breaks (requested "GET / ") (p + w.length + 1) rest).1,
          (sweep breaks (requested "GET / ") (p + w.length + 1) rest).2) := by
  rw [← (Steps.grammar steps), accepts_bare] at h
  have hbreaks (x : ℕ × Action) (hx : x ∈ parts.target.embedded) : breaks x.2 = false := by
    have hall : ∀ a ∈ [Action.mark, .requestPath, .requestUri, .startQuery, .queryString,
      .fragment], breaks a = false := by decide
    exact hall x.2 (Steps.actions steps x hx)
  have hblank : byte ' ' ∉ w := not_mem_of_accepts (Steps.calm steps).2 h
  have hstay (b : UInt8) (hb : b ∈ w) : (targetFrame eps).deriv b = [] := by
    apply (deriv_inside _).2
    rintro rfl
    exact hblank hb
  rcases (within_singleton targetFrame parts.target).sweep frame_target (Steps.calm steps).1 hbreaks
    hstay
    h p with ⟨s, l, hs, hl, hsweep⟩
  rcases hs.leave frame_target h (Steps.calm steps).2 (Steps.wayOut steps) with ⟨as, hstep, has⟩
  have hthere (a : Action) (ha : a ∈ as) : a ∈
      [Action.mark, .requestPath, .requestUri, .startQuery, .queryString, .fragment] := by
    rcases has a ha with ⟨n, hn⟩ | hnil
    · exact Steps.actions steps _ (exitActs_subset hn)
    · cases hnil
  have hcalm : as.any breaks = false := by
    rw [List.any_eq_false]
    intro a ha
    have hall : ∀ a ∈ [Action.mark, .requestPath, .requestUri, .startQuery, .queryString,
      .fragment], ¬breaks a = true := by decide
    exact hall a (hthere a ha)
  refine ⟨l ++ as.map fun a => (a, p + w.length), ?_, ?_⟩
  · intro ap hap
    rcases List.mem_append.mp hap with hap | hap
    · rcases hl ap hap with ⟨n, hn⟩
      exact Steps.actions steps _ hn
    · rcases List.mem_map.mp hap with ⟨a, ha, rfl⟩
      exact hthere a ha
  · intro rest
    rw [List.append_assoc, hsweep, show bytes " " ++ rest = byte ' ' :: rest from rfl,
      sweep_calm hstep hcalm, List.append_assoc]

theorem version_of_accepts {w : List UInt8} (h : HTTPVersion.accepts w = true) : w ∈ versions := by
  have hdigit (c : Char) (u : List UInt8) : (one c : Rule).accepts u = true ↔ u = [byte c] := by
    rw [one, accepts_cls]
    simp [mem_chr]
  rw [HTTPVersion, leaving, entering, accepts_leave, accepts_enter, accepts_seq] at h
  rcases h with ⟨u, v, rfl, hu, hv⟩
  rw [str, accepts_word] at hu
  rw [httpNumber, accepts_seq] at hv
  rcases hv with ⟨v, n, rfl, hv, hn⟩
  rw [str, accepts_word] at hv
  rw [accepts_alt, Bool.or_eq_true, hdigit, hdigit] at hn
  rcases hn with hn | hn
  · rw [hu, hv, hn]
    decide
  · rw [hu, hv, hn]
    decide

theorem newline_of_accepts {w : List UInt8} (h : (CRLF : Rule).accepts w = true) :
    w ∈ newlines := by
  rw [CRLF, accepts_alt, Bool.or_eq_true, str, accepts_word, one, accepts_cls] at h
  rcases h with h | ⟨b, hb, h⟩
  · rw [h]
    decide
  · rw [mem_chr, decide_eq_true_eq] at hb
    rw [h, hb]
    decide

end Machine

section Tokens

variable (l : Line)

def Line.versionStart : ℕ := (l.method ++ bytes " ").length + l.target.length + 1

theorem trace_line : ∃ acts : List (Action × ℕ),
    (∀ ap ∈ acts, ap.1 ∈
      [.mark, .requestPath, .requestUri, .startQuery, .queryString, .fragment]) ∧
    (trace false l.text).1 = [(.mark, 0), (.requestMethod, l.method.length)] ++ (acts ++
      [(.mark, l.versionStart), (.httpVersion, l.versionStart + 8)]) := by
  rcases sweep_target l.isTarget (l.method ++ bytes " ").length with ⟨acts, hacts, hsweep⟩
  refine ⟨acts, hacts, ?_⟩
  have hversion := sweep_at (LineSteps.version lineSteps l.version
    (version_of_accepts l.isVersion) l.newline
    (newline_of_accepts l.isNewline)) l.versionStart
  rw [trace, Line.text, sweep_append (sweep_method l.isMethod), Nat.zero_add, hsweep]
  change _ ++ (acts ++ (sweep breaks _ l.versionStart (l.version ++ l.newline)).1) = _
  rw [hversion]
  rfl

/-- Tokens that copy a part of the target. -/
theorem text_of_target {acts : List (Action × ℕ)} (h : ∀ ap ∈ acts, ap.1 ∈
    [Action.mark, .requestPath, .requestUri, .startQuery, .queryString, .fragment]) (m : Marks) :
    ∀ t ∈ m.tokens acts, ∃ part i p, t = .text part i p := by
  induction acts generalizing m with
  | nil => nofun
  | cons ap acts ih =>
    rw [List.forall_mem_cons] at h
    rcases ap with ⟨a, p⟩
    intro t ht
    rcases List.mem_append.mp ht with ht | ht
    · rw [Option.mem_toList] at ht
      have ha := h.1
      simp only [List.mem_cons, List.not_mem_nil, or_false] at ha
      rcases ha with rfl | rfl | rfl | rfl | rfl | rfl
      · cases ht
      · exact ⟨_, _, _, (Option.some.inj ht).symm⟩
      · cases ht
      · cases ht
      · rcases Option.map_eq_some_iff.mp ht with ⟨q, -, rfl⟩
        exact ⟨_, _, _, rfl⟩
      · exact ⟨_, _, _, (Option.some.inj ht).symm⟩
    · exact ih h.2 _ t ht

/-- A request line reports its method, parts of its target and its version. -/
theorem tokens_line : ∃ ts : List Token, (∀ t ∈ ts, ∃ part i p, t = .text part i p) ∧
    tokens false l.text = .method 0 l.method.length ::
      (ts ++ [.version l.versionStart (l.versionStart + 8)]) := by
  rcases trace_line l with ⟨acts, hacts, htrace⟩
  refine ⟨_, text_of_target hacts (Marks.initial.run [(.mark, 0), (.requestMethod, l.method.length)]),
    ?_⟩
  rw [tokens, htrace, Marks.tokens_append, Marks.tokens_append]
  rfl

end Tokens

section Names

variable (l : Line)

theorem blank_not_mem_method : byte ' ' ∉ l.method :=
  not_mem_of_accepts (Steps.method steps).1 l.isMethod

theorem nul_not_mem_method : (0 : UInt8) ∉ l.method :=
  not_mem_of_accepts (Steps.method steps).2 l.isMethod

theorem blank_not_mem_target : byte ' ' ∉ l.target := by
  apply not_mem_of_accepts (Steps.calm steps).2
  rw [← accepts_bare, (Steps.grammar steps)]
  exact l.isTarget

theorem length_method {w : List UInt8} (h : Method.accepts w = true) : 1 ≤ w.length := by
  rw [Nat.one_le_iff_ne_zero, ne_eq, List.length_eq_zero_iff]
  rintro rfl
  revert h
  decide

/-- The text is longer than every name. -/
theorem not_open_line : ¬Open l.text := by
  have hnames : ∀ n ∈ httpMethodMap, n.2.length ≤ 11 := by decide
  have hmethod := length_method l.isMethod
  have hversion : l.version.length = 8 := by
    have hall : ∀ v ∈ versions, v.length = 8 := by decide
    exact hall _ (version_of_accepts l.isVersion)
  have hnewline : 1 ≤ l.newline.length := by
    have hall : ∀ v ∈ newlines, 1 ≤ v.length := by decide
    exact hall _ (newline_of_accepts l.isNewline)
  rintro ⟨n, hn, hpre, -⟩
  have hle := hpre.length_le
  have hname := hnames n hn
  have hblank : (bytes " ").length = 1 := rfl
  simp only [Line.text, List.length_append] at hle
  omega

/-- Two texts are alike up to their first blank if one is a prefix of the other. -/
theorem prefix_at_blank {a a' x x' : List UInt8} (ha : byte ' ' ∉ a) (ha' : byte ' ' ∉ a')
    (h : a ++ byte ' ' :: x <+: a' ++ byte ' ' :: x') : a = a' ∧ x <+: x' := by
  induction a generalizing a' with
  | nil =>
    cases a' with
    | nil => exact ⟨rfl, (List.cons_prefix_cons.mp h).2⟩
    | cons c a' =>
      rw [(List.cons_prefix_cons.mp h).1] at ha'
      exact absurd List.mem_cons_self ha'
  | cons b a ih =>
    cases a' with
    | nil =>
      rw [(List.cons_prefix_cons.mp h).1] at ha
      exact absurd List.mem_cons_self ha
    | cons c a' =>
      rw [List.mem_cons, not_or] at ha ha'
      rcases List.cons_prefix_cons.mp h with ⟨rfl, hrest⟩
      rcases ih ha.2 ha'.2 hrest with ⟨rfl, hx⟩
      exact ⟨rfl, hx⟩

/-- The one name with blanks is not at the start of a request line: behind the second blank of the
line is the version. -/
theorem prefix_method {name : HttpMethod × List UInt8} (h : name ∈ httpMethodMap)
    (hpre : name.2 <+: l.text) : name.2 <+: l.method := by
  have hblanks : ∀ n ∈ httpMethodMap, byte ' ' ∈ n.2 →
      n.2 = bytes "M" ++ byte ' ' :: (bytes "-" ++ byte ' ' :: bytes "SEARCH") := by decide
  have htext : l.text = l.method ++ byte ' ' :: (l.target ++ byte ' ' :: (l.version ++ l.newline)) := by
    rw [Line.text, show bytes " " = [byte ' '] from rfl]
    simp only [List.append_assoc, List.singleton_append]
  by_contra hnot
  have hmem : byte ' ' ∈ name.2 := by
    have hlong : l.method.length + 1 ≤ name.2.length := by
      by_contra hshort
      exact hnot (List.prefix_of_prefix_length_le hpre
        (htext ▸ List.prefix_append _ _) (by omega))
    have hsub : l.method ++ [byte ' '] <+: name.2 := by
      apply List.prefix_of_prefix_length_le _ hpre (by simpa using hlong)
      refine ⟨l.target ++ byte ' ' :: (l.version ++ l.newline), ?_⟩
      rw [htext, ← List.append_cons]
    exact hsub.subset (List.mem_append_right _ (List.mem_singleton_self _))
  rw [hblanks name h hmem, htext] at hpre
  have hmethod := prefix_at_blank (by decide) (blank_not_mem_method l) hpre
  have htarget := prefix_at_blank (by decide) (blank_not_mem_target l) hmethod.2
  have hversion : ∀ v ∈ versions, ∀ n ∈ newlines, ¬bytes "SEARCH" <+: v ++ n := by decide
  exact hversion _ (version_of_accepts l.isVersion) _ (newline_of_accepts l.isNewline) htarget.2

end Names

section Lookup

variable {w : List UInt8} {m : HttpMethod}

/-- The method whose name comes first among those that start the text. -/
def lookup (w : List UInt8) : Option HttpMethod :=
  (httpMethodMap.find? fun e => e.2.isPrefixOf w).map Prod.fst

theorem charsToHttpMethod_line (l : Line) (junk : List UInt8) :
    charsToHttpMethod (l.text ++ junk) = some (lookup l.method) := by
  have hsame : ∀ e ∈ httpMethodMap, e.2.isPrefixOf l.text = e.2.isPrefixOf l.method := by
    intro e he
    rw [Bool.eq_iff_iff, List.isPrefixOf_iff_prefix, List.isPrefixOf_iff_prefix]
    constructor
    · exact prefix_method l he
    · intro h
      apply h.trans
      rw [Line.text, List.append_assoc]
      exact List.prefix_append _ _
  rw [charsToHttpMethod_append (not_open_line l), lookup, List.find?_congr hsame]

theorem name_iff : w = httpMethodToString m ↔ (m, w) ∈ httpMethodMap := by
  have hunique : ∀ e ∈ httpMethodMap, e.2 = httpMethodToString e.1 := by decide
  constructor
  · rintro rfl
    exact mem_httpMethodMap m
  · intro h
    exact hunique _ h

/-- No name starts with another one. -/
theorem name_of_isPrefix : ∀ e ∈ httpMethodMap, ∀ e' ∈ httpMethodMap, e.2 <+: e'.2 → e = e' := by
  decide +kernel

theorem stringToHttpMethod_eq (hnul : (0 : UInt8) ∉ w) :
    stringToHttpMethod w = (httpMethodMap.find? fun e => e.2 = w).map Prod.fst := by
  have hwhole : w.takeWhile (· ≠ 0) = w := by
    rw [List.takeWhile_eq_self_iff]
    intro b hb
    rw [decide_eq_true_eq]
    rintro rfl
    exact hnul hb
  rw [stringToHttpMethod, hwhole]

theorem stringToHttpMethod_eq_some (hnul : (0 : UInt8) ∉ w) :
    stringToHttpMethod w = some m ↔ w = httpMethodToString m := by
  rw [stringToHttpMethod_eq hnul, name_iff, Option.map_eq_some_iff]
  constructor
  · rintro ⟨⟨m', w'⟩, hfind, rfl⟩
    have hw := List.find?_some hfind
    rw [decide_eq_true_eq] at hw
    rw [← hw]
    exact List.mem_of_find?_eq_some hfind
  · intro hmem
    have hfind : ∃ e, httpMethodMap.find? (fun e => decide (e.2 = w)) = some e := by
      rw [← Option.isSome_iff_exists, List.find?_isSome]
      exact ⟨_, hmem, decide_eq_true rfl⟩
    rcases hfind with ⟨e, he⟩
    have hw := List.find?_some he
    rw [decide_eq_true_eq] at hw
    have heq := name_of_isPrefix e (List.mem_of_find?_eq_some he) _ hmem (by rw [hw])
    exact ⟨e, he, by rw [heq]⟩

/-- The names that start the token are the token. -/
def Sharp (w : List UInt8) : Prop := ∀ e ∈ httpMethodMap, e.2 <+: w → e.2 = w

instance (w : List UInt8) : Decidable (Sharp w) :=
  inferInstanceAs (Decidable (∀ e ∈ httpMethodMap, _))

theorem lookup_of_sharp (hnul : (0 : UInt8) ∉ w) (h : Sharp w) : lookup w = stringToHttpMethod w := by
  have hsame : ∀ e ∈ httpMethodMap, e.2.isPrefixOf w = decide (e.2 = w) := by
    intro e he
    rw [Bool.eq_iff_iff, List.isPrefixOf_iff_prefix, decide_eq_true_eq]
    constructor
    · exact h e he
    · intro heq
      rw [heq]
  rw [lookup, stringToHttpMethod_eq hnul, List.find?_congr hsame]

theorem sharp_of_lookup (h : ∀ m, lookup w = some m → w = httpMethodToString m) : Sharp w := by
  intro e he hpre
  have hfind : ∃ m, lookup w = some m := by
    rw [← Option.isSome_iff_exists, lookup, Option.isSome_map, List.find?_isSome]
    exact ⟨e, he, List.isPrefixOf_iff_prefix.mpr hpre⟩
  rcases hfind with ⟨m, hm⟩
  have hw := name_iff.mp (h m hm)
  exact congrArg Prod.snd (name_of_isPrefix e he _ hw hpre)

end Lookup

section Parsing

variable (l : Line)

theorem foldl_text {bs : List UInt8} {ts : List Token}
    (h : ∀ t ∈ ts, ∃ part i p, t = .text part i p) (y : HttpRequest × ℕ) :
    (ts.foldl (report bs) y).1.method = y.1.method ∧ (ts.foldl (report bs) y).2 = y.2 := by
  induction ts generalizing y with
  | nil => exact ⟨rfl, rfl⟩
  | cons t ts ih =>
    rw [List.forall_mem_cons] at h
    rcases h.1 with ⟨part, i, p, rfl⟩
    have hrest := ih h.2 (report bs y (.text part i p))
    rw [List.foldl_cons, hrest.1, hrest.2]
    cases part <;> exact ⟨rfl, rfl⟩

/-- The version of a request line is one of the two that are known. -/
theorem report_version (y : HttpRequest × ℕ) :
    (report l.text y (.version l.versionStart (l.versionStart + 8))).1.method = y.1.method ∧
      (report l.text y (.version l.versionStart (l.versionStart + 8))).2 = y.2 := by
  have hdrop : l.text.drop l.versionStart = l.version ++ l.newline := by
    have htext : l.text = (l.method ++ bytes " " ++ (l.target ++ bytes " ")) ++
        (l.version ++ l.newline) := by
      simp only [Line.text, List.append_assoc]
    rw [htext]
    apply List.drop_left'
    simp only [Line.versionStart, List.length_append]
    rfl
  have hall : ∀ v ∈ versions, ∀ n ∈ newlines,
      strncmp (bytes "HTTP/1.1") (v ++ n) 8 = some true ∨
        strncmp (bytes "HTTP/1.0") (v ++ n) 8 = some true := by decide
  rw [report, hdrop, Nat.add_sub_cancel_left]
  split_ifs with h₁ h₀
  · exact ⟨rfl, rfl⟩
  · exact ⟨rfl, rfl⟩
  · rcases hall _ (version_of_accepts l.isVersion) _ (newline_of_accepts l.isNewline) with h | h
    · exact absurd h h₁
    · exact absurd h h₀

theorem report_line :
    ((tokens false l.text).foldl (report l.text) (.fresh, 0)).1.method =
        (lookup l.method).getD .get ∧
      ((tokens false l.text).foldl (report l.text) (.fresh, 0)).2 =
        if lookup l.method = none then 1000 else 0 := by
  rcases tokens_line l with ⟨ts, hts, htokens⟩
  have hchars := charsToHttpMethod_line l []
  rw [List.append_nil] at hchars
  rw [htokens, List.foldl_cons, List.foldl_append, List.foldl_cons, List.foldl_nil,
    (report_version l _).1, (report_version l _).2, (foldl_text hts _).1, (foldl_text hts _).2,
    report, List.drop_zero, hchars]
  cases lookup l.method with
  | none => exact ⟨rfl, rfl⟩
  | some m => exact ⟨rfl, rfl⟩

/-- The method is read as it stands there: it is set if it is the name of one, without an error, and
otherwise the error is 1000. -/
def ReadsMethod (junk : List UInt8) : Prop :=
  ∃ v offset memory,
    HttpRequestParser.execute (l.text ++ junk) l.text.length (.fresh false) =
      .done (offset, memory) v ∧
    (∀ m, (v.error = 0 ∧ v.data.method = m) ↔ l.method = httpMethodToString m) ∧
    ((∀ m, l.method ≠ httpMethodToString m) → v.error = 1000) ∧
    charsToHttpMethod (l.text ++ junk) = some (stringToHttpMethod l.method)

theorem execute_line (hlen : l.text.length < 2 ^ 31) (junk : List UInt8) :
    ∃ v offset memory,
      HttpRequestParser.execute (l.text ++ junk) l.text.length (.fresh false) =
        .done (offset, memory) v ∧
      v.data.method = (lookup l.method).getD .get ∧
      v.error = if lookup l.method = none then 1000 else 0 := by
  rcases tokens_line l with ⟨ts, hts, htokens⟩
  have hne : l.text ≠ [] := by
    rw [Line.text]
    simp [bytes]
  have hright : Clear (tokens false l.text) l.text.length := by
    intro t ht hbad
    rcases Marks.exists_of_mem_tokens ht with ⟨a, ha⟩
    have hplace := trace_place ha
    have hreach : t.reach = t.stop + 1 := by
      rw [htokens] at ht
      rcases List.mem_cons.mp ht with rfl | ht
      · rfl
      · rcases List.mem_append.mp ht with ht | ht
        · rcases hts t ht with ⟨part, i, p, rfl⟩
          rfl
        · rw [List.mem_singleton.mp ht]
          rfl
    omega
  have hopen (i p : ℕ) (ht : .method i p ∈ tokens false l.text) : ¬Open (l.text.drop i) := by
    rw [htokens] at ht
    have hi : i = 0 := by
      rcases List.mem_cons.mp ht with ht | ht
      · exact (Token.method.inj ht).1
      · rcases List.mem_append.mp ht with ht | ht
        · rcases hts _ ht with ⟨part, j, q, heq⟩
          cases heq
        · cases List.mem_singleton.mp ht
    rw [hi]
    exact not_open_line l
  rcases execute_whole hne hlen hright hopen junk with ⟨v, hrun, hv⟩
  have hresult := hv.result
  refine ⟨v, _, _, hrun, ?_, ?_⟩
  · rw [← (report_line l).1, ← hresult]
    rfl
  · rw [← (report_line l).2, ← hresult]
    rfl

/-- A longer buffer fails the assertion that its length is an `int`. -/
theorem length_of_execute {memory : List UInt8} {n : ℕ} {v v' : HttpRequestParser}
    {r : ℕ × List UInt8} (h : HttpRequestParser.execute memory n v = .done r v') :
    n < 2 ^ 31 := by
  rcases Command.bind_eq_done.mp h with ⟨offset, v₁, hrun, -⟩
  rw [httpParserExecute, Command.ite_apply] at hrun
  split_ifs at hrun with hzero
  · omega
  · rw [Command.modify_bind_apply] at hrun
    rcases Command.bind_eq_done.mp hrun with ⟨_, v₂, -, hrun⟩
    rcases Command.bind_eq_done.mp hrun with ⟨_, v₃, hassert, -⟩
    rw [assert] at hassert
    split_ifs at hassert with hint
    · rw [← Stream.toInt_eq_self_iff]
      have hoff : Stream.toInt 0 = 0 := rfl
      omega
    · cases hassert

/-- A method is read as it stands there exactly if no name of a method starts it without being it, and the
line is not too long for an `int`. -/
theorem readsMethod_iff (junk : List UInt8) :
    ReadsMethod l junk ↔ l.text.length < 2 ^ 31 ∧ Sharp l.method := by
  have hnul := nul_not_mem_method l
  constructor
  · rintro ⟨v, offset, memory, hrun, hmethod, -, -⟩
    have hlen := length_of_execute hrun
    refine ⟨hlen, sharp_of_lookup ?_⟩
    intro m hm
    rcases execute_line l hlen junk with ⟨v', _, _, hrun', hdata, herror⟩
    rw [hrun] at hrun'
    cases hrun'
    rw [hm] at hdata herror
    exact (hmethod m).mp ⟨herror, hdata⟩
  · rintro ⟨hlen, hsharp⟩
    rcases execute_line l hlen junk with ⟨v, offset, memory, hrun, hdata, herror⟩
    have hlookup := lookup_of_sharp hnul hsharp
    have hname (m : HttpMethod) : lookup l.method = some m ↔ l.method = httpMethodToString m := by
      rw [hlookup]
      exact stringToHttpMethod_eq_some hnul
    refine ⟨v, offset, memory, hrun, ?_, ?_, ?_⟩
    · intro m
      rw [hdata, herror, ← hname]
      cases lookup l.method <;> simp
    · intro hnone
      have hnil : lookup l.method = none := by
        rw [Option.eq_none_iff_forall_ne_some]
        intro m hm
        exact hnone m ((hname m).mp hm)
      rw [herror, if_pos hnil]
    · rw [charsToHttpMethod_line, hlookup]

theorem version_accepts : HTTPVersion.accepts (bytes "HTTP/1.1") = true := by decide +kernel

theorem crlf_accepts : (CRLF : Rule).accepts (bytes "\r\n") = true := by decide +kernel

/-- A request line of version 1.1 for the root. -/
def get (method : List UInt8) (h : Method.accepts method = true) : Line where
  method := method
  target := bytes "/"
  version := bytes "HTTP/1.1"
  newline := bytes "\r\n"
  isMethod := h
  isTarget := by decide +kernel
  isVersion := version_accepts
  isNewline := crlf_accepts

def getx : Line := get (bytes "GETX") (by decide +kernel)

/-- The error and the method after a request line that is a whole buffer. -/
def outcome (l : Line) : Option (ℕ × HttpMethod) :=
  match HttpRequestParser.execute l.text l.text.length (.fresh false) with
  | .done _ v => some (v.error, v.data.method)
  | _ => none

/-- A token that starts with `GET` is taken for it. -/
theorem getx_is_get : outcome getx = some (0, .get) ∧ getx.method ≠ httpMethodToString .get ∧
    charsToHttpMethod getx.text = some (some .get) ∧ stringToHttpMethod getx.method = none ∧
    ¬ReadsMethod getx [] := by
  have hrun : outcome getx = some (0, .get) := by decide +kernel
  have hname : getx.method ≠ httpMethodToString .get := by decide
  refine ⟨hrun, hname, by decide +kernel, by decide +kernel, ?_⟩
  rintro ⟨v, offset, memory, hexec, hmethod, -, -⟩
  rw [List.append_nil] at hexec
  rw [outcome, hexec, Option.some.injEq, Prod.mk.injEq] at hrun
  exact hname ((hmethod .get).mp hrun)

end Parsing

end Sylar.Http.Methods
