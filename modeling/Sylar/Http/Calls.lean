import Sylar.Http.Tokens

/-! # A token inside one call

The registers of a call hold places relative to the start of its buffer, and are zero
for what was recorded before the call. A token that starts inside the bytes of the call is
reported as it stands in the input, whatever lies behind these bytes in memory.
-/
namespace Sylar.Http
open Memory

section Comparison

/-- The name of some method goes on where the bytes end. -/
def Open (bs : List UInt8) : Prop := ∃ n ∈ httpMethodMap, bs <+: n.2 ∧ bs ≠ n.2

instance (bs : List UInt8) : Decidable (Open bs) :=
  inferInstanceAs (Decidable (∃ n ∈ httpMethodMap, _))

theorem strncmp_name {name y : List UInt8} (h : ¬(y <+: name ∧ y ≠ name)) (z : List UInt8) :
    strncmp name (y ++ z) name.length = some (name.isPrefixOf y) := by
  induction name generalizing y with
  | nil => simp [strncmp]
  | cons l name ih =>
    cases y with
    | nil => exact absurd ⟨List.nil_prefix, (List.cons_ne_nil _ _).symm⟩ h
    | cons m y =>
      rw [List.cons_append, List.length_cons, strncmp, List.isPrefixOf_cons_cons]
      by_cases hlm : l = m
      · subst hlm
        rw [if_pos rfl, beq_self_eq_true, Bool.true_and]
        apply ih
        rintro ⟨hpre, hne⟩
        exact h ⟨(List.prefix_cons_inj l).mpr hpre, fun heq => hne (List.cons.inj heq).2⟩
      · rw [if_neg hlm, beq_eq_false_iff_ne.mpr hlm, Bool.false_and]

/-- A comparison looks no further than its length. -/
theorem strncmp_append (lit : List UInt8) {y : List UInt8} {n : ℕ} (h : n ≤ y.length) :
    ∃ b, ∀ z, strncmp lit (y ++ z) n = some b := by
  induction n generalizing lit y with
  | zero => exact ⟨true, fun z => by rw [strncmp]⟩
  | succ n ih =>
    cases y with
    | nil => simp at h
    | cons m y =>
      cases lit with
      | nil => exact ⟨decide (m = 0), fun z => rfl⟩
      | cons l lit =>
        by_cases hlm : l = m
        · obtain ⟨b, hb⟩ := ih lit (Nat.le_of_succ_le_succ h)
          exact ⟨b, fun z => by rw [List.cons_append, strncmp, if_pos hlm, hb]⟩
        · exact ⟨false, fun z => by rw [List.cons_append, strncmp, if_neg hlm]⟩

/-- The version that a text begins with, unless there are too few bytes to tell. -/
def readVersion (m : List UInt8) (n : ℕ) : Option (Option UInt8) :=
  match strncmp (bytes "HTTP/1.1") m n with
  | none => none
  | some true => some (some 0x11)
  | some false => (strncmp (bytes "HTTP/1.0") m n).map fun b => if b then some 0x10 else none

theorem onRequestVersion_eq (m : List UInt8) (start length : ℕ) :
    onRequestVersion m start length = match readVersion (m.drop start) length with
      | none => Command.abort .outOfBounds
      | some none => Command.modify (·.setError 1001)
      | some (some v) => Command.modify (·.onData (·.setVersion v)) := by
  rw [onRequestVersion, readVersion]
  rcases strncmp (bytes "HTTP/1.1") (m.drop start) length with _ | _ | _
  · rfl
  · rcases strncmp (bytes "HTTP/1.0") (m.drop start) length with _ | _ | _ <;> rfl
  · rfl

theorem charsToHttpMethod_append {y : List UInt8} (h : ¬Open y) (z : List UInt8) :
    charsToHttpMethod (y ++ z) =
      some ((httpMethodMap.find? fun n => n.2.isPrefixOf y).map Prod.fst) := by
  have hgo (l : List (HttpMethod × List UInt8)) (hl : l ⊆ httpMethodMap) :
      charsToHttpMethod.go (y ++ z) l =
        some ((l.find? fun n => n.2.isPrefixOf y).map Prod.fst) := by
    induction l with
    | nil => rfl
    | cons n l ih =>
      have hn : ¬(y <+: n.2 ∧ y ≠ n.2) := fun hn => h ⟨n, hl List.mem_cons_self, hn⟩
      rw [charsToHttpMethod.go, strncmp_name hn, List.find?_cons]
      cases n.2.isPrefixOf y with
      | true => rfl
      | false => exact ih (List.subset_of_cons_subset hl)
  exact hgo httpMethodMap (List.Subset.refl _)

end Comparison

/-- The registers of a call whose buffer starts at place `c` of the input. -/
structure Tracks (c : ℕ) (m : Marks) (h : HttpParser) : Prop where
  mark : h.mark = m.mark - c
  fieldStart : h.fieldStart = m.fieldStart - c
  fieldLen : h.fieldLen = (m.fieldUpto - c) - (m.fieldSince - c)
  queryStart : ∀ q, m.queryStart = some q → c ≤ q → h.queryStart = some (q - c)
  socket : m.socket = (h.xmlSent || h.jsonSent)

/-- Everything was recorded at place `p` or before. -/
structure Marks.Below (p : ℕ) (m : Marks) : Prop where
  mark : m.mark ≤ p
  fieldStart : m.fieldStart ≤ p
  fieldUpto : m.fieldUpto ≤ p
  queryStart : ∀ q, m.queryStart = some q → q ≤ p

namespace Marks.Below

variable {p q : ℕ} {m : Marks}

theorem initial (p : ℕ) : Marks.initial.Below p :=
  ⟨Nat.zero_le _, Nat.zero_le _, Nat.zero_le _, fun q hq => by simp [Marks.initial] at hq⟩

theorem mono (h : m.Below p) (hpq : p ≤ q) : m.Below q :=
  ⟨h.mark.trans hpq, h.fieldStart.trans hpq, h.fieldUpto.trans hpq,
    fun x hx => (h.queryStart x hx).trans hpq⟩

theorem after (h : m.Below q) (hp : p ≤ q) (a : Action) : (m.after a p).Below q := by
  cases a with
  | mark => exact ⟨hp, h.fieldStart, h.fieldUpto, h.queryStart⟩
  | startField => exact ⟨h.mark, hp, h.fieldUpto, h.queryStart⟩
  | writeField => exact ⟨h.mark, h.fieldStart, hp, h.queryStart⟩
  | startValue => exact ⟨hp, h.fieldStart, h.fieldUpto, h.queryStart⟩
  | startQuery =>
    refine ⟨h.mark, h.fieldStart, h.fieldUpto, fun x hx => ?_⟩
    rw [← Option.some.inj hx]
    exact hp
  | _ => exact ⟨h.mark, h.fieldStart, h.fieldUpto, h.queryStart⟩

theorem run {l : List (Action × ℕ)} (h : m.Below q) (hl : ∀ ap ∈ l, ap.2 ≤ q) :
    (m.run l).Below q := by
  induction l generalizing m with
  | nil => exact h
  | cons ap l ih =>
    rw [List.forall_mem_cons] at hl
    exact ih (h.after hl.1 ap.1) hl.2

theorem start_le {a : Action} {t : Token} (h : m.Below p) (ht : m.token a p = some t) :
    t.start ≤ p := by
  cases a <;> simp only [Marks.token, Option.some.injEq, Option.map_eq_some_iff, reduceCtorEq,
    Option.ite_none_left_eq_some] at ht
  case writeValue =>
    rw [← ht]
    exact (min_le_right _ _).trans ((min_le_right _ _).trans h.mark)
  case queryString =>
    obtain ⟨q, hq, rfl⟩ := ht
    exact h.queryStart q hq
  case done =>
    rw [← ht.2]
    exact le_rfl
  all_goals
    rw [← ht]
    exact h.mark

/-- A token starts before the place where it is reported. -/
theorem start_le_stop {l : List (Action × ℕ)} (h : ∀ ap ∈ l, m.Below ap.2)
    (hsorted : l.Pairwise fun x y => x.2 ≤ y.2) {t : Token} (ht : t ∈ m.tokens l) :
    t.start ≤ t.stop := by
  induction l generalizing m with
  | nil => simp [Marks.tokens] at ht
  | cons ap l ih =>
    rw [List.forall_mem_cons] at h
    rw [List.pairwise_cons] at hsorted
    rcases List.mem_append.mp ht with ht | ht
    · rw [Option.mem_toList] at ht
      rw [Marks.stop_of_token ht]
      exact h.1.start_le ht
    · exact ih (fun bp hbp => (h.2 bp hbp).after (hsorted.1 bp hbp) ap.1) hsorted.2 ht

end Marks.Below

theorem len_of_le {p s : ℕ} (h : s ≤ p) (hp : p < 2 ^ 64) : len p s = p - s := by
  rw [len, Int.emod_eq_of_lt (by omega) (by omega)]
  omega

theorem len_add_left {p n : ℕ} (h : p + n < 2 ^ 64) : len (p + n) p = n := by
  rw [len_of_le (Nat.le_add_right p n) h, Nat.add_sub_cancel_left]

/-- What the callbacks change. -/
def HttpRequestParser.result (v : HttpRequestParser) : HttpRequest × ℕ := (v.data, v.error)

/-- The parser after the action `a` at place `q` of a call that starts at place `c` of `bs`. -/
structure Advanced (bs : List UInt8) (c q : ℕ) (m : Marks) (a : Action)
    (v v' : HttpRequestParser) : Prop where
  tracks : Tracks c (m.after a (c + q)) v'.parser
  result : v'.result = (m.token a (c + q)).toList.foldl (report bs) v.result
  cs : v'.parser.cs = v.parser.cs
  nread : v'.parser.nread = v.parser.nread
  bodyStart : a ≠ .done → v'.parser.bodyStart = v.parser.bodyStart
  bodyStart_le : v'.parser.bodyStart ≤ max v.parser.bodyStart (q + 1)

/-- After an action that only calls back. -/
theorem Advanced.of_callback {bs : List UInt8} {c q : ℕ} {m : Marks} {a : Action} {t : Token}
    {v v' : HttpRequestParser} (hT : Tracks c m v.parser) (ha : m.after a (c + q) = m)
    (ht : m.token a (c + q) = some t) (hv : v'.parser = v.parser)
    (hr : v'.result = report bs v.result t) : Advanced bs c q m a v v' where
  tracks := by rw [ha, hv]; exact hT
  result := by rw [ht, hr]; rfl
  cs := by rw [hv]
  nread := by rw [hv]
  bodyStart _ := by rw [hv]
  bodyStart_le := by rw [hv]; exact le_max_left _ _

section Window

-- The call is given the bytes `x` of the input, and finds `junk` behind them.
variable {pre x post junk : List UInt8} {c : ℕ} {v : HttpRequestParser}

theorem drop_window (hc : pre.length = c) {s : ℕ} (hs : c ≤ s) (hx : s - c ≤ x.length) :
    (pre ++ x ++ post).drop s = x.drop (s - c) ++ post := by
  rw [List.append_assoc, List.drop_append, List.drop_eq_nil_of_le (by omega), List.nil_append, hc,
    List.drop_append_of_le_length hx]

theorem slice_window (hc : pre.length = c) {s p : ℕ} (hs : c ≤ s) (hx : p - c ≤ x.length)
    (hsp : s ≤ p) : slice (pre ++ x ++ post) s p = (x.drop (s - c)).take (p - s) := by
  rw [slice, drop_window hc hs (by omega),
    List.take_append_of_le_length (by rw [List.length_drop]; omega)]

theorem stdString_window {i n : ℕ} (h : i + n ≤ x.length) (hx : x.length ≤ maxSize) :
    stdString (x ++ junk) i n v = .done ((x.drop i).take n) v := by
  rw [stdString, if_neg (by omega), if_pos (by rw [List.length_append]; omega),
    List.drop_append_of_le_length (by omega),
    List.take_append_of_le_length (by rw [List.length_drop]; omega)]
  rfl

variable (hc : pre.length = c) (hx : x.length ≤ maxSize)

include hc in
theorem onRequestMethod_window {s p : ℕ} (hs : c ≤ s) (hsx : s - c ≤ x.length)
    (hopen : ¬Open (x.drop (s - c))) :
    ∃ v', onRequestMethod (x ++ junk) (s - c) v = .done () v' ∧ v'.parser = v.parser ∧
      v'.result = report (pre ++ x ++ post) v.result (.method s p) := by
  rw [onRequestMethod, List.drop_append_of_le_length hsx, HttpRequestParser.result, report,
    drop_window hc hs hsx, charsToHttpMethod_append hopen, charsToHttpMethod_append hopen]
  cases (httpMethodMap.find? fun n => n.2.isPrefixOf (x.drop (s - c))).map Prod.fst with
  | none => exact ⟨_, rfl, rfl, rfl⟩
  | some method => exact ⟨_, rfl, rfl, rfl⟩

include hc in
theorem onRequestVersion_window {s p : ℕ} (hs : c ≤ s) (hp : p - c ≤ x.length) (hsp : s ≤ p) :
    ∃ v', onRequestVersion (x ++ junk) (s - c) (p - s) v = .done () v' ∧ v'.parser = v.parser ∧
      v'.result = report (pre ++ x ++ post) v.result (.version s p) := by
  have hy : p - s ≤ (x.drop (s - c)).length := by rw [List.length_drop]; omega
  obtain ⟨b₁, h₁⟩ := strncmp_append (bytes "HTTP/1.1") hy
  obtain ⟨b₀, h₀⟩ := strncmp_append (bytes "HTTP/1.0") hy
  rw [onRequestVersion, List.drop_append_of_le_length (by omega), HttpRequestParser.result, report,
    drop_window hc hs (by omega), h₁, h₁, h₀, h₀]
  cases b₁ with
  | true => exact ⟨_, rfl, rfl, rfl⟩
  | false =>
    cases b₀ with
    | true => exact ⟨_, rfl, rfl, rfl⟩
    | false => exact ⟨_, rfl, rfl, rfl⟩

include hc hx

theorem onRequestText_window {s p : ℕ} (hs : c ≤ s) (hp : p - c ≤ x.length) (hsp : s ≤ p)
    (part : Part) (callback : ℕ → ℕ → Parse Unit)
    (hcall : ∀ i n, callback i n = stdString (x ++ junk) i n >>= fun text =>
      Command.modify (·.onData (·.setPart part text))) :
    ∃ v', callback (s - c) (p - s) v = .done () v' ∧ v'.parser = v.parser ∧
      v'.result = report (pre ++ x ++ post) v.result (.text part s p) := by
  have htext : stdString (x ++ junk) (s - c) (p - s) v =
      .done (slice (pre ++ x ++ post) s p) v := by
    rw [stdString_window (by omega) hx, slice_window hc hs hp hsp]
  refine ⟨v.onData (·.setPart part (slice (pre ++ x ++ post) s p)), ?_, rfl, rfl⟩
  rw [hcall, Command.bind_done htext]
  rfl

theorem onRequestHttpField_window {name since upto value p : ℕ} (hname : c ≤ name)
    (hsince : c ≤ since) (hvalue : c ≤ value) (hlen : name - c + (upto - since) ≤ x.length)
    (hp : p - c ≤ x.length) (hvp : value ≤ p) :
    ∃ v', onRequestHttpField (x ++ junk) (name - c) (upto - c - (since - c)) (value - c)
        (p - value) v = .done () v' ∧ v'.parser = v.parser ∧
      v'.result = report (pre ++ x ++ post) v.result (.field name since upto value p) := by
  rw [show upto - c - (since - c) = upto - since by omega, onRequestHttpField,
    HttpRequestParser.result, report]
  by_cases hzero : upto - since = 0
  · rw [if_pos hzero, if_pos hzero]
    exact ⟨v, rfl, rfl, rfl⟩
  · have hkey : stdString (x ++ junk) (name - c) (upto - since) v =
        .done (((pre ++ x ++ post).drop name).take (upto - since)) v := by
      rw [stdString_window hlen hx, drop_window hc hname (by omega),
        List.take_append_of_le_length (by rw [List.length_drop]; omega)]
    have hval : stdString (x ++ junk) (value - c) (p - value) v =
        .done (slice (pre ++ x ++ post) value p) v := by
      rw [stdString_window (by omega) hx, slice_window hc hvalue hp hvp]
    rw [if_neg hzero, if_neg hzero, Command.bind_done hkey, Command.bind_done hval]
    exact ⟨_, rfl, rfl, rfl⟩

omit hc hx in
theorem action_record {m : Marks} {a : Action} {q : ℕ} (hT : Tracks c m v.parser)
    (hb : m.Below (c + q)) (hq : q < 2 ^ 64)
    (ha : a = .mark ∨ a = .startField ∨ a = .writeField ∨ a = .startValue ∨ a = .startQuery ∨
      a = .xml ∨ a = .json) (bs memory : List UInt8) :
    ∃ v', action memory a q v = .done () v' ∧ Advanced bs c q m a v v' := by
  have hplace : q = c + q - c := by omega
  rcases ha with rfl | rfl | rfl | rfl | rfl | rfl | rfl
  · exact ⟨_, rfl, ⟨hplace, hT.2, hT.3, hT.4, hT.5⟩, rfl, rfl, rfl, fun _ => rfl, le_max_left _ _⟩
  · exact ⟨_, rfl, ⟨hT.1, hplace, hT.3, hT.4, hT.5⟩, rfl, rfl, rfl, fun _ => rfl, le_max_left _ _⟩
  · have hstart := hb.fieldStart
    have hlen : len q v.parser.fieldStart = c + q - c - (m.fieldStart - c) := by
      rw [hT.fieldStart, len_of_le (by omega) hq]
      omega
    exact ⟨_, rfl, ⟨hT.1, hT.2, hlen, hT.4, hT.5⟩, rfl, rfl, rfl, fun _ => rfl, le_max_left _ _⟩
  · exact ⟨_, rfl, ⟨hplace, hT.2, hT.3, hT.4, hT.5⟩, rfl, rfl, rfl, fun _ => rfl, le_max_left _ _⟩
  · refine ⟨_, rfl, ⟨hT.1, hT.2, hT.3, fun p hp _ => ?_, hT.5⟩, rfl, rfl, rfl, fun _ => rfl, le_max_left _ _⟩
    rw [← Option.some.inj hp]
    exact congrArg some hplace
  · exact ⟨_, rfl, ⟨hT.1, hT.2, hT.3, hT.4, rfl⟩, rfl, rfl, rfl, fun _ => rfl, le_max_left _ _⟩
  · refine ⟨_, rfl, ⟨hT.1, hT.2, hT.3, hT.4, ?_⟩, rfl, rfl, rfl, fun _ => rfl, le_max_left _ _⟩
    exact (Bool.or_true _).symm

omit hc hx in
theorem action_done_apply (memory : List UInt8) (q : ℕ) (v : HttpRequestParser) :
    action memory .done q v = if (v.parser.xmlSent || v.parser.jsonSent) = true then
      .done () (v.onParser fun h =>
        { h with bodyStart := h.mark, contentLen := Sylar.Stream.toInt (len q h.mark + 1) })
    else .done () ((v.onParser fun h => { h with bodyStart := q + 1 }).onData headerDone) := by
  rw [← Command.modify_apply, ← Command.modify_apply]
  exact Command.ite_apply _ _ _ _

omit hc hx in
theorem action_done {m : Marks} {q : ℕ} (hT : Tracks c m v.parser) (hb : m.Below (c + q))
    (bs memory : List UInt8) :
    ∃ v', action memory .done q v = .done () v' ∧ Advanced bs c q m .done v v' := by
  have hmark := hb.mark
  have htoken : m.token .done (c + q) =
      if (v.parser.xmlSent || v.parser.jsonSent) = true then none else some (.headerDone (c + q)) := by
    rw [← hT.socket]
    rfl
  rw [action_done_apply]
  split_ifs at htoken ⊢ with hs
  · refine ⟨_, rfl, ⟨hT.1, hT.2, hT.3, hT.4, hT.5⟩, ?_, rfl, rfl, fun h => absurd rfl h, ?_⟩
    · rw [htoken]
      rfl
    · refine le_max_of_le_right ?_
      change v.parser.mark ≤ q + 1
      rw [hT.mark]
      omega
  · refine ⟨_, rfl, ⟨hT.1, hT.2, hT.3, hT.4, hT.5⟩, ?_, rfl, rfl, fun h => absurd rfl h, ?_⟩
    · rw [htoken]
      rfl
    · exact le_max_right _ _

/-- An action whose token lies inside the call. -/
theorem action_whole {m : Marks} {a : Action} {q : ℕ} (hT : Tracks c m v.parser)
    (hb : m.Below (c + q)) (hq : q < x.length)
    (hquery : a = .queryString → m.queryStart ≠ none)
    (hwhole : ∀ t, m.token a (c + q) = some t → c ≤ t.start ∧ t.reach ≤ c + x.length)
    (hopen : ∀ s p, m.token a (c + q) = some (.method s p) → ¬Open (x.drop (s - c))) :
    ∃ v', action (x ++ junk) a q v = .done () v' ∧ Advanced (pre ++ x ++ post) c q m a v v' := by
  have hsize : q < 2 ^ 64 := by
    have : maxSize < 2 ^ 64 := by decide
    omega
  have hmark := hb.mark
  -- the length of a text that starts at a recorded place
  have hlen {s : ℕ} (hs : c ≤ s) (hsp : s ≤ c + q) : len q (s - c) = c + q - s := by
    rw [len_of_le (by omega) hsize]
    omega
  -- the texts that start at `mark`
  have htext (part : Part) {callback : ℕ → ℕ → Parse Unit}
      (hcall : ∀ i n, callback i n = stdString (x ++ junk) i n >>= fun text =>
        Command.modify (·.onData (·.setPart part text)))
      (haction : action (x ++ junk) a q v = callback v.parser.mark (len q v.parser.mark) v)
      (hafter : m.after a (c + q) = m)
      (htoken : m.token a (c + q) = some (.text part m.mark (c + q))) :
      ∃ v', action (x ++ junk) a q v = .done () v' ∧
        Advanced (pre ++ x ++ post) c q m a v v' := by
    have hs : c ≤ m.mark := (hwhole _ htoken).1
    obtain ⟨v', hrun, hv, hr⟩ := onRequestText_window hc hx hs
      (show c + q - c ≤ x.length by omega) hmark part callback hcall
    refine ⟨v', ?_, .of_callback hT hafter htoken hv hr⟩
    rw [haction, hT.mark, hlen hs hmark, hrun]
  cases a with
  | mark => exact action_record hT hb hsize (by simp) _ _
  | startField => exact action_record hT hb hsize (by simp) _ _
  | writeField => exact action_record hT hb hsize (by simp) _ _
  | startValue => exact action_record hT hb hsize (by simp) _ _
  | startQuery => exact action_record hT hb hsize (by simp) _ _
  | xml => exact action_record hT hb hsize (by simp) _ _
  | json => exact action_record hT hb hsize (by simp) _ _
  | requestUri => exact ⟨v, rfl, ⟨hT.1, hT.2, hT.3, hT.4, hT.5⟩, rfl, rfl, rfl, fun _ => rfl, le_max_left _ _⟩
  | done => exact action_done hT hb _ _
  | requestPath => exact htext .path (fun _ _ => rfl) rfl rfl rfl
  | fragment => exact htext .fragment (fun _ _ => rfl) rfl rfl rfl
  | requestMethod =>
    have hs : c ≤ m.mark := (hwhole _ rfl).1
    obtain ⟨v', hrun, hv, hr⟩ := onRequestMethod_window hc hs (by omega) (hopen _ _ rfl)
    refine ⟨v', ?_, .of_callback hT rfl rfl hv hr⟩
    rw [← hrun, ← hT.mark]
    rfl
  | httpVersion =>
    have hs : c ≤ m.mark := (hwhole _ rfl).1
    obtain ⟨v', hrun, hv, hr⟩ := onRequestVersion_window hc hs
      (show c + q - c ≤ x.length by omega) hmark
    refine ⟨v', ?_, .of_callback hT rfl rfl hv hr⟩
    rw [← hrun, ← hlen hs hmark, ← hT.mark]
    rfl
  | queryString =>
    obtain ⟨s, hquery⟩ := Option.ne_none_iff_exists'.mp (hquery rfl)
    have htoken : m.token .queryString (c + q) = some (.text .query s (c + q)) := by
      rw [Marks.token, hquery]
      rfl
    have hs : c ≤ s := (hwhole _ htoken).1
    have hsq := hb.queryStart s hquery
    obtain ⟨v', hrun, hv, hr⟩ := onRequestText_window hc hx hs
      (show c + q - c ≤ x.length by omega) hsq .query (onRequestQuery (x ++ junk)) fun _ _ => rfl
    refine ⟨v', ?_, .of_callback hT rfl htoken hv hr⟩
    rw [← hrun, ← hlen hs hsq]
    rw [action, Command.state_bind_apply]
    simp only [hT.queryStart s hquery hs]
  | writeValue =>
    obtain ⟨hstart, hreach⟩ := hwhole _ rfl
    rw [Token.start, le_min_iff, le_min_iff] at hstart
    rw [Token.reach, max_le_iff] at hreach
    obtain ⟨hname, hsince, hvalue⟩ := hstart
    obtain ⟨v', hrun, hv, hr⟩ := onRequestHttpField_window hc hx hname hsince hvalue
      (show m.fieldStart - c + (m.fieldUpto - m.fieldSince) ≤ x.length by omega)
      (show c + q - c ≤ x.length by omega) hmark
    refine ⟨v', ?_, .of_callback hT rfl rfl hv hr⟩
    rw [← hrun, ← hlen hvalue hmark, ← hT.mark, ← hT.fieldStart, ← hT.fieldLen]
    rfl

/-- Actions with the places of the input. -/
def shifted (c : ℕ) (l : List (Action × ℕ)) : List (Action × ℕ) := l.map fun ap => (ap.1, c + ap.2)

variable (post junk) in
/-- The actions of a call, all of whose tokens lie inside it. -/
theorem perform_whole {m : Marks} {l : List (Action × ℕ)} (hT : Tracks c m v.parser)
    (hsorted : l.Pairwise fun x y => x.2 ≤ y.2) (hb : ∀ ap ∈ l, m.Below (c + ap.2))
    (hplace : ∀ ap ∈ l, ap.2 < x.length)
    (hquery : ∀ before q after, l = before ++ (.queryString, q) :: after →
      (m.run (shifted c before)).queryStart ≠ none)
    (hwhole : ∀ t ∈ m.tokens (shifted c l), c ≤ t.start ∧ t.reach ≤ c + x.length)
    (hopen : ∀ s p, .method s p ∈ m.tokens (shifted c l) → ¬Open (x.drop (s - c))) :
    ∃ v', Ragel.perform (action (x ++ junk)) l v = .done () v' ∧
      Tracks c (m.run (shifted c l)) v'.parser ∧
      v'.result = (m.tokens (shifted c l)).foldl (report (pre ++ x ++ post)) v.result ∧
      v'.parser.cs = v.parser.cs ∧ v'.parser.nread = v.parser.nread ∧
      ((∀ ap ∈ l, ap.1 ≠ .done) → v'.parser.bodyStart = v.parser.bodyStart) ∧
      (v.parser.bodyStart ≤ x.length → v'.parser.bodyStart ≤ x.length) := by
  induction l generalizing m v with
  | nil => exact ⟨v, rfl, hT, rfl, rfl, rfl, fun _ => rfl, id⟩
  | cons ap l ih =>
    obtain ⟨a, q⟩ := ap
    rw [List.pairwise_cons] at hsorted
    rw [List.forall_mem_cons] at hb hplace
    have hfirst : ∀ t, m.token a (c + q) = some t → t ∈ m.tokens (shifted c ((a, q) :: l)) :=
      fun t ht => List.mem_append_left _ (Option.mem_toList.mpr ht)
    obtain ⟨v₁, hrun₁, h₁⟩ := action_whole hc hx hT hb.1 hplace.1
      (fun ha => hquery [] q l (by rw [ha]; rfl)) (fun t ht => hwhole t (hfirst t ht))
      (fun s p ht => hopen s p (hfirst _ ht))
    have hlater : ∀ t ∈ (m.after a (c + q)).tokens (shifted c l),
        t ∈ m.tokens (shifted c ((a, q) :: l)) := fun t ht => List.mem_append_right _ ht
    obtain ⟨v₂, hrun₂, hT₂, hr₂, hcs₂, hn₂, hd₂, hle₂⟩ := ih h₁.tracks hsorted.2
      (fun bp hbp => (hb.2 bp hbp).after (Nat.add_le_add_left (hsorted.1 bp hbp) c) a) hplace.2
      (fun before q' after h => hquery ((a, q) :: before) q' after (by rw [h]; rfl))
      (fun t ht => hwhole t (hlater t ht)) (fun s p ht => hopen s p (hlater _ ht))
    refine ⟨v₂, ?_, hT₂, ?_, hcs₂.trans h₁.cs, hn₂.trans h₁.nread, fun hd => ?_, fun hle => hle₂ ?_⟩
    · rw [Ragel.perform_cons, Command.bind_done hrun₁]
      exact hrun₂
    · rw [hr₂, h₁.result, ← List.foldl_append]
      rfl
    · rw [List.forall_mem_cons] at hd
      rw [hd₂ hd.2, h₁.bodyStart hd.1]
    · have := h₁.bodyStart_le
      omega

end Window

end Sylar.Http
