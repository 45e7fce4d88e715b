import Sylar.Http.Calls
import Sylar.Ragel.Precedence

/-! # One piece of the input

A call of `execute` on the next bytes of the input: the machine goes on where the call
before has left it. If no token of the input extends over either end of these bytes, the
call reports exactly the tokens that the input has there.
-/
namespace Sylar.Http
open Memory Ragel
open Sylar.Stream (toInt toInt_eq_self_iff)

variable {relaxed : Bool} {pre x post junk : List UInt8}

section Machine

theorem breaks_iff (a : Action) : breaks a = true ↔ a = .done := by
  cases a <;> simp [breaks]

/-- `done` is executed exactly when the machine accepts. -/
theorem start_ending (relaxed : Bool) :
    Ending (((Grammar.message relaxed).number 0).2) .done (start (Grammar.main relaxed)) := by
  intro e he
  refine ⟨((Grammar.message relaxed).number 0).1, List.mem_singleton.mp he, ?_⟩
  have hall : ((Grammar.message relaxed).number 0).1.embedded.all (fun x => x.2 ≠ .done) = true := by
    cases relaxed <;> decide +kernel
  intro x hx
  simpa using List.all_eq_true.mp hall x hx

/-- `query_start` is set before it is used. -/
theorem start_preceded (relaxed : Bool) :
    ∀ e ∈ start (Grammar.main relaxed), e.preceded .startQuery .queryString = true := by
  intro e he
  rw [List.mem_singleton.mp he]
  cases relaxed <;> decide +kernel

/-- The machine has read the bytes and goes on. -/
def Going (relaxed : Bool) (pre : List UInt8) (s : State Action) : Prop :=
  (trace relaxed pre).2 = ⟨some s, pre.length, false⟩

theorem trace_append {s : State Action} (h : Going relaxed pre s) (x : List UInt8) :
    trace relaxed (pre ++ x) =
      ((trace relaxed pre).1 ++ shifted pre.length (sweep breaks s 0 x).1,
        ⟨(sweep breaks s 0 x).2.cs, pre.length + (sweep breaks s 0 x).2.p,
          (sweep breaks s 0 x).2.broke⟩) := by
  have hpre : trace relaxed pre = ((trace relaxed pre).1, ⟨some s, pre.length, false⟩) :=
    Prod.ext rfl h
  rw [trace, sweep_append hpre, Nat.zero_add, show pre.length = pre.length + 0 from rfl,
    sweep_shift]
  rfl

theorem trace_place {ap : Action × ℕ} (h : ap ∈ (trace relaxed pre).1) : ap.2 < pre.length := by
  have h₁ := (sweep_mem h).2
  have h₂ := (sweep_place breaks (start (Grammar.main relaxed)) 0 pre).2.1
  omega

/-- What has been recorded in the bytes `pre`. -/
def marksAt (relaxed : Bool) (pre : List UInt8) : Marks :=
  Marks.initial.run (trace relaxed pre).1

/-- The recorded places lie before the next byte. -/
theorem trace_below (relaxed : Bool) (pre : List UInt8) :
    (marksAt relaxed pre).Below (pre.length - 1) := by
  apply (Marks.Below.initial _).run
  intro ap hap
  have := trace_place hap
  omega

theorem trace_query_lt {q : ℕ}
    (h : (marksAt relaxed pre).queryStart = some q) : q < pre.length := by
  have hle := (trace_below relaxed pre).queryStart q h
  cases pre with
  | nil => simp [marksAt, trace, Marks.run, Marks.initial] at h
  | cons b pre =>
    rw [List.length_cons] at hle ⊢
    omega

theorem trace_query {s : State Action} (h : Going relaxed pre s) {before after : List (Action × ℕ)}
    {q : ℕ} (hsplit : (sweep breaks s 0 x).1 = before ++ (.queryString, q) :: after) :
    ((marksAt relaxed pre).run (shifted pre.length before)).queryStart ≠ none := by
  rw [marksAt, ← Marks.run_append]
  apply Marks.queryStart_run
  right
  have htrace : (trace relaxed (pre ++ x)).1 = ((trace relaxed pre).1 ++
      shifted pre.length before) ++ (.queryString, pre.length + q) :: shifted pre.length after := by
    rw [trace_append h, hsplit, shifted, List.map_append, List.append_assoc]
    rfl
  exact sweep_preceded (start_preceded relaxed) htrace

end Machine

section Call

variable {v v₁ : HttpRequestParser} {s : State Action}

theorem assert_of {σ : Type} {x : σ} {p : Prop} [Decidable p] (h : p) : assert p x = .done () x := by
  rw [assert, if_pos h]
  rfl

/-- The assertions hold as long as the registers stay inside the buffer. -/
structure Inside (n : ℕ) (h : HttpParser) : Prop where
  bodyStart : h.bodyStart ≤ n
  mark : h.mark < n
  fieldLen : h.fieldLen ≤ n
  fieldStart : h.fieldStart < n

theorem assertInside_of {n : ℕ} (h : Inside n v.parser) (hread : v.parser.nread ≤ n) :
    assertInside n v = .done () v := by
  rw [assertInside, Command.state_bind_apply, Command.bind_done (assert_of hread),
    Command.bind_done (assert_of h.bodyStart), Command.bind_done (assert_of h.mark),
    Command.bind_done (assert_of h.fieldLen), assert_of h.fieldStart]

/-- A call whose actions return and leave the registers inside the buffer. -/
theorem httpParserExecute_apply (hcs : v.parser.cs = some s) (hx : x ≠ [])
    (hlen : x.length < 2 ^ 31)
    (hrun : perform (action (x ++ junk)) (sweep breaks s 0 x).1 (v.onParser .reset) =
      .done () v₁) (hread : v₁.parser.nread = 0) (hin : Inside x.length v₁.parser) :
    httpParserExecute (x ++ junk) x.length 0 v = .done (sweep breaks s 0 x).2.p
      (v₁.onParser (.keep 0 (sweep breaks s 0 x).2)) := by
  have hpos : x.length ≠ 0 := fun h => hx (List.length_eq_zero_iff.mp h)
  have hplace := (sweep_place breaks s 0 x).2.1
  rw [Nat.zero_add] at hplace
  have hexec : writeExec (x ++ junk) x.length 0 (v.onParser .reset) =
      .done (sweep breaks s 0 x).2 v₁ := by
    rw [writeExec, Command.state_bind_apply, show (v.onParser .reset).parser.cs = some s from hcs]
    dsimp only
    rw [List.drop_zero, List.take_left, exec_apply, Command.bind_done hrun]
    rfl
  have hnread : v₁.parser.nread + ((sweep breaks s 0 x).2.p - 0) = (sweep breaks s 0 x).2.p := by
    rw [hread]
    omega
  have hinside : assertInside x.length (v₁.onParser (.keep 0 (sweep breaks s 0 x).2)) = _ :=
    assertInside_of ⟨hin.bodyStart, hin.mark, hin.fieldLen, hin.fieldStart⟩ (hnread.trans_le hplace)
  rw [httpParserExecute, Command.ite_apply, if_neg hpos, Command.modify_bind_apply,
    Command.bind_done (assert_of (Nat.zero_le _)),
    Command.bind_done (assert_of (by rw [toInt_eq_self_iff.mpr hlen]; rfl)),
    Command.bind_done hexec, Command.bind_done (assert_of hplace), Command.modify_bind_apply,
    Command.bind_done hinside, Command.state_bind_apply, Command.pure_apply]
  exact congrArg (Outcome.done · _) hnread

/-- No token extends over place `c`. -/
def Clear (ts : List Token) (c : ℕ) : Prop := ∀ t ∈ ts, ¬(t.start < c ∧ c < t.reach)

/-- The parser after the first bytes `pre` of the input `bs`. -/
structure Parsed (relaxed : Bool) (bs pre : List UInt8) (v : HttpRequestParser) : Prop where
  cs : v.parser.cs = (trace relaxed pre).2.cs
  result : v.result = (tokens relaxed pre).foldl (report bs) (.fresh, 0)
  socket : (marksAt relaxed pre).socket =
    (v.parser.xmlSent || v.parser.jsonSent)
  bodyStart : (trace relaxed pre).2.broke = false → v.parser.bodyStart = 0

theorem parsed_fresh (relaxed : Bool) (bs : List UInt8) : Parsed relaxed bs [] (.fresh relaxed) :=
  ⟨rfl, rfl, rfl, fun _ => rfl⟩

/-- The registers are empty at the start of a call. -/
theorem Parsed.tracks {bs : List UInt8} (h : Parsed relaxed bs pre v) :
    Tracks pre.length (marksAt relaxed pre) (v.onParser .reset).parser := by
  have hb := trace_below relaxed pre
  have hmark := hb.mark
  have hstart := hb.fieldStart
  have hupto := hb.fieldUpto
  refine ⟨?_, ?_, ?_, fun q hq hle => ?_, h.socket⟩
  · change 0 = _
    omega
  · change 0 = _
    omega
  · change 0 = _
    omega
  · have := trace_query_lt hq
    omega

theorem tokens_append (hgo : Going relaxed pre s) (x : List UInt8) :
    tokens relaxed (pre ++ x) = tokens relaxed pre ++
      (marksAt relaxed pre).tokens
        (shifted pre.length (sweep breaks s 0 x).1) := by
  rw [tokens, trace_append hgo, Marks.tokens_append]
  rfl

theorem marksAt_append (hgo : Going relaxed pre s) (x : List UInt8) :
    marksAt relaxed (pre ++ x) =
      (marksAt relaxed pre).run (shifted pre.length (sweep breaks s 0 x).1) := by
  rw [marksAt, trace_append hgo, Marks.run_append]
  rfl

theorem sweep_inside {ap : Action × ℕ} (h : ap ∈ (sweep breaks s 0 x).1) : ap.2 < x.length := by
  have h₁ := (sweep_mem h).2
  have h₂ := (sweep_place breaks s 0 x).2.1
  omega

/-- The tokens that are reported between two clear places lie between them. -/
theorem tokens_inside (hgo : Going relaxed pre s)
    (hleft : Clear (tokens relaxed (pre ++ x)) pre.length)
    (hright : Clear (tokens relaxed (pre ++ x)) (pre.length + x.length)) {t : Token}
    (ht : t ∈ (marksAt relaxed pre).tokens (shifted pre.length (sweep breaks s 0 x).1)) :
    pre.length ≤ t.start ∧ t.reach ≤ pre.length + x.length ∧ pre.length ≤ t.stop := by
  have hstart : t.start ≤ t.stop := by
    refine Marks.Below.start_le_stop (fun ap hap => ?_) ?_ ht
    · obtain ⟨bp, hbp, rfl⟩ := List.mem_map.mp hap
      exact (trace_below relaxed pre).mono (by dsimp only; omega)
    · exact List.pairwise_map.mpr ((sweep_sorted breaks s 0 x).imp fun h => Nat.add_le_add_left h _)
  obtain ⟨a, ha⟩ := Marks.exists_of_mem_tokens ht
  obtain ⟨bp, hbp, heq⟩ := List.mem_map.mp ha
  have hstop : pre.length + bp.2 = t.stop := (Prod.mk.inj heq).2
  have hbound := sweep_inside hbp
  have hreach := Marks.stop_lt_reach t
  have hmem : t ∈ tokens relaxed (pre ++ x) := by
    rw [tokens_append hgo]
    exact List.mem_append_right _ ht
  have h₁ := hleft t hmem
  have h₂ := hright t hmem
  omega

theorem Tracks.inside {c n : ℕ} {m : Marks} {h : HttpParser} (hT : Tracks c m h)
    (hb : m.Below (c + n - 1)) (hn : n ≠ 0) (hbody : h.bodyStart ≤ n) : Inside n h := by
  have hmark := hb.mark
  have hstart := hb.fieldStart
  have hupto := hb.fieldUpto
  refine ⟨hbody, ?_, ?_, ?_⟩
  · rw [hT.mark]
    omega
  · rw [hT.fieldLen]
    omega
  · rw [hT.fieldStart]
    omega

/-- A call with the next bytes of the input. -/
theorem execute_piece (hgo : Going relaxed pre s) (hv : Parsed relaxed (pre ++ x ++ post) pre v)
    (hx : x ≠ []) (hlen : x.length < 2 ^ 31)
    (hleft : Clear (tokens relaxed (pre ++ x)) pre.length)
    (hright : Clear (tokens relaxed (pre ++ x)) (pre.length + x.length))
    (hopen : ∀ i p, .method i p ∈ tokens relaxed (pre ++ x) → pre.length ≤ p →
      ¬Open ((pre ++ x).drop i)) :
    ∃ v', HttpRequestParser.execute (x ++ junk) x.length v =
        .done ((sweep breaks s 0 x).2.p,
          memmove (x ++ junk) x.length (sweep breaks s 0 x).2.p) v' ∧
      Parsed relaxed (pre ++ x ++ post) (pre ++ x) v' := by
  have hcs : v.parser.cs = some s := by rw [hv.cs, hgo]
  have hbody : v.parser.bodyStart = 0 := hv.bodyStart (by rw [hgo])
  have hmax : x.length ≤ maxSize := hlen.le.trans (by decide)
  have hmem {t : Token}
      (ht : t ∈ (marksAt relaxed pre).tokens (shifted pre.length (sweep breaks s 0 x).1)) :
      t ∈ tokens relaxed (pre ++ x) := by
    rw [tokens_append hgo]
    exact List.mem_append_right _ ht
  have hin {t : Token}
      (ht : t ∈ (marksAt relaxed pre).tokens (shifted pre.length (sweep breaks s 0 x).1)) :=
    tokens_inside hgo hleft hright ht
  obtain ⟨v₁, hrun, hT, hr, hcs₁, hread, hbody₁, hbody₁'⟩ :=
    perform_whole post junk rfl hmax hv.tracks (sweep_sorted breaks s 0 x)
      (fun ap _ => (trace_below relaxed pre).mono (by omega)) (fun ap hap => sweep_inside hap)
      (fun before q after h => trace_query hgo h)
      (fun t ht => ⟨(hin ht).1, (hin ht).2.1⟩)
      (fun i p ht => by
        have hi : pre.length ≤ i := (hin ht).1
        have := hopen i p (hmem ht) (hin ht).2.2
        rwa [List.drop_append, List.drop_eq_nil_of_le hi, List.nil_append] at this)
  have hpos : x.length ≠ 0 := fun h => hx (List.length_eq_zero_iff.mp h)
  have hbelow : ((marksAt relaxed pre).run (shifted pre.length (sweep breaks s 0 x).1)).Below
      (pre.length + x.length - 1) := by
    rw [← marksAt_append hgo, ← List.length_append]
    exact trace_below relaxed (pre ++ x)
  have hcall := httpParserExecute_apply hcs hx hlen hrun (hread.trans rfl)
    (hT.inside hbelow hpos (hbody₁' (by change v.parser.bodyStart ≤ _; omega)))
  refine ⟨v₁.onParser (.keep 0 (sweep breaks s 0 x).2), ?_, ?_, ?_, ?_, fun hbroke => ?_⟩
  · rw [HttpRequestParser.execute, Command.bind_done hcall]
    rfl
  · have hsome : v₁.parser.cs.isSome = true := by
      rw [hcs₁]
      exact Option.isSome_of_eq_some hcs
    rw [trace_append hgo]
    exact if_pos hsome
  · rw [tokens_append hgo, List.foldl_append, ← hv.result]
    exact hr
  · rw [marksAt_append hgo]
    exact hT.socket
  · rw [trace_append hgo] at hbroke
    refine (hbody₁ fun ap hap hd => ?_).trans hbody
    have := sweep_not_broke hbroke hap
    rw [hd] at this
    simp [breaks] at this

/-- A new parser that is called with the whole of an input. -/
theorem execute_whole (hx : x ≠ []) (hlen : x.length < 2 ^ 31)
    (hright : Clear (tokens relaxed x) x.length)
    (hopen : ∀ i p, .method i p ∈ tokens relaxed x → ¬Open (x.drop i)) (junk : List UInt8) :
    ∃ v, HttpRequestParser.execute (x ++ junk) x.length (.fresh relaxed) =
        .done ((trace relaxed x).2.p, memmove (x ++ junk) x.length (trace relaxed x).2.p) v ∧
      Parsed relaxed x x v := by
  have hgo : Going relaxed [] (start (Grammar.main relaxed)) := rfl
  have hparsed : Parsed relaxed ([] ++ x ++ []) [] (.fresh relaxed) := parsed_fresh relaxed _
  have hleft : Clear (tokens relaxed ([] ++ x)) 0 := fun t _ h => absurd h.1 (Nat.not_lt_zero _)
  have hright' : Clear (tokens relaxed ([] ++ x)) (0 + x.length) := by
    rw [List.nil_append, Nat.zero_add]
    exact hright
  rcases execute_piece hgo hparsed hx hlen hleft hright' (fun i p ht _ => hopen i p ht) with
    ⟨v, hrun, hv⟩
  rw [List.append_nil] at hv
  exact ⟨v, hrun, hv⟩

end Call

end Sylar.Http
