import Mathlib.Data.List.TakeWhile
import Sylar.Http.Dump
import Sylar.Http.RequestStates

/-! # The pieces of a request head

What the machine does with a part of the target and with the line of a header: the actions that it
executes there and the state that it leaves.
-/
namespace Sylar.Http.RequestText
open Memory Ragel Ragel.Expr

section Target

def opens : Part → Action
  | .query => .startQuery
  | _ => .mark

def closes : Part → Action
  | .path => .requestPath
  | .query => .queryString
  | .fragment => .fragment

/-- The course of the machine over a part that the rest of the grammar is the context of. -/
theorem sweep_part (part : Part) {C : Grammar.Rule → Grammar.Rule} {r : Grammar.Rule}
    {w outs : List UInt8} {b c : UInt8} {s s₁ s' : State Action} {uri : List Action}
    (hC : Frame C) (hr : r.plain = true) (hw : r.accepts (b :: w) = true)
    (hstep : step s b = some (s₁, [opens part])) (hwithin : Ragel.Within C r [b] s₁)
    (hin : ∀ b, b ∉ outs → (C eps).deriv b = []) (havoids : ∀ c ∈ outs, r.avoids c = true)
    (hc : c ∈ outs) (hout : wayOut C c = some (s', closes part :: uri))
    (huri : ∀ a ∈ uri, a = .requestUri) :
    sweep breaks s 0 (b :: w ++ [c]) =
      ([(opens part, 0), (closes part, (b :: w).length)] ++ uri.map fun a => (a, (b :: w).length),
        ⟨some s', (b :: w ++ [c]).length, false⟩) := by
  have hcalm : [opens part].any breaks = false := by cases part <;> rfl
  have hcalm' : (closes part :: uri).any breaks = false := by
    have hrest : uri.any breaks = false := by
      rw [List.any_eq_false]
      intro a ha
      rw [huri a ha]
      decide
    rw [List.any_cons, hrest]
    cases part <;> rfl
  exact hwithin.sweep_through hC hr hstep hin havoids hw hc hout hcalm hcalm'

theorem sweep_path {w : List UInt8} {c : UInt8} {s' : State Action} {uri : List Action}
    (hslash : w.head? = some (byte '/')) (hw : (Grammar.relativePart false).accepts w = true)
    (hc : c ∈ bytes " ?#") (hout : wayOut pathContext c = some (s', .requestPath :: uri))
    (huri : ∀ a ∈ uri, a = .requestUri) :
    sweep breaks (requested "GET ") 0 (w ++ [c]) =
      ([(opens .path, 0), (closes .path, w.length)] ++ uri.map fun a => (a, w.length),
        ⟨some s', (w ++ [c]).length, false⟩) := by
  rcases w with _ | ⟨b, w⟩
  · cases hslash
  cases Option.some.inj hslash
  apply sweep_part .path frame_pathContext (TargetSteps.plain targetSteps).1 hw
    (LineSteps.slash lineSteps) _ (fun b => (deriv_contexts b).1)
    (TargetSteps.avoids targetSteps).1 hc hout huri
  intro x
  simp [reach_singleton]

theorem sweep_query {w : List UInt8} {c : UInt8} {s' : State Action}
    (hw : parts.accepts w = true) (hc : c ∈ bytes " #")
    (hout : wayOut queryContext c = some (s', [.queryString, .requestUri]))
    (hempty : step queryStart c = some (s', [.startQuery, .queryString, .requestUri])) :
    sweep breaks queryStart 0 (w ++ [c]) =
      ([(opens .query, 0), (closes .query, w.length)] ++ [.requestUri].map fun a => (a, w.length),
        ⟨some s', (w ++ [c]).length, false⟩) := by
  rcases w with _ | ⟨b, w⟩
  · rw [List.nil_append, sweep_calm hempty rfl]
    rfl
  have havoids := (TargetSteps.avoids targetSteps).2
  have hb : b ∉ bytes " #" := fun hb =>
    not_mem_of_accepts (havoids b hb) hw List.mem_cons_self
  rcases Ragel.Within.entry frame_targetContext (D := leave line.queryString .queryString)
    (x := seq (leave line.startQuery .startQuery eps) (leave line.queryString .queryString parts))
    [(line.startQuery, .startQuery)] (TargetSteps.plain targetSteps).2 (deriv_of_accepts hw)
    ((deriv_contexts b).2.1 hb).1 (by simp [Expr.deriv, null, Function.comp_def])
    (by simp) (by simp)
    with ⟨s₁, hstep, hwithin⟩
  exact sweep_part .query frame_queryContext (TargetSteps.plain targetSteps).2 hw hstep hwithin
    (fun b hb => ((deriv_contexts b).2.1 hb).2) havoids hc hout (by simp)

theorem sweep_fragment {w : List UInt8} (hw : parts.accepts w = true) :
    sweep breaks fragmentStart 0 (w ++ bytes " ") =
      ([(opens .fragment, 0), (closes .fragment, w.length)] ++
          ([] : List Action).map fun a => (a, w.length),
        ⟨some (requested "GET / "), (w ++ bytes " ").length, false⟩) := by
  rcases w with _ | ⟨b, w⟩
  · rw [List.nil_append, show bytes " " = [byte ' '] from rfl,
      sweep_calm (TargetSteps.empty targetSteps).2.2 rfl]
    rfl
  have havoids : ∀ c ∈ bytes " ", parts.avoids c = true := fun c hc =>
    (TargetSteps.avoids targetSteps).2 c (List.mem_append_left (bytes "#") hc)
  have hb : b ∉ bytes " " := fun hb =>
    not_mem_of_accepts (havoids b hb) hw List.mem_cons_self
  rcases Ragel.Within.entry frame_fragmentContext (D := id) (x := enter line.mark .mark parts)
    [(line.mark, .mark)] (TargetSteps.plain targetSteps).2 (deriv_of_accepts hw)
    ((deriv_contexts b).2.2 hb)
    (by simp [Expr.deriv]) (by simp) (by simp) with ⟨s₁, hstep, hwithin⟩
  exact sweep_part .fragment frame_fragmentContext (TargetSteps.plain targetSteps).2 hw hstep hwithin
    (fun b => (deriv_contexts b).2.2) havoids (List.mem_singleton_self _)
    (TargetSteps.wayOut targetSteps).2.2.2.2.2 nofun

end Target

section Line

theorem mem_httpMethodMap (m : HttpMethod) : (m, httpMethodToString m) ∈ httpMethodMap := by
  cases m <;> decide

theorem charsToHttpMethod_name : ∀ e ∈ httpMethodMap, e.1 ≠ .msearch →
    Grammar.Method.accepts e.2 = true ∧
      charsToHttpMethod (e.2 ++ bytes " ") = some (some e.1) := by
  decide +kernel

end Line

section Header

/-- A name that the machine can take for nothing else: a line end in front would end the head. -/
structure IsName (name : List UInt8) : Prop where
  token : Grammar.fieldName.accepts name = true
  newline : ¬bytes "\n" <+: name
  crlf : ¬bytes "\r\n" <+: name

/-- A value without control bytes that starts with a visible one. -/
structure IsValue (value : List UInt8) : Prop where
  ne_nil : value ≠ []
  text : ∀ b ∈ value, 32 ≤ b.toNat ∧ b ≠ 127
  start : value.head? ≠ some (byte ' ')

theorem token_of_isName {name : List UInt8} (h : IsName name) :
    name ≠ [] ∧ ∀ b ∈ name, tokenCls.mem b = true := by
  have htoken := h.token
  rw [Grammar.fieldName, leaving, entering, accepts_leave, accepts_enter,
    show Grammar.token = cls tokenCls from rfl, accepts_plus_cls] at htoken
  simpa using htoken

theorem sweep_name {name : List UInt8} (h : IsName name) :
    ∃ s, (s = headed "a" ∨ s = headed "\r") ∧ ∀ p rest,
      sweep breaks (headed "") p (name ++ rest) =
        ((.startField, p) :: (sweep breaks s (p + name.length) rest).1,
          (sweep breaks s (p + name.length) rest).2) := by
  rcases token_of_isName h with ⟨hne, htoken⟩
  rcases List.exists_cons_of_ne_nil hne with ⟨b, w, rfl⟩
  rw [List.forall_mem_cons] at htoken
  have hloop {w : List UInt8} (hw : ∀ b ∈ w, tokenCls.mem b = true) (p : ℕ) (rest : List UInt8) :
      sweep breaks (headed "a") p (w ++ rest) = sweep breaks (headed "a") (p + w.length) rest :=
    sweep_loop fun b hb => step_header (by decide) (hw b hb)
  by_cases hcr : b = byte '\r'
  · have hstep : step (headed "") b = some (headed "\r", [.startField]) := by
      rw [hcr]
      exact step_header (c := Grammar.chr '\r') (by decide) (by decide)
    cases w with
    | nil =>
      refine ⟨headed "\r", .inr rfl, ?_⟩
      intro p rest
      rw [List.cons_append, sweep_calm hstep rfl]
      rfl
    | cons c w =>
      rw [List.forall_mem_cons] at htoken
      have hlf : c ≠ byte '\n' := by
        rintro rfl
        exact h.crlf ⟨w, by rw [hcr]; rfl⟩
      have hstep' : step (headed "\r") c = some (headed "a", []) := by
        apply step_header (c := .diff tokenCls (Grammar.chr '\n')) (by decide)
        rw [Cls.mem, htoken.2.1, Grammar.mem_chr, decide_eq_false hlf]
        rfl
      refine ⟨headed "a", .inl rfl, ?_⟩
      intro p rest
      have hplace : p + 1 + 1 + w.length = p + (b :: c :: w).length := by
        simp only [List.length_cons]
        omega
      rw [List.cons_append, List.cons_append, sweep_calm hstep rfl, sweep_calm hstep' rfl,
        hloop htoken.2.2, hplace]
      rfl
  · have hstep : step (headed "") b = some (headed "a", [.startField]) := by
      have hlf : b ≠ byte '\n' := by
        rintro rfl
        exact h.newline ⟨w, rfl⟩
      apply step_header (c := .diff tokenCls (Grammar.oneOf "\r\n")) (by decide)
      have hnot : (Grammar.oneOf "\r\n").mem b = false := by
        rw [Bool.eq_false_iff, ne_eq, Grammar.mem_oneOf]
        simp [bytes, hcr, hlf]
      rw [Cls.mem, htoken.1, hnot]
      rfl
    refine ⟨headed "a", .inl rfl, ?_⟩
    intro p rest
    rw [List.cons_append, sweep_calm hstep rfl, hloop htoken.2, Nat.add_assoc, Nat.add_comm 1]
    rfl

/-- What can stand between the colon and the line end. -/
def IsRaw (raw : List UInt8) : Prop := ∀ b ∈ raw, blank.mem b = true ∨ solid.mem b = true

/-- The value without the blanks in front of it, and these blanks. -/
def trimmed (raw : List UInt8) : List UInt8 := raw.dropWhile blank.mem
def margin (raw : List UInt8) : List UInt8 := raw.takeWhile blank.mem

theorem margin_append_trimmed (raw : List UInt8) : margin raw ++ trimmed raw = raw :=
  List.takeWhile_append_dropWhile

theorem solid_of_not_blank {raw : List UInt8} (h : IsRaw raw) {b : UInt8} {w : List UInt8}
    (htrimmed : trimmed raw = b :: w) : solid.mem b = true := by
  have hmem : b ∈ raw := by
    apply (List.dropWhile_sublist blank.mem).subset
    rw [show raw.dropWhile blank.mem = b :: w from htrimmed]
    exact List.mem_cons_self
  have hhead : ¬blank.mem b = true := by
    have hfirst := List.head?_dropWhile_not blank.mem raw
    rw [show raw.dropWhile blank.mem = b :: w from htrimmed] at hfirst
    simpa using hfirst
  exact (h b hmem).resolve_left hhead

/-- The blanks in front of a value: it starts anew at each of them. -/
theorem sweep_margin {w : List UInt8} (h : ∀ b ∈ w, blank.mem b = true) {s : String}
    (hs : s ∈ valueStarts) :
    ∃ s' ∈ valueStarts, ∀ p rest, sweep breaks (headed s) p (w ++ rest) =
      ((List.range' p w.length).map (fun q => (.startValue, q)) ++
          (sweep breaks (headed s') (p + w.length) rest).1,
        (sweep breaks (headed s') (p + w.length) rest).2) := by
  induction w generalizing s with
  | nil => exact ⟨s, hs, fun _ _ => rfl⟩
  | cons b w ih =>
    rw [List.forall_mem_cons] at h
    have hlead : ∀ s ∈ valueStarts, (s, blank, "a: ", [.startValue]) ∈ headerSteps := by decide
    have hstep := step_header (hlead s hs) h.1
    rcases ih h.2 (s := "a: ") (by decide) with ⟨s', hs', hsweep⟩
    refine ⟨s', hs', ?_⟩
    intro p rest
    rw [List.cons_append, sweep_calm hstep rfl, hsweep, List.length_cons, List.range'_succ,
      Nat.add_assoc p, Nat.add_comm 1]
    rfl

/-- Inside a value the machine forgets everything but whether it is behind a blank. -/
theorem sweep_text {w : List UInt8} (h : IsRaw w) {s : String} (hs : s ∈ valueEnds) :
    ∃ s' ∈ valueEnds, ∀ p rest,
      sweep breaks (headed s) p (w ++ rest) = sweep breaks (headed s') (p + w.length) rest := by
  have hblank : ∀ s ∈ valueEnds, (s, blank, "a: b ", []) ∈ headerSteps := by decide
  have hsolid : ∀ s ∈ valueEnds, (s, solid, "a: b", []) ∈ headerSteps := by decide
  have hstay : ∀ x, (∃ s ∈ valueEnds, x = headed s) → ∀ b ∈ w,
      ∃ x', (∃ s ∈ valueEnds, x' = headed s) ∧ step x b = some (x', []) := by
    rintro x ⟨s, hs, rfl⟩ b hb
    rcases h b hb with hb | hb
    · exact ⟨_, ⟨_, by decide, rfl⟩, step_header (hblank s hs) hb⟩
    · exact ⟨_, ⟨_, by decide, rfl⟩, step_header (hsolid s hs) hb⟩
  rcases sweep_among hstay ⟨s, hs, rfl⟩ with ⟨_, ⟨s', hs', rfl⟩, hsweep⟩
  exact ⟨s', hs', hsweep breaks⟩

/-- What stands behind the colon: the last place where the value is taken to start is its first byte,
or the line end if there is none. -/
theorem sweep_raw {raw n : List UInt8} (h : IsRaw raw) (hn : n ∈ newlines) (p : ℕ) :
    sweep breaks (headed "a:") p (raw ++ n) =
      ((List.range' p ((margin raw).length + 1)).map (fun q => (.startValue, q)) ++
          [(.writeValue, p + raw.length)],
        ⟨some (headed ""), p + raw.length + n.length, false⟩) := by
  have hblank : ∀ b ∈ margin raw, blank.mem b = true := fun b hb => List.mem_takeWhile_imp hb
  have hsplit := margin_append_trimmed raw
  rcases sweep_margin hblank (s := "a:") (by decide) with ⟨s, hs, hsweep⟩
  rw [List.range'_concat, List.map_append, Nat.one_mul]
  cases htrimmed : trimmed raw with
  | nil =>
    rw [htrimmed, List.append_nil] at hsplit
    rw [hsplit] at hsweep ⊢
    rw [hsweep, sweep_at (HeadSteps.empty headSteps s hs n hn), List.append_assoc]
    rfl
  | cons b w =>
    have hlead : ∀ s ∈ valueStarts, (s, solid, "a: b", [.startValue]) ∈ headerSteps := by decide
    have hfirst := step_header (hlead s hs) (solid_of_not_blank h htrimmed)
    rw [htrimmed] at hsplit
    have hw : IsRaw w := by
      intro c hc
      apply h
      rw [← hsplit]
      exact List.mem_append_right _ (List.mem_cons_of_mem _ hc)
    rcases sweep_text hw (s := "a: b") (by decide) with ⟨s', hs', hsweep'⟩
    have hplace : p + (margin raw).length + 1 + w.length = p + raw.length := by
      have hlen := congrArg List.length hsplit
      rw [List.length_append, List.length_cons] at hlen
      omega
    have htext : raw ++ n = margin raw ++ b :: (w ++ n) := by
      conv_lhs => rw [← hsplit]
      rw [List.append_assoc, List.cons_append]
    rw [htext, hsweep, sweep_calm hfirst rfl, hsweep', hplace,
      sweep_at (HeadSteps.newline headSteps s' hs' n hn), List.append_assoc]
    rfl

/-- A header line with any blanks in front of its value and either line end. -/
theorem sweep_line {name raw n : List UInt8} (hname : IsName name) (hraw : IsRaw raw)
    (hn : n ∈ newlines) :
    sweep breaks (headed "") 0 (name ++ byte ':' :: (raw ++ n)) =
      ((.startField, 0) :: (.writeField, name.length) ::
          ((List.range' (name.length + 1) ((margin raw).length + 1)).map
              (fun q => (.startValue, q)) ++
            [(.writeValue, name.length + 1 + raw.length)]),
        ⟨some (headed ""), (name ++ byte ':' :: (raw ++ n)).length, false⟩) := by
  rcases sweep_name hname with ⟨s, hs, hsweep⟩
  have hcolon : step s (byte ':') = some (headed "a:", [.writeField]) := by
    rcases hs with rfl | rfl
    · exact step_header (c := Grammar.chr ':') (by decide) (by decide)
    · exact step_header (c := Grammar.chr ':') (by decide) (by decide)
  have hlen : name.length + 1 + raw.length + n.length = (name ++ byte ':' :: (raw ++ n)).length := by
    simp only [List.length_append, List.length_cons]
    omega
  rw [hsweep, sweep_calm hcolon rfl, sweep_raw hraw hn, Nat.zero_add, hlen]
  rfl

end Header

end Sylar.Http.RequestText
