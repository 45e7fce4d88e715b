import Sylar.Http.Connection
import Sylar.Http.Segments

/-! # Heads that come in one piece

A parser that accepts a head reads nothing behind it. So what `execute` makes of a head does
not depend on the bytes that follow it in the buffer, neither on those of the message nor on
what the memory held before.
-/
namespace Sylar.Http
open Memory Ragel
open Sylar.Stream (toInt toSize toInt_eq_self_iff toSize_of_nonneg)

section Reads

variable {m : List UInt8} (more : List UInt8)

theorem strncmp_longer {l : List UInt8} {n : ℕ} {r : Bool} (h : strncmp l m n = some r) :
    strncmp l (m ++ more) n = some r := by
  induction m generalizing l n with
  | nil =>
    cases n with
    | zero =>
      rw [strncmp] at h ⊢
      exact h
    | succ n => cases l <;> cases h
  | cons b m ih =>
    cases n with
    | zero =>
      rw [strncmp] at h ⊢
      exact h
    | succ n =>
      cases l with
      | nil => exact h
      | cons c l =>
        rw [List.cons_append, strncmp]
        rw [strncmp] at h
        by_cases hcb : c = b
        · rw [if_pos hcb] at h ⊢
          exact ih h
        · rw [if_neg hcb] at h ⊢
          exact h

theorem charsToHttpMethod_longer {r : Option HttpMethod} (h : charsToHttpMethod m = some r) :
    charsToHttpMethod (m ++ more) = some r := by
  rw [charsToHttpMethod] at h ⊢
  generalize httpMethodMap = names at h ⊢
  induction names with
  | nil => exact h
  | cons entry rest ih =>
    rw [charsToHttpMethod.go] at h ⊢
    cases hcmp : strncmp entry.2 m entry.2.length with
    | none => simp [hcmp] at h
    | some b =>
      rw [hcmp] at h
      rw [strncmp_longer more hcmp]
      cases b with
      | true => exact h
      | false => exact ih h

theorem readDigits_digits {base : ℕ} {ds : List UInt8} (h : ∀ b ∈ ds, isDigit base b = true)
    {c : UInt8} (hc : isDigit base c = false) (rest : List UInt8) (n : ℕ) :
    readDigits base n (ds ++ c :: rest) =
      some (ds.foldl (fun n b => n * base + (digitValue b).getD 0) n) := by
  induction ds generalizing n with
  | nil => rw [List.nil_append, readDigits, hc, if_neg Bool.false_ne_true, List.foldl_nil]
  | cons b ds ih =>
    rw [List.forall_mem_cons] at h
    rw [List.cons_append, readDigits, h.1, if_pos rfl, ih h.2, List.foldl_cons]

theorem readDigits_longer {base acc n : ℕ} (h : readDigits base acc m = some n) :
    readDigits base acc (m ++ more) = some n := by
  induction m generalizing acc with
  | nil => cases h
  | cons b m ih =>
    rw [List.cons_append, readDigits]
    rw [readDigits] at h
    by_cases hb : isDigit base b = true
    · rw [if_pos hb] at h ⊢
      exact ih h
    · rw [if_neg hb] at h ⊢
      exact h

theorem readDigits_skipMark_longer {base n : ℕ} (h : readDigits base 0 (skipMark base m) = some n) :
    readDigits base 0 (skipMark base (m ++ more)) = some n := by
  match m with
  | [] => cases h
  | [b] =>
    change (if isDigit base b then none else some 0) = some n at h
    by_cases hb : isDigit base b = true
    · rw [if_pos hb] at h
      cases h
    · rw [if_neg hb] at h
      have hskip : skipMark base ([b] ++ more) = b :: more := by
        cases more with
        | nil => rfl
        | cons c more =>
          apply if_neg
          rintro ⟨rfl, rfl, -⟩
          exact hb (by decide)
      rw [hskip, readDigits, if_neg hb]
      exact h
  | b :: c :: bs =>
    rw [List.cons_append, List.cons_append, skipMark]
    rw [skipMark] at h
    by_cases hmark : base = 16 ∧ b = byte '0' ∧ (c = byte 'x' ∨ c = byte 'X')
    · rw [if_pos hmark] at h ⊢
      exact readDigits_longer more h
    · rw [if_neg hmark] at h ⊢
      exact readDigits_longer more h

theorem strtol_longer {base : ℕ} {z : ℤ} (h : strtol base m = some z) :
    strtol base (m ++ more) = some z := by
  rw [strtol] at h ⊢
  rw [List.dropWhile_append]
  cases hdrop : m.dropWhile isSpace with
  | nil => simp [hdrop] at h
  | cons b bs =>
    rw [hdrop] at h
    rw [List.isEmpty_cons, if_neg Bool.false_ne_true, List.cons_append]
    dsimp only at h ⊢
    have hread {m : List UInt8} {f : ℕ → ℤ}
        (h : (readDigits base 0 (skipMark base m)).map f = some z) :
        (readDigits base 0 (skipMark base (m ++ more))).map f = some z := by
      obtain ⟨n, hn, rfl⟩ := Option.map_eq_some_iff.mp h
      rw [readDigits_skipMark_longer more hn]
      rfl
    by_cases hminus : b = byte '-'
    · rw [if_pos hminus] at h ⊢
      exact hread h
    · rw [if_neg hminus] at h ⊢
      by_cases hplus : b = byte '+'
      · rw [if_pos hplus] at h ⊢
        exact hread h
      · rw [if_neg hplus] at h ⊢
        exact hread h

theorem strtolInt_longer {base : ℕ} {z : ℤ} (h : strtolInt base m = some z) :
    strtolInt base (m ++ more) = some z := by
  obtain ⟨n, hn, rfl⟩ := Option.map_eq_some_iff.mp h
  rw [strtolInt, strtol_longer more hn]
  rfl

theorem stdString_longer {σ : Type} (start length : ℕ) :
    Command.Extends (stdString m start length : Command Exception σ _)
      (stdString (m ++ more) start length) := by
  intro x s x' h
  rw [stdString, Command.ite_apply, Command.ite_apply] at h ⊢
  split_ifs at h with hmax hin
  · cases h
  · rw [if_neg hmax, if_pos (by rw [List.length_append]; omega),
      List.drop_append_of_le_length (by omega),
      List.take_append_of_le_length (by rw [List.length_drop]; omega)]
    exact h
  · cases h

theorem readVersion_longer {n : ℕ} {r : Option UInt8} (h : readVersion m n = some r) :
    readVersion (m ++ more) n = some r := by
  rw [readVersion] at h ⊢
  cases h₁ : strncmp (bytes "HTTP/1.1") m n with
  | none => simp [h₁] at h
  | some b =>
    rw [h₁] at h
    rw [strncmp_longer more h₁]
    cases b with
    | true => exact h
    | false =>
      obtain ⟨b, h₀, hr⟩ := Option.map_eq_some_iff.mp h
      exact Option.map_eq_some_iff.mpr ⟨b, strncmp_longer more h₀, hr⟩

theorem stdString_middle {σ : Type} {s : σ} {a w z : List UInt8} (hw : w.length ≤ maxSize) {i n : ℕ}
    (hi : a.length = i) (hn : w.length = n) : stdString (a ++ w ++ z) i n s = .done w s := by
  rw [stdString, Command.ite_apply, if_neg (by omega), Command.ite_apply, if_pos (by
      rw [List.length_append, List.length_append]
      omega), ← hi, List.append_assoc, List.drop_left, ← hn, List.take_left]
  rfl

end Reads

section Transfer

variable (m : List UInt8) (p : ℕ) (more : List UInt8)

/-- What a request action makes of a memory it makes of a longer one. -/
theorem action_longer (a : Action) : Command.Extends (action m a p) (action (m ++ more) a p) := by
  refine (Command.Extends.refl _).bind fun v => ?_
  have htext {α : Type} (start length : ℕ) (f : List UInt8 → Parse α) :
      Command.Extends (stdString m start length >>= f) (stdString (m ++ more) start length >>= f) :=
    (stdString_longer more start length).bind fun _ => .refl _
  cases a with
  | writeValue => exact .ite (.refl _) ((stdString_longer more _ _).bind fun _ => htext _ _ _)
  | requestMethod =>
    dsimp only [onRequestMethod]
    rw [List.drop_append]
    cases hm : charsToHttpMethod (m.drop v.parser.mark) with
    | none => exact .abort _ _
    | some r =>
      rw [charsToHttpMethod_longer _ hm]
      exact .refl _
  | fragment => exact htext _ _ _
  | requestPath => exact htext _ _ _
  | queryString =>
    dsimp only
    cases v.parser.queryStart with
    | none => exact .refl _
    | some q => exact htext _ _ _
  | httpVersion =>
    dsimp only
    rw [onRequestVersion_eq, onRequestVersion_eq, List.drop_append]
    cases hversion : readVersion (m.drop v.parser.mark) (len p v.parser.mark) with
    | none => exact .abort _ _
    | some r =>
      rw [readVersion_longer _ hversion]
      exact .refl _
  | _ => exact .refl _

theorem onResponseVersion_eq (start length : ℕ) :
    onResponseVersion m start length = match readVersion (m.drop start) length with
      | none => Command.abort .outOfBounds
      | some none => Command.modify (·.setError 1001)
      | some (some v) => Command.modify (·.onData (·.setVersion v)) := by
  rw [onResponseVersion, readVersion]
  rcases strncmp (bytes "HTTP/1.1") (m.drop start) length with _ | _ | _
  · rfl
  · rcases strncmp (bytes "HTTP/1.0") (m.drop start) length with _ | _ | _ <;> rfl
  · rfl

/-- What a response action makes of a memory it makes of a longer one. -/
theorem clientAction_longer (a : ClientAction) :
    Command.Extends (clientAction m a p) (clientAction (m ++ more) a p) := by
  refine (Command.Extends.refl _).bind fun v => ?_
  have htext {α : Type} (start length : ℕ) (f : List UInt8 → ClientParse α) :
      Command.Extends (stdString m start length >>= f) (stdString (m ++ more) start length >>= f) :=
    (stdString_longer more start length).bind fun _ => .refl _
  have hint (base start : ℕ) (f : ℤ → ClientParse Unit) :
      Command.Extends (readInt m base start >>= f) (readInt (m ++ more) base start >>= f) := by
    refine Command.Extends.bind ?_ fun _ => .refl _
    rw [readInt, readInt, List.drop_append]
    cases hz : strtolInt base (m.drop start) with
    | none => exact .abort _ _
    | some n =>
      rw [strtolInt_longer _ hz]
      exact .refl _
  cases a with
  | writeValue => exact .ite (.refl _) ((stdString_longer more _ _).bind fun _ => htext _ _ _)
  | reasonPhrase => exact htext _ _ _
  | statusCode => exact hint _ _ _
  | writeContentLen => exact hint _ _ _
  | chunkSize => exact hint _ _ _
  | httpVersion =>
    dsimp only
    rw [onResponseVersion_eq, onResponseVersion_eq, List.drop_append]
    cases hversion : readVersion (m.drop v.parser.mark) (len p v.parser.mark) with
    | none => exact .abort _ _
    | some r =>
      rw [readVersion_longer _ hversion]
      exact .refl _
  | _ => exact .refl _

end Transfer

/-- Reading a text changes nothing. -/
theorem stdString_ensures {σ : Type} {P : σ → Prop} {m : List UInt8} {start length : ℕ} :
    Command.Ensures P (stdString m start length) fun _ => P :=
  .ite (.raise _) (.ite (.pure fun _ h => h) (.abort _))

theorem len_le {p start : ℕ} (h : start ≤ p) : len p start ≤ p := by
  rw [len]
  omega

section Accepted

variable {A V : Type} {n : ℕ} {error : V → ℕ} {keep : Halt A → V → V}
  {out : Outcome Exception V (Halt A)} {w : V}

/-- What a machine keeps that breaks right behind `n` bytes, in a final state and without an
error. -/
def accepted (n : ℕ) (error : V → ℕ) (keep : Halt A → V → V) :
    Outcome Exception V (Halt A) → Option V
  | .done ⟨some s, p, true⟩ v =>
    if final s = true ∧ p = n ∧ error v = 0 then some (keep ⟨some s, p, true⟩ v) else none
  | _ => none

theorem accepted_eq (h : accepted n error keep out = some w) :
    ∃ s v, out = .done ⟨some s, n, true⟩ v ∧ final s = true ∧ error v = 0 ∧
      w = keep ⟨some s, n, true⟩ v := by
  rw [accepted.eq_def] at h
  split at h
  case h_1 s p v =>
    by_cases hok : final s = true ∧ p = n ∧ error v = 0
    · rw [if_pos hok] at h
      obtain ⟨hfinal, rfl, herror⟩ := hok
      exact ⟨s, v, rfl, hfinal, herror, (Option.some.inj h).symm⟩
    · rw [if_neg hok] at h
      cases h
  case h_2 => cases h

end Accepted

section RequestHead

namespace HttpParser

/-- The registers while the actions at place `p` are executed. -/
structure Upto (p : ℕ) (h : HttpParser) : Prop where
  mark : h.mark ≤ p
  fieldStart : h.fieldStart ≤ p
  fieldLen : h.fieldLen ≤ p
  bodyStart : h.bodyStart ≤ p
  nread : h.nread = 0
  cs : h.cs.isSome = true

/-- The registers when the machine has stopped after `n` bytes. -/
structure Within (n : ℕ) (h : HttpParser) : Prop extends Inside n h where
  nread : h.nread = 0
  cs : h.cs.isSome = true

theorem Upto.next {p : ℕ} {h : HttpParser} (hu : Upto p h) : Upto (p + 1) h :=
  ⟨hu.mark.trans (Nat.le_succ p), hu.fieldStart.trans (Nat.le_succ p),
    hu.fieldLen.trans (Nat.le_succ p), hu.bodyStart.trans (Nat.le_succ p), hu.nread, hu.cs⟩

end HttpParser

variable {m : List UInt8} {p : ℕ} {v v' : HttpRequestParser}

theorem action_stay (m : List UInt8) (a : Action) (p : ℕ) (ha : breaks a = false) :
    Command.Ensures (fun v => v.parser.Upto p) (action m a p) fun _ v => v.parser.Upto p := by
  have htext {start length : ℕ} {f : List UInt8 → HttpRequest → HttpRequest} :
      Command.Ensures (fun v : HttpRequestParser => v.parser.Upto p)
        (stdString m start length >>= fun s => Command.modify (·.onData (f s)))
        fun _ v => v.parser.Upto p :=
    stdString_ensures.bind fun _ => .modify fun _ hu => hu
  refine .state_bind fun v => ?_
  cases a with
  | done => cases ha
  | mark | startValue => exact .modify fun _ hu => { hu with mark := le_rfl }
  | startField => exact .modify fun _ hu => { hu with fieldStart := le_rfl }
  | writeField => exact .modify fun _ hu => { hu with fieldLen := len_le hu.fieldStart }
  | writeValue => exact .ite (.pure fun _ hu => hu) (stdString_ensures.bind fun _ => htext)
  | requestMethod =>
    dsimp only [onRequestMethod]
    rcases charsToHttpMethod _ with _ | _ | method
    · exact .abort _
    · exact .modify fun _ hu => hu
    · exact .modify fun _ hu => hu
  | requestUri => exact .pure fun _ hu => hu
  | fragment | requestPath => exact htext
  | queryString =>
    dsimp only
    cases v.parser.queryStart with
    | none => exact .abort _
    | some q => exact htext
  | httpVersion =>
    dsimp only
    rw [onRequestVersion_eq]
    rcases readVersion _ _ with _ | _ | version
    · exact .abort _
    · exact .modify fun _ hu => hu
    · exact .modify fun _ hu => hu
  | startQuery | xml | json => exact .modify fun _ hu => { hu with }

theorem action_break (m : List UInt8) (a : Action) (p : ℕ) (ha : breaks a = true) :
    Command.Ensures (fun v => v.parser.Upto p) (action m a p)
      fun _ v => v.parser.Within (p + 1) := by
  have hlt {k : ℕ} (hk : k ≤ p) : k < p + 1 := Nat.lt_succ_of_le hk
  refine .state_bind fun v => ?_
  cases a with
  | done =>
    have hwithin {h h' : HttpParser} (hu : h.Upto p) (hbody : h'.bodyStart ≤ p + 1)
        (hh' : h' = { h with bodyStart := h'.bodyStart, contentLen := h'.contentLen }) :
        h'.Within (p + 1) := by
      rw [hh']
      exact ⟨⟨hbody, hlt hu.mark, (hlt hu.fieldLen).le, hlt hu.fieldStart⟩, hu.nread, hu.cs⟩
    exact .ite (.modify fun _ hu => hwithin hu (hlt hu.mark).le rfl)
      (.bind (.modify fun _ hu => hwithin hu le_rfl rfl) fun _ => .modify fun _ hw => hw)
  | _ => cases ha

/-- The parser after a head, if the head is accepted without an error. -/
def requestHead (relaxed : Bool) (head : List UInt8) : Option HttpRequestParser :=
  accepted head.length HttpRequestParser.error (fun halt v => v.onParser (HttpParser.keep 0 halt))
    (exec breaks (action head) (start (Grammar.main relaxed)) 0 head (.fresh relaxed))

section

variable {relaxed : Bool} {head : List UInt8}

theorem requestHead_eq (h : requestHead relaxed head = some v) :
    ∃ s v₀, exec breaks (action head) (start (Grammar.main relaxed)) 0 head (.fresh relaxed) =
        .done ⟨some s, head.length, true⟩ v₀ ∧
      final s = true ∧ v₀.error = 0 ∧ v = v₀.onParser (.keep 0 ⟨some s, head.length, true⟩) :=
  accepted_eq h

theorem requestHead_ne_nil (h : requestHead relaxed head = some v) : head ≠ [] := by
  rintro rfl
  obtain ⟨s, v₀, hexec, -⟩ := requestHead_eq h
  cases hexec

theorem requestHead_within {s : State Action} {v₀ : HttpRequestParser}
    (h : exec breaks (action head) (start (Grammar.main relaxed)) 0 head (.fresh relaxed) =
      .done ⟨some s, head.length, true⟩ v₀) : v₀.parser.Within head.length :=
  exec_bounds (R := fun p v => v.parser.Upto p) (S := fun n v => v.parser.Within n)
    (action_stay head) (action_break head) (fun _ _ hu => hu.next) _ _ _ _ _ _
    ⟨le_rfl, le_rfl, le_rfl, le_rfl, rfl, rfl⟩ h rfl

/-- The call that is given a head, and perhaps more. -/
theorem execute_requestHead (h : requestHead relaxed head = some v) {y : List UInt8}
    (hlen : (head ++ y).length < 2 ^ 31) (junk : List UInt8) :
    HttpRequestParser.execute (head ++ y ++ junk) (head ++ y).length (.fresh relaxed) =
      .done (head.length, memmove (head ++ y ++ junk) (head ++ y).length head.length) v := by
  obtain ⟨s, v₀, hexec, -, -, rfl⟩ := requestHead_eq h
  have hw := requestHead_within hexec
  have hle : head.length ≤ (head ++ y).length := by rw [List.length_append]; omega
  have hlonger (a : Action) (p : ℕ) :
      Command.Extends (action head a p) (action (head ++ y ++ junk) a p) := by
    rw [List.append_assoc]
    exact action_longer _ _ _ a
  have hrun := exec_transfer hlonger hexec rfl y
  rw [exec_apply] at hrun
  obtain ⟨_, v₁, hperform, hhalt⟩ := Command.bind_eq_done.mp hrun
  rw [Command.pure_apply, Outcome.done.injEq] at hhalt
  obtain ⟨hhalt, rfl⟩ := hhalt
  have hcall := httpParserExecute_apply (v := .fresh relaxed) rfl
    (List.append_ne_nil_of_left_ne_nil (requestHead_ne_nil h) y) hlen hperform hw.nread
    ⟨hw.bodyStart.trans hle, hw.mark.trans_le hle, hw.fieldLen.trans hle, hw.fieldStart.trans_le hle⟩
  rw [hhalt] at hcall
  rw [HttpRequestParser.execute, Command.bind_done hcall]
  rfl

theorem requestHead_finished (h : requestHead relaxed head = some v) :
    v.hasError = false ∧ v.isFinished = true := by
  obtain ⟨s, v₀, hexec, hfinal, herror, rfl⟩ := requestHead_eq h
  have hcs : (v₀.onParser (.keep 0 ⟨some s, head.length, true⟩)).parser.cs = some s :=
    if_pos (requestHead_within hexec).cs
  constructor
  · rw [HttpRequestParser.hasError, hcs]
    change (decide (v₀.error ≠ 0) || _) = false
    rw [herror]
    rfl
  · rw [HttpRequestParser.isFinished, hcs]
    exact hfinal

end

end RequestHead

section ResponseHead

namespace HttpclientParser

/-- The registers while the actions at place `p` are executed. -/
structure Upto (p : ℕ) (h : HttpclientParser) : Prop where
  mark : h.mark ≤ p
  fieldStart : h.fieldStart ≤ p
  fieldLen : h.fieldLen ≤ p
  bodyStart : h.bodyStart ≤ p
  nread : h.nread = 0
  cs : h.cs.isSome = true

/-- The registers when the machine has stopped after `n` bytes. -/
structure Within (n : ℕ) (h : HttpclientParser) : Prop where
  mark : h.mark < n
  fieldStart : h.fieldStart < n
  fieldLen : h.fieldLen ≤ n
  bodyStart : h.bodyStart ≤ n
  nread : h.nread = 0
  cs : h.cs.isSome = true

variable {n p : ℕ} {h : HttpclientParser}

theorem Upto.next (hu : Upto p h) : Upto (p + 1) h :=
  ⟨hu.mark.trans (Nat.le_succ p), hu.fieldStart.trans (Nat.le_succ p),
    hu.fieldLen.trans (Nat.le_succ p), hu.bodyStart.trans (Nat.le_succ p), hu.nread, hu.cs⟩

theorem Within.mono {n' : ℕ} (hw : Within n h) (hn : n ≤ n') : Within n' h :=
  ⟨hw.mark.trans_le hn, hw.fieldStart.trans_le hn, hw.fieldLen.trans hn, hw.bodyStart.trans hn,
    hw.nread, hw.cs⟩

theorem Within.inside (hw : Within n h) : h.inside n = true := by
  rw [HttpclientParser.inside, decide_eq_true hw.mark, decide_eq_true hw.fieldLen,
    decide_eq_true hw.fieldStart]
  rfl

end HttpclientParser

variable {m : List UInt8} {p : ℕ} {v v' : HttpResponseParser}

theorem clientAction_stay (m : List UInt8) (a : ClientAction) (p : ℕ) (ha : clientBreaks a = false) :
    Command.Ensures (fun v => v.parser.Upto p) (clientAction m a p)
      fun _ v => v.parser.Upto p := by
  have htext {start length : ℕ} {f : List UInt8 → HttpResponse → HttpResponse} :
      Command.Ensures (fun v : HttpResponseParser => v.parser.Upto p)
        (stdString m start length >>= fun s => Command.modify (·.onData (f s)))
        fun _ v => v.parser.Upto p :=
    stdString_ensures.bind fun _ => .modify fun _ hu => hu
  have hint {base start : ℕ} {f : ℤ → HttpResponseParser → HttpResponseParser}
      (hf : ∀ z v, v.parser.Upto p → (f z v).parser.Upto p) :
      Command.Ensures (fun v : HttpResponseParser => v.parser.Upto p)
        (readInt m base start >>= fun z => Command.modify (f z)) fun _ v => v.parser.Upto p := by
    refine .bind (Q := fun _ v => v.parser.Upto p) ?_ fun z => .modify (hf z)
    rw [readInt]
    cases strtolInt base (m.drop start) with
    | none => exact .abort _
    | some n => exact .pure fun _ hu => hu
  refine .state_bind fun v => ?_
  cases a with
  | done => cases ha
  | mark | startValue => exact .modify fun _ hu => { hu with mark := le_rfl }
  | startField => exact .modify fun _ hu => { hu with fieldStart := le_rfl }
  | writeField => exact .modify fun _ hu => { hu with fieldLen := len_le hu.fieldStart }
  | writeValue => exact .ite (.pure fun _ hu => hu) (stdString_ensures.bind fun _ => htext)
  | reasonPhrase => exact htext
  | statusCode => exact hint fun _ _ hu => hu
  | writeContentLen | chunkSize => exact hint fun _ _ hu => { hu with }
  | httpVersion =>
    dsimp only
    rw [onResponseVersion_eq]
    rcases readVersion _ _ with _ | _ | version
    · exact .abort _
    · exact .modify fun _ hu => hu
    · exact .modify fun _ hu => hu
  | writeConnectionClose | transChunked => exact .modify fun _ hu => { hu with }

theorem clientAction_break (m : List UInt8) (a : ClientAction) (p : ℕ) (ha : clientBreaks a = true) :
    Command.Ensures (fun v => v.parser.Upto p) (clientAction m a p)
      fun _ v => v.parser.Within (p + 1) := by
  refine .state_bind fun v => ?_
  cases a with
  | done =>
    refine .bind (Q := fun _ v => v.parser.Within (p + 1)) (.modify fun _ hu => ?_)
      fun _ => .modify fun _ hw => hw
    exact ⟨Nat.lt_succ_of_le hu.mark, Nat.lt_succ_of_le hu.fieldStart,
      hu.fieldLen.trans (Nat.le_succ p), le_rfl, hu.nread, hu.cs⟩
  | _ => cases ha

theorem clientExec_within {s : State ClientAction} {x : List UInt8} {halt : Halt ClientAction}
    (hu : v.parser.Upto 0) (h : exec clientBreaks (clientAction m) s 0 x v = .done halt v')
    (hbroke : halt.broke = true) : v'.parser.Within halt.p :=
  exec_bounds (R := fun p v => v.parser.Upto p) (S := fun n v => v.parser.Within n)
    (clientAction_stay m) (clientAction_break m) (fun _ _ hu => hu.next) _ _ _ _ _ _ hu h hbroke

/-- A call that is left by `fbreak` inside the `x` that it is given; it starts at `w`. -/
theorem clientExecute_apply {chunk : Bool} {w : HttpResponseParser} {x junk : List UInt8}
    {halt : Halt ClientAction} (hlen : x.length < 2 ^ 31)
    (hw : (if chunk then v.onParser fun _ => httpclientParserInit else v) = w)
    (hinit : w.parser = httpclientParserInit)
    (hrun : exec clientBreaks (clientAction (x ++ 0 :: junk)) (start ClientGrammar.main) 0 x w =
      .done halt v') (hbroke : halt.broke = true) :
    HttpResponseParser.execute chunk (x ++ 0 :: junk) x.length v =
      .done (halt.p, memmove (x ++ 0 :: junk) x.length halt.p) (v'.onParser (.keep 0 halt)) := by
  have hreset : w.onParser .reset = w := by
    rw [HttpResponseParser.onParser, hinit]
    change { w with parser := httpclientParserInit } = w
    rw [← hinit]
  have hu : w.parser.Upto 0 := by
    rw [hinit]
    exact ⟨le_rfl, le_rfl, le_rfl, le_rfl, rfl, rfl⟩
  have hp : halt.p ≤ x.length := by
    have hplace := (sweep_place clientBreaks (start ClientGrammar.main) 0 x).2.1
    rw [exec_apply] at hrun
    obtain ⟨_, v₁, -, hhalt⟩ := Command.bind_eq_done.mp hrun
    rw [← (Outcome.done.inj hhalt).1]
    omega
  have hwithin := (clientExec_within hu hrun hbroke).mono hp
  have hnul : (x ++ 0 :: junk)[x.length]? = some 0 := by simp
  have hexec : clientWriteExec (x ++ 0 :: junk) x.length 0 w = .done halt v' := by
    rw [clientWriteExec, Command.state_bind_apply, hinit]
    dsimp only [httpclientParserInit]
    rw [List.drop_zero, List.take_left]
    exact hrun
  have hnread : (v'.onParser (.keep 0 halt)).parser.nread = halt.p := by
    change v'.parser.nread + (halt.p - 0) = halt.p
    rw [hwithin.nread]
    omega
  have hcall : httpclientParserExecute (x ++ 0 :: junk) x.length 0 w =
      .done (halt.p : ℤ) (v'.onParser (.keep 0 halt)) := by
    have hin : (v'.onParser (.keep 0 halt)).parser.inside x.length = true := hwithin.inside
    rw [httpclientParserExecute, Command.modify_bind_apply, hreset,
      Command.bind_done (assert_of (Nat.zero_le _)),
      Command.bind_done (by rw [assertNul, hnul]; exact assert_of rfl),
      Command.bind_done (assert_of (by rw [toInt_eq_self_iff.mpr hlen]; rfl)),
      Command.bind_done hexec, Command.modify_bind_apply, Command.state_bind_apply,
      Command.bind_done (assert_of hp), Command.bind_done (assert_of (hnread.trans_le hp)),
      Command.bind_done (assert_of (by exact hwithin.bodyStart)), Command.pure_apply, hin,
      if_pos rfl, hnread, toInt_eq_self_iff.mpr (by omega)]
  have hsize : toSize (halt.p : ℤ) = halt.p := toSize_of_nonneg (by omega) (by omega)
  rw [HttpResponseParser.execute, Command.modify_bind_apply, hw, Command.bind_done hcall,
    Command.ite_apply, hsize, if_pos hp]
  rfl

/-- The parser after a response head, if the head is accepted without an error. -/
def responseHead (head : List UInt8) : Option HttpResponseParser :=
  accepted head.length HttpResponseParser.error
    (fun halt v => v.onParser (HttpclientParser.keep 0 halt))
    (exec clientBreaks (clientAction head) (start ClientGrammar.main) 0 head .fresh)

variable {head : List UInt8}

theorem responseHead_eq (h : responseHead head = some v) :
    ∃ s v₀, exec clientBreaks (clientAction head) (start ClientGrammar.main) 0 head .fresh =
        .done ⟨some s, head.length, true⟩ v₀ ∧
      final s = true ∧ v₀.error = 0 ∧ v = v₀.onParser (.keep 0 ⟨some s, head.length, true⟩) :=
  accepted_eq h

theorem responseHead_ne_nil (h : responseHead head = some v) : head ≠ [] := by
  rintro rfl
  obtain ⟨s, v₀, hexec, -⟩ := responseHead_eq h
  cases hexec

/-- The call that is given a head, and perhaps more. -/
theorem execute_responseHead (h : responseHead head = some v) {y : List UInt8}
    (hlen : (head ++ y).length < 2 ^ 31) (junk : List UInt8) :
    HttpResponseParser.execute false (head ++ y ++ 0 :: junk) (head ++ y).length .fresh =
      .done (head.length, memmove (head ++ y ++ 0 :: junk) (head ++ y).length head.length) v := by
  obtain ⟨s, v₀, hexec, -, -, rfl⟩ := responseHead_eq h
  have hlonger (a : ClientAction) (p : ℕ) :
      Command.Extends (clientAction head a p) (clientAction (head ++ y ++ 0 :: junk) a p) := by
    rw [List.append_assoc]
    exact clientAction_longer _ _ _ a
  have hrun := exec_transfer hlonger hexec rfl y
  have hbroke : (⟨some s, head.length, true⟩ : Halt ClientAction).broke = true := rfl
  exact clientExecute_apply hlen rfl rfl hrun hbroke

theorem responseHead_finished (h : responseHead head = some v) :
    v.hasError = false ∧ v.isFinished = true := by
  obtain ⟨s, v₀, hexec, hfinal, herror, rfl⟩ := responseHead_eq h
  have hw : v₀.parser.Within head.length :=
    clientExec_within ⟨le_rfl, le_rfl, le_rfl, le_rfl, rfl, rfl⟩ hexec rfl
  have hcs : (v₀.onParser (.keep 0 ⟨some s, head.length, true⟩)).parser.cs = some s :=
    if_pos hw.cs
  constructor
  · rw [HttpResponseParser.hasError, hcs]
    change (decide (v₀.error ≠ 0) || _) = false
    rw [herror]
    rfl
  · rw [HttpResponseParser.isFinished, hcs]
    exact hfinal

end ResponseHead

section Round

variable {env : ClientEnv} {u : Connection} {rest : List Arrival} {v : HttpResponseParser} {n : ℕ}
  {x y memory : List UInt8}

theorem terminate_apply (htake : u.buffer = y ++ x) (hx : x ≠ []) :
    terminate y.length u = .done () (u.putBuffer (y ++ 0 :: x.drop 1)) := by
  have hpos : x.length ≠ 0 := fun h => hx (List.length_eq_zero_iff.mp h)
  have hsplice : splice u.buffer y.length [0] = y ++ 0 :: x.drop 1 := by
    rw [htake, splice_append_right _ _ le_rfl, Nat.sub_self, splice_zero]
    rfl
  rw [terminate, Command.state_bind_apply, Command.ite_apply,
    if_pos (by rw [htake, List.length_append]; omega), hsplice, Command.modify_apply]

/-- A round of the loop around `execute` that is delivered the bytes `x`, with `y` in the
buffer, and that completes a head. -/
theorem recvParsed_round {chunk : Bool} (hcon : u.connected = true)
    (harr : u.arrivals = .data x :: rest) (hx : x ≠ []) (htake : u.buffer.take y.length = y)
    (hbuf : u.buffer.length = env.bufferSize + 1) (hsize : env.bufferSize < 2 ^ 31)
    (hfit : (y ++ x).length ≤ env.bufferSize)
    (hexec : HttpResponseParser.execute chunk
      (y ++ x ++ 0 :: u.buffer.drop ((y ++ x).length + 1)) (y ++ x).length u.parser =
        .done (n, memory) v) (hn : 0 < n) (hnx : n ≤ (y ++ x).length) (herr : v.hasError = false)
    (hfin : v.isFinished = true) (fuel : ℕ) :
    recvParsed env chunk (fuel + 1) (y.length : ℤ) u =
      .done (some (((y ++ x).length - n : ℕ) : ℤ)) (u.advance rest v memory) := by
  rw [List.length_append] at hfit
  have hpos : x.length ≠ 0 := fun h => hx (List.length_eq_zero_iff.mp h)
  have hy : toSize (y.length : ℤ) = y.length := toSize_of_nonneg (by omega) (by omega)
  have hread : readBuffer (toSize (y.length : ℤ))
      ((env.bufferSize + 2 ^ 64 - toSize (y.length : ℤ)) % 2 ^ 64) u = .done (x.length : ℤ)
        ((u.putArrivals rest).putBuffer (y ++ x ++ u.buffer.drop (y.length + x.length))) := by
    rw [hy]
    exact readBuffer_whole hcon harr (by omega) (by omega) htake (by omega)
  have hlen : toSize ((x.length : ℤ) + y.length) = (y ++ x).length := by
    rw [toSize_of_nonneg (by omega) (by omega), List.length_append]
    omega
  have hnul : terminate (y ++ x).length
      ((u.putArrivals rest).putBuffer (y ++ x ++ u.buffer.drop (y.length + x.length))) = _ :=
    terminate_apply rfl (List.ne_nil_of_length_pos (by rw [List.length_drop]; omega))
  rw [List.drop_drop, ← List.length_append] at hnul
  have hrun : runParser (HttpResponseParser.execute chunk) (y ++ x).length
      (((u.putArrivals rest).putBuffer (y ++ x ++ u.buffer.drop (y ++ x).length)).putBuffer
        (y ++ x ++ 0 :: u.buffer.drop ((y ++ x).length + 1))) =
          .done n (u.advance rest v memory) := by
    rw [runParser, Command.state_bind_apply, Command.bind_done (Command.focus_done (by exact hexec))]
    rfl
  have hleft : toInt (((y ++ x).length + 2 ^ 64 - n) % 2 ^ 64) =
      (((y ++ x).length - n : ℕ) : ℤ) := by
    rw [List.length_append] at hnx ⊢
    rw [show y.length + x.length + 2 ^ 64 - n = y.length + x.length - n + 2 ^ 64 by omega,
      Nat.add_mod_right, Nat.mod_eq_of_lt (by omega), toInt_eq_self_iff]
    omega
  have hother : (((y ++ x).length - n : ℕ) : ℤ) ≠ toInt env.bufferSize := by
    rw [toInt_eq_self_iff.mpr hsize, List.length_append]
    omega
  rw [recvParsed, Command.bind_done hread, Command.ite_apply, if_neg (by omega), hlen,
    ← List.length_append, Command.bind_done hnul, Command.bind_done hrun, Command.state_bind_apply,
    hleft]
  rw [Command.ite_apply, if_neg (by rw [show (u.advance rest v memory).parser = v from rfl, herr]; decide)]
  rw [if_neg hother, if_pos (by exact hfin)]
  rfl

/-- The loop over a head that comes whole, perhaps with some of the body. -/
theorem recvParsed_head {head : List UInt8} (h : responseHead head = some v)
    (hcon : u.connected = true) (harr : u.arrivals = .data (head ++ y) :: rest)
    (hparser : u.parser = .fresh) (hbuf : u.buffer.length = env.bufferSize + 1)
    (hsize : env.bufferSize < 2 ^ 31) (hfit : (head ++ y).length ≤ env.bufferSize) (fuel : ℕ) :
    ∃ z, recvParsed env false (fuel + 1) 0 u = .done (some (y.length : ℤ))
        (u.advance rest v (y ++ z)) ∧ (y ++ z).length = env.bufferSize + 1 := by
  have hpos := List.length_pos_iff.mpr (responseHead_ne_nil h)
  have hlen : (head ++ y).length = head.length + y.length := List.length_append
  have hexec := execute_responseHead h (y := y) (by omega)
    (u.buffer.drop (([] ++ (head ++ y)).length + 1))
  rw [← hparser, memmove_append] at hexec
  have hround : recvParsed env false (fuel + 1) (([] : List UInt8).length : ℤ) u = _ :=
    recvParsed_round (y := []) (x := head ++ y) hcon harr (List.ne_nil_of_length_pos (by omega)) rfl hbuf
      hsize (by rw [List.nil_append]; exact hfit) hexec hpos (by rw [List.nil_append]; omega)
      (responseHead_finished h).1 (responseHead_finished h).2 fuel
  rw [List.nil_append, hlen, Nat.add_sub_cancel_left] at hround
  refine ⟨_, hround, ?_⟩
  rw [List.length_append, List.length_drop, List.length_append, List.length_cons, List.length_drop]
  omega

/-- A call whose first `recv` brings the head and some of the body. -/
theorem recvResponseVia_head (fix : ℕ → ℕ → ClientRecv ℤ) (hbuffer : env.bufferSize < 2 ^ 31)
    {head : List UInt8} (hhead : responseHead head = some v) (hcon : u.connected = true)
    (harr : u.arrivals = .data (head ++ y) :: rest) (hfit : (head ++ y).length ≤ env.bufferSize)
    (junk : ℕ → UInt8) :
    ∃ w : Connection, recvResponseVia env fix junk u =
        afterResponseHead env fix (some (y.length : ℤ)) w ∧
      w.connected = true ∧ w.arrivals = rest ∧ w.parser = v ∧ w.buffer.take y.length = y ∧
      w.buffer.length = env.bufferSize + 1 := by
  have hbuf : ((List.range (env.bufferSize + 1)).map junk).length = env.bufferSize + 1 := by
    rw [List.length_map, List.length_range]
  rcases recvParsed_head hhead
    (u := (u.putParser .fresh).putBuffer ((List.range (env.bufferSize + 1)).map junk))
    hcon harr rfl hbuf hbuffer hfit (backlog u.arrivals) with ⟨z, hround, hlen⟩
  refine ⟨((u.putParser .fresh).putBuffer ((List.range (env.bufferSize + 1)).map junk)).advance
    rest v (y ++ z), ?_, hcon, rfl, rfl, List.take_left .., hlen⟩
  rw [recvResponseVia, Command.state_bind_apply, Command.modify_bind_apply,
    Command.modify_bind_apply, Command.bind_done hround]

end Round

/-- A call whose first `recv` brings the head and some of the body. -/
theorem recvHead_message {env : Env} (hbuffer : env.bufferSize < 2 ^ 31) {head y : List UInt8}
    {v : HttpRequestParser} (hhead : requestHead env.relaxed head = some v) {u : Session}
    {rest : List Arrival} (hcon : u.connected = true)
    (harr : u.arrivals = .data (head ++ y) :: rest) (hfit : (head ++ y).length ≤ env.bufferSize)
    (junk : ℕ → UInt8) :
    ∃ w : Session, recvHead env (backlog u.arrivals + 1) 0
        ((u.putParser (.fresh env.relaxed)).putBuffer ((List.range env.bufferSize).map junk)) =
          .done (some (y.length : ℤ)) w ∧
      w.connected = true ∧ w.arrivals = rest ∧ w.parser = v ∧ w.buffer.take y.length = y := by
  have hlen := hfit
  rw [List.length_append] at hlen
  have hpos := List.length_pos_iff.mpr (requestHead_ne_nil hhead)
  have hbuf : ((List.range env.bufferSize).map junk).length = env.bufferSize := by
    rw [List.length_map, List.length_range]
  have hround : recvHead env (backlog u.arrivals + 1) 0
      ((u.putParser (.fresh env.relaxed)).putBuffer ((List.range env.bufferSize).map junk)) = _ :=
    recvHead_round (by exact hcon) (by exact harr) (by exact hbuf) hbuffer
      (List.ne_nil_of_length_pos (by rw [List.length_append]; omega)) hfit
      (execute_requestHead hhead (y := y) (by omega) _) hpos
      (by rw [List.length_append]; omega) _
  rw [(requestHead_finished hhead).1, (requestHead_finished hhead).2,
    if_neg Bool.false_ne_true, if_pos rfl, memmove_append, List.length_append,
    Nat.add_sub_cancel_left] at hround
  exact ⟨_, hround, hcon, rfl, rfl, List.take_left ..⟩

end Sylar.Http
