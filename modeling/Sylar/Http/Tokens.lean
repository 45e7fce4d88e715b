import Sylar.Http.Parser

/-! # The tokens of a request head

What the grammar delimits in a byte string, in terms of the string alone: the actions
record places, and some of them report a token that extends from a recorded place to the
current one. A whole token is reported to the request as the bytes between.
-/
namespace Sylar.Http
open Memory Ragel

/-- The parts of a request that are set to the text of a token. -/
inductive Part where
  | path
  | query
  | fragment
deriving DecidableEq, Repr

inductive Token where
  | method (start stop : ℕ)
  | version (start stop : ℕ)
  | text (part : Part) (start stop : ℕ)
  /-- The name starts at `name` and is as long as from `since` to `upto`. -/
  | field (name since upto value stop : ℕ)
  | headerDone (stop : ℕ)
deriving DecidableEq, Repr

namespace Token

/-- The first place that the token depends on. -/
def start : Token → ℕ
  | method s _ => s
  | version s _ => s
  | text _ s _ => s
  | field name since _ value _ => min name (min since value)
  | headerDone p => p

/-- The place where the token is reported. -/
def stop : Token → ℕ
  | method _ p => p
  | version _ p => p
  | text _ _ p => p
  | field _ _ _ _ p => p
  | headerDone p => p

/-- The end of the bytes that the token depends on, the one where it is reported included. -/
def reach : Token → ℕ
  | field name since upto _ p => max (p + 1) (name + (upto - since))
  | t => t.stop + 1

end Token

/-- The recorded places: the last `mark` or `start_value`, the last `start_field`, the field name
of the last `write_field` and the last `start_query`. -/
structure Marks where
  mark : ℕ
  fieldStart : ℕ
  fieldSince : ℕ
  fieldUpto : ℕ
  queryStart : Option ℕ
  socket : Bool
deriving DecidableEq, Repr

namespace Marks

def initial : Marks := ⟨0, 0, 0, 0, none, false⟩

/-- What an action records at place `p`. -/
def after (m : Marks) : Action → ℕ → Marks
  | .mark, p => { m with mark := p }
  | .startField, p => { m with fieldStart := p }
  | .writeField, p => { m with fieldSince := m.fieldStart, fieldUpto := p }
  | .startValue, p => { m with mark := p }
  | .startQuery, p => { m with queryStart := some p }
  | .xml, _ => { m with socket := true }
  | .json, _ => { m with socket := true }
  | _, _ => m

/-- What an action reports at place `p`. -/
def token (m : Marks) : Action → ℕ → Option Token
  | .writeValue, p => some (.field m.fieldStart m.fieldSince m.fieldUpto m.mark p)
  | .requestMethod, p => some (.method m.mark p)
  | .fragment, p => some (.text .fragment m.mark p)
  | .queryString, p => m.queryStart.map (.text .query · p)
  | .httpVersion, p => some (.version m.mark p)
  | .requestPath, p => some (.text .path m.mark p)
  | .done, p => if m.socket then none else some (.headerDone p)
  | _, _ => none

def run (m : Marks) : List (Action × ℕ) → Marks
  | [] => m
  | (a, p) :: l => (m.after a p).run l

def tokens (m : Marks) : List (Action × ℕ) → List Token
  | [] => []
  | (a, p) :: l => (m.token a p).toList ++ (m.after a p).tokens l

theorem run_append (m : Marks) (l r : List (Action × ℕ)) : m.run (l ++ r) = (m.run l).run r := by
  induction l generalizing m with
  | nil => rfl
  | cons ap l ih => exact ih (m.after ap.1 ap.2)

theorem tokens_append (m : Marks) (l r : List (Action × ℕ)) :
    m.tokens (l ++ r) = m.tokens l ++ (m.run l).tokens r := by
  induction l generalizing m with
  | nil => rfl
  | cons ap l ih =>
    rw [List.cons_append, tokens, tokens, ih, List.append_assoc]
    rfl

theorem stop_of_token {m : Marks} {a : Action} {p : ℕ} {t : Token} (h : m.token a p = some t) :
    t.stop = p := by
  cases a <;> simp only [token, Option.some.injEq, Option.map_eq_some_iff, reduceCtorEq,
    Option.ite_none_left_eq_some] at h
  case queryString =>
    obtain ⟨q, -, rfl⟩ := h
    rfl
  case done =>
    rw [← h.2]
    rfl
  all_goals
    rw [← h]
    rfl

theorem stop_lt_reach (t : Token) : t.stop < t.reach := by
  cases t with
  | field name since upto value p => exact lt_max_of_lt_left (Nat.lt_succ_self p)
  | _ => exact Nat.lt_succ_self _

/-- A token is reported where an action is executed. -/
theorem exists_of_mem_tokens {m : Marks} {l : List (Action × ℕ)} {t : Token}
    (h : t ∈ m.tokens l) : ∃ a, (a, t.stop) ∈ l := by
  induction l generalizing m with
  | nil => simp [tokens] at h
  | cons ap l ih =>
    rcases List.mem_append.mp h with h | h
    · rw [Option.mem_toList] at h
      rw [stop_of_token h]
      exact ⟨ap.1, List.mem_cons_self⟩
    · obtain ⟨a, ha⟩ := ih h
      exact ⟨a, List.mem_cons_of_mem _ ha⟩

theorem queryStart_after {m : Marks} (h : m.queryStart ≠ none) (a : Action) (p : ℕ) :
    (m.after a p).queryStart ≠ none := by
  cases a <;> first | exact h | simp [after]

theorem queryStart_run {m : Marks} {l : List (Action × ℕ)}
    (h : m.queryStart ≠ none ∨ ∃ p, (Action.startQuery, p) ∈ l) :
    (m.run l).queryStart ≠ none := by
  induction l generalizing m with
  | nil =>
    rcases h with h | ⟨p, h⟩
    · exact h
    · simp at h
  | cons ap l ih =>
    apply ih
    rcases h with h | ⟨p, h⟩
    · exact .inl (queryStart_after h ap.1 ap.2)
    · rcases List.mem_cons.mp h with rfl | h
      · left
        simp [after]
      · exact .inr ⟨p, h⟩

end Marks

def slice (bs : List UInt8) (start stop : ℕ) : List UInt8 := (bs.drop start).take (stop - start)

def HttpRequest.setPart (r : HttpRequest) : Part → List UInt8 → HttpRequest
  | .path, v => r.setPath v
  | .query, v => r.setQuery v
  | .fragment, v => r.setFragment v

/-- The request and the error code after a token of `bs` has been reported whole. -/
def report (bs : List UInt8) : HttpRequest × ℕ → Token → HttpRequest × ℕ
  | (r, e), .method s _ =>
    match (charsToHttpMethod (bs.drop s)).join with
    | some m => (r.setMethod m, e)
    | none => (r, 1000)
  | (r, e), .version s p =>
    if strncmp (bytes "HTTP/1.1") (bs.drop s) (p - s) = some true then (r.setVersion 0x11, e)
    else if strncmp (bytes "HTTP/1.0") (bs.drop s) (p - s) = some true then (r.setVersion 0x10, e)
    else (r, 1001)
  | (r, e), .text part s p => (r.setPart part (slice bs s p), e)
  | (r, e), .field name since upto value p =>
    if upto - since = 0 then (r, e)
    else (r.setHeader ((bs.drop name).take (upto - since)) (slice bs value p), e)
  | (r, e), .headerDone _ => (headerDone r, e)

theorem report_error {bs : List UInt8} {x : HttpRequest × ℕ} (h : x.2 ≠ 0) (t : Token) :
    (report bs x t).2 ≠ 0 := by
  cases t with
  | method s p =>
    rw [report]
    split
    · exact h
    · exact Nat.succ_ne_zero _
  | version s p =>
    rw [report]
    split_ifs
    · exact h
    · exact h
    · exact Nat.succ_ne_zero _
  | text part s p => exact h
  | field name since upto value p =>
    rw [report]
    split_ifs
    · exact h
    · exact h
  | headerDone p => exact h

theorem foldl_report_error {bs : List UInt8} {x : HttpRequest × ℕ} (h : x.2 ≠ 0)
    (ts : List Token) : (ts.foldl (report bs) x).2 ≠ 0 := by
  induction ts generalizing x with
  | nil => exact h
  | cons t ts ih => exact ih (report_error h t)

section Trace

variable (relaxed : Bool)

/-- The actions that the machine executes on a byte string, and where it stops. -/
def trace (bs : List UInt8) : List (Action × ℕ) × Halt Action :=
  sweep breaks (Ragel.start (Grammar.main relaxed)) 0 bs

def tokens (bs : List UInt8) : List Token := Marks.initial.tokens (trace relaxed bs).1

/-- The request that a byte string denotes, with the error code. -/
def denotes (bs : List UInt8) : HttpRequest × ℕ :=
  (tokens relaxed bs).foldl (report bs) (.fresh, 0)

/-- A complete request head: the machine executes `done` at the last byte. -/
def IsHead (bs : List UInt8) : Prop :=
  (trace relaxed bs).2.broke = true ∧ (trace relaxed bs).2.p = bs.length

instance (bs : List UInt8) : Decidable (IsHead relaxed bs) := inferInstanceAs (Decidable (_ ∧ _))

end Trace

end Sylar.Http
