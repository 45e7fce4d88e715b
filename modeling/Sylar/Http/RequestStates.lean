import Sylar.Http.Heads
import Sylar.Ragel.Overlap
import Sylar.Ragel.Reads

/-! # Along a request

The states that the request machine goes through on a request line and on a header, and the steps
between them. Inside the target the rest of the grammar is a context; everywhere else a state has
a shortest text that leads to it.
-/
namespace Sylar.Http.RequestText
open Ragel Ragel.Expr Grammar

/-- The parts of the numbered grammar around the target. -/
structure Line where
  done : ℕ
  uri : ℕ
  path : ℕ
  startQuery : ℕ
  queryString : ℕ
  mark : ℕ
  fragment : ℕ
  afterPath : Rule
  afterQuery : Rule
  afterTarget : Rule
  headers : Rule

def line : Line :=
  match start (Grammar.main false) with
  | [finish n _ (alt (seq (seq _ (seq _ (seq (alt _ (seq (leave u _ (enter _ _ (seq (leave p _ _)
      (alt (seq (leave s _ c) (leave q _ e)) o)))) (alt (seq d (leave f _ (enter m _ g))) o'))) t))) h)
      _)] =>
    ⟨n, u, p, s, q, m, f, alt (seq (leave s .startQuery c) (leave q .queryString e)) o,
      alt (seq d (leave f .fragment (enter m .mark g))) o', t, h⟩
  | _ => ⟨0, 0, 0, 0, 0, 0, 0, eps, eps, eps, eps⟩

/-- The state after a text. -/
def requested (s : String) : State Action :=
  (sweep breaks (start (Grammar.main false)) 0 (bytes s)).2.cs.getD []

section Contexts

variable (r : Rule)

def targetContext : Rule :=
  finish line.done .done (seq (seq (seq (leave line.uri .requestUri r) line.afterQuery)
    line.afterTarget) line.headers)

def pathContext : Rule := targetContext (seq (leave line.path .requestPath r) line.afterPath)

def queryContext : Rule := targetContext (leave line.queryString .queryString r)

def fragmentContext : Rule :=
  finish line.done .done (seq (seq (leave line.fragment .fragment r) line.afterTarget) line.headers)

end Contexts

/-- What a query and a fragment are made of. -/
def parts : Rule := star (anyOf [pchar false, one '/', one '?'])

def queryStart : State Action :=
  [targetContext (seq (leave line.startQuery .startQuery eps)
    (leave line.queryString .queryString parts))]

def fragmentStart : State Action := [fragmentContext (enter line.mark .mark parts)]

theorem null_headers : line.headers.null = none := by
  decide +kernel

theorem frame_targetContext : Frame targetContext :=
  ((((frame_id.leave _ _).seq nofun _).seq nofun _).seq nofun _).finish
    (null_seq_of_right null_headers) _ _

theorem frame_fragmentContext : Frame fragmentContext :=
  (((frame_id.leave _ _).seq nofun _).seq nofun _).finish (null_seq_of_right null_headers) _ _

theorem frame_pathContext : Frame pathContext :=
  ((((((frame_id.leave _ _).seq nofun _).leave _ _).seq nofun _).seq nofun _).seq nofun _).finish
    (null_seq_of_right null_headers) _ _

theorem frame_queryContext : Frame queryContext :=
  (((((frame_id.leave _ _).leave _ _).seq nofun _).seq nofun _).seq nofun _).finish
    (null_seq_of_right null_headers) _ _

/-- The texts of a version and of a line end. -/
def versions : List (List UInt8) := [bytes "HTTP/1.0", bytes "HTTP/1.1"]
def newlines : List (List UInt8) := [bytes "\r\n", bytes "\n"]

/-- The steps along a request line that do not depend on the target. -/
structure LineSteps : Prop where
  method : ∀ e ∈ httpMethodMap, e.1 ≠ .msearch →
    sweep breaks (start (Grammar.main false)) 0 (e.2 ++ bytes " ") =
      ([(.mark, 0), (.requestMethod, e.2.length)],
        ⟨some (requested "GET "), (e.2 ++ bytes " ").length, false⟩)
  slash : step (requested "GET ") (byte '/') =
    some (((relativePart false).deriv (byte '/')).map fun t => pathContext t.rest, [.mark])
  version : ∀ v ∈ versions, ∀ n ∈ newlines, sweep breaks (requested "GET / ") 0 (v ++ n) =
    ([(.mark, 0), (.httpVersion, 8)],
      ⟨some [finish line.done .done line.headers], (v ++ n).length, false⟩)

theorem lineSteps : LineSteps where
  method := by decide +kernel
  slash := by decide +kernel
  version := by decide +kernel

/-- How the parts of a target are left. -/
structure TargetSteps : Prop where
  plain : (relativePart false).plain = true ∧ parts.plain = true
  avoids : (∀ c ∈ bytes " ?#", (relativePart false).avoids c = true) ∧
    ∀ c ∈ bytes " #", parts.avoids c = true
  deriv : ∀ b ∈ any.members, (b ∉ bytes " ?#" → (pathContext eps).deriv b = []) ∧
    (b ∉ bytes " #" → (targetContext eps).deriv b = [] ∧ (queryContext eps).deriv b = []) ∧
    (b ∉ bytes " " → (fragmentContext eps).deriv b = [])
  wayOut :
    wayOut pathContext (byte ' ') = some (requested "GET / ", [.requestPath, .requestUri]) ∧
    wayOut pathContext (byte '?') = some (queryStart, [.requestPath]) ∧
    wayOut pathContext (byte '#') = some (fragmentStart, [.requestPath, .requestUri]) ∧
    wayOut queryContext (byte ' ') = some (requested "GET / ", [.queryString, .requestUri]) ∧
    wayOut queryContext (byte '#') = some (fragmentStart, [.queryString, .requestUri]) ∧
    wayOut fragmentContext (byte ' ') = some (requested "GET / ", [.fragment])
  empty :
    step queryStart (byte ' ') =
      some (requested "GET / ", [.startQuery, .queryString, .requestUri]) ∧
    step queryStart (byte '#') = some (fragmentStart, [.startQuery, .queryString, .requestUri]) ∧
    step fragmentStart (byte ' ') = some (requested "GET / ", [.mark, .fragment])

theorem targetSteps : TargetSteps where
  plain := by decide +kernel
  avoids := by decide +kernel
  deriv := by
    simp only [← List.isEmpty_iff]
    decide +kernel
  wayOut := by decide +kernel
  empty := by decide +kernel

/-- Only some bytes end a path, a query or a fragment. -/
theorem deriv_contexts (b : UInt8) :
    (b ∉ bytes " ?#" → (pathContext eps).deriv b = []) ∧
    (b ∉ bytes " #" → (targetContext eps).deriv b = [] ∧ (queryContext eps).deriv b = []) ∧
    (b ∉ bytes " " → (fragmentContext eps).deriv b = []) :=
  (TargetSteps.deriv targetSteps) b (Cls.mem_members.mpr (mem_any b))

section Headers

/-- The state after some text of the headers. -/
def headed (s : String) : State Action :=
  (sweep breaks [finish line.done .done line.headers] 0 (bytes s)).2.cs.getD []

def tokenCls : Cls := .diff ascii (.union HTTPCtl HTTPSeparator)

/-- Blanks, and the other bytes of a value. -/
def blank : Cls := oneOf " \t"
def solid : Cls := .diff any (.union HTTPCtl (oneOf " \t\r\n"))

/-- The texts that lead to the states in front of a value, and inside one. -/
def valueStarts : List String := ["a:", "a: "]
def valueEnds : List String := ["a: b", "a: b "]

/-- The steps on a header: a state, the bytes that lead on, the next state and the actions. -/
def headerSteps : List (String × Cls × String × List Action) :=
  [("", .diff tokenCls (oneOf "\r\n"), "a", [.startField]),
    ("", chr '\r', "\r", [.startField]),
    ("\r", .diff tokenCls (chr '\n'), "a", []),
    ("\r", chr ':', "a:", [.writeField]),
    ("a", tokenCls, "a", []),
    ("a", chr ':', "a:", [.writeField]),
    ("a:", blank, "a: ", [.startValue]),
    ("a: ", blank, "a: ", [.startValue]),
    ("a:", solid, "a: b", [.startValue]),
    ("a: ", solid, "a: b", [.startValue]),
    ("a: b", solid, "a: b", []),
    ("a: b", blank, "a: b ", []),
    ("a: b ", solid, "a: b", []),
    ("a: b ", blank, "a: b ", [])]

/-- The steps on headers, and on the empty line behind them. -/
structure HeadSteps : Prop where
  header : ∀ e ∈ headerSteps, leads (headed e.1) e.2.1 (headed e.2.2.1) e.2.2.2 = true
  empty : ∀ s ∈ valueStarts, ∀ n ∈ newlines, sweep breaks (headed s) 0 n =
    ([(.startValue, 0), (.writeValue, 0)], ⟨some (headed ""), n.length, false⟩)
  newline : ∀ s ∈ valueEnds, ∀ n ∈ newlines, sweep breaks (headed s) 0 n =
    ([(.writeValue, 0)], ⟨some (headed ""), n.length, false⟩)
  bytes : ∀ b ∈ any.members, b ∉ [0, 127, 13, 10] → blank.mem b = true ∨ solid.mem b = true
  value : fieldValue.avoids 0 = true ∧ fieldValue.avoids 127 = true
  last : final (headed "\r\n") = true ∧ ∀ n ∈ newlines, sweep breaks (headed "") 0 n =
    ([(.startField, 0), (.done, n.length - 1)], ⟨some (headed "\r\n"), n.length, true⟩)

theorem headSteps : HeadSteps where
  header := by decide +kernel
  empty := by decide +kernel
  newline := by decide +kernel
  bytes := by decide +kernel
  value := by decide +kernel
  last := by decide +kernel

theorem step_header {s s' : String} {c : Cls} {as : List Action} (h : (s, c, s', as) ∈ headerSteps)
    {b : UInt8} (hb : c.mem b = true) : step (headed s) b = some (headed s', as) := by
  have hleads := HeadSteps.header headSteps (s, c, s', as) h
  dsimp only at hleads
  exact step_of_leads hleads hb

end Headers

end Sylar.Http.RequestText
