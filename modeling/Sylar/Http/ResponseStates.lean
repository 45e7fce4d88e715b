import Sylar.Http.ChunkHead
import Sylar.Http.Dump
import Sylar.Ragel.Reads

/-! # Along a response

The states of the response machine on a status line and on headers. Four kinds of header are read side
by side; a name is either on the way to one of the three special ones, or only a field remains.
-/
namespace Sylar.Http.ResponseText
open Ragel Ragel.Expr
open Grammar (chr oneOf any space)

/-- What follows the status line in the numbered grammar. -/
def headersStart : State ClientAction :=
  match start ClientGrammar.main with
  | [finish n _ (alt (seq _ h) _)] => [finish n .done h]
  | _ => []

/-- The state after some text of the headers. -/
def answered (w : List UInt8) : State ClientAction :=
  (sweep clientBreaks headersStart 0 w).2.cs.getD []

section Names

def special : List (List UInt8) :=
  [bytes "connection", bytes "content-length", bytes "transfer-encoding"]

def lower (b : UInt8) : UInt8 := UInt8.ofNat (toLower b)

/-- A byte and, for a letter in lower case, the capital letter. -/
def both (c : UInt8) : List UInt8 :=
  [c, if 97 ≤ c.toNat ∧ c.toNat ≤ 122 then UInt8.ofNat (c.toNat - 32) else c]

/-- The steps on the name of a header. On the way to a special name the rule for fields comes last,
and the others only wait for the next byte of their names. -/
structure NameSteps : Prop where
  first : leads headersStart (.diff ClientGrammar.token (oneOf "cCtT")) (answered (bytes "a"))
      [.startField] = true ∧
    ∀ b ∈ bytes "cCtT", step headersStart b = some (answered [lower b], [.startField])
  more : leads (answered (bytes "a")) ClientGrammar.token (answered (bytes "a")) [] = true ∧
    step (answered (bytes "a")) (byte ':') = some (answered (bytes "a:"), [.writeField]) ∧
    (answered (bytes "a")).length = 1
  onWay : ∀ w ∈ special, ∀ i ∈ List.range w.length, i ≠ 0 → ∀ b ∈ both (w.getD i 0),
    step (answered (w.take i)) b = some (answered (w.take (i + 1)), [])
  others : ∀ w ∈ special, ∀ i ∈ List.range (w.length + 1), i ≠ 0 →
    (answered (w.take i)).getLast? = (answered (bytes "a")).getLast? ∧
    ∀ c ∈ (answered (w.take i)).dropLast.flatMap heads, ∀ b ∈ c.members,
      (∃ w' ∈ special, w.take i ++ [lower b] <+: w') ∨ (w.take i ∈ special ∧ b = byte ':')

theorem nameSteps : NameSteps where
  first := by decide +kernel
  more := by decide +kernel
  onWay := by decide +kernel
  others := by decide +kernel

end Names

section Fields

/-- Bytes of a value, and those that a value can start with. -/
def text : Cls := .diff any (oneOf "\r\n")
def solid : Cls := .diff any space

/-- The state after the `Connection` line. -/
def connected (close : Bool) : State ClientAction :=
  if close then answered (bytes "connection: close\r\n") else headersStart

/-- What is pending after the `Connection` line. -/
def pending (close : Bool) : List ClientAction := if close then [.writeConnectionClose] else []

/-- The steps on the value of a header, and on the lines that come behind the headers. -/
structure FieldSteps : Prop where
  value :
    step (answered (bytes "a:")) (byte ' ') = some (answered (bytes "a: "), [.startValue]) ∧
    leads (answered (bytes "a: ")) solid (answered (bytes "a: b")) [.startValue] = true ∧
    leads (answered (bytes "a: b")) text (answered (bytes "a: b")) [] = true ∧
    step (answered (bytes "a: b")) (byte '\r') = some (answered (bytes "a: b\r"), [.writeValue]) ∧
    step (answered (bytes "a: b\r")) (byte '\n') = some (headersStart, [])
  connection : ∀ close ∈ [false, true], sweep clientBreaks headersStart 0 (connectionLine close) =
    ([(.startField, 0), (.writeField, 10), (.startValue, 11), (.startValue, 12),
        (.writeValue, 12 + (connectionValue close).length)],
      ⟨some (connected close), (connectionLine close).length, false⟩)
  contentLength : ∀ close ∈ [false, true],
    sweep clientBreaks (connected close) 0 (bytes "Content-Length: ") =
      (((pending close).map fun a => (a, 0)) ++
          [(.startField, 0), (.writeField, 14), (.startValue, 15)],
        ⟨some (answered (bytes "content-length: ")), 16, false⟩)
  digits :
    leads (answered (bytes "content-length: ")) Grammar.digit (answered (bytes "content-length: 0"))
      [.startValue] = true ∧
    leads (answered (bytes "content-length: 0")) Grammar.digit
      (answered (bytes "content-length: 0")) [] = true ∧
    step (answered (bytes "content-length: 0")) (byte '\r') =
      some (answered (bytes "content-length: 0\r"), [.writeContentLen, .writeValue]) ∧
    step (answered (bytes "content-length: 0\r")) (byte '\n') = some (headersStart, [])
  last : final (answered (bytes "\r\n")) = true ∧ ∀ close ∈ [false, true],
    sweep clientBreaks (connected close) 0 (bytes "\r\n") =
      (((pending close).map fun a => (a, 0)) ++ [(.done, 1)],
        ⟨some (answered (bytes "\r\n")), 2, true⟩)

theorem fieldSteps : FieldSteps where
  value := by decide +kernel
  connection := by decide +kernel
  contentLength := by decide +kernel
  digits := by decide +kernel
  last := by decide +kernel

end Fields

section StatusLine

structure StatusSteps : Prop where
  version : ∀ version ∈ [(0x10 : UInt8), 0x11],
    sweep clientBreaks (start ClientGrammar.main) 0 (versionText version ++ bytes " ") =
      ([(.mark, 0), (.httpVersion, 8)],
        ⟨some (reached "HTTP/1.1 "), (versionText version ++ bytes " ").length, false⟩)
  status : ∀ e ∈ httpStatusMap,
    sweep clientBreaks (reached "HTTP/1.1 ") 0 (decimal (e.1 % 2 ^ 32).toNat ++ bytes " ") =
      ([(.mark, 0), (.statusCode, 3)],
        ⟨some (reached "HTTP/1.1 200 "), (decimal (e.1 % 2 ^ 32).toNat ++ bytes " ").length,
          false⟩)
  reason : leads (reached "HTTP/1.1 200 ") text (reached "HTTP/1.1 200 O") [.mark] = true ∧
    leads (reached "HTTP/1.1 200 O") text (reached "HTTP/1.1 200 O") [] = true ∧
    step (reached "HTTP/1.1 200 O") (byte '\r') =
      some (reached "HTTP/1.1 200 O\r", [.reasonPhrase]) ∧
    step (reached "HTTP/1.1 200 O\r") (byte '\n') = some (headersStart, [])

theorem statusSteps : StatusSteps where
  version := by decide +kernel
  status := by decide +kernel
  reason := by decide +kernel

end StatusLine

end Sylar.Http.ResponseText
