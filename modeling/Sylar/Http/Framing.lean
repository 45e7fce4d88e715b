import Sylar.Http.Dump
import Mathlib.Data.List.DropRight

/-! # The length a message announces

A peer cuts the head of a message into lines and looks for the `Content-Length` ones. `dump` writes
such a line for a body that is not empty, and writes the map of the headers as it is.
-/
namespace Sylar.Http
namespace Framing

/-- `b` in front of the first line. -/
def consLine (b : UInt8) : List (List UInt8) → List (List UInt8)
  | [] => [[b]]
  | line :: lines => (b :: line) :: lines

/-- The lines of a text, which CR LF separates. -/
def splitLines : List UInt8 → List (List UInt8)
  | [] => [[]]
  | [b] => [[b]]
  | b :: c :: s =>
    if b = byte '\r' ∧ c = byte '\n' then [] :: splitLines s else consLine b (splitLines (c :: s))

theorem consLine_append {lines : List (List UInt8)} (h : lines ≠ []) (b : UInt8)
    (more : List (List UInt8)) : consLine b (lines ++ more) = consLine b lines ++ more := by
  cases lines with
  | nil => exact absurd rfl h
  | cons line lines => rfl

theorem splitLines_ne_nil (s : List UInt8) : splitLines s ≠ [] := by
  fun_cases splitLines s with
  | case1 => exact List.cons_ne_nil _ _
  | case2 b => exact List.cons_ne_nil _ _
  | case3 b c s h => exact List.cons_ne_nil _ _
  | case4 b c s h =>
    cases splitLines (c :: s) with
    | nil => exact List.cons_ne_nil _ _
    | cons line lines => exact List.cons_ne_nil _ _

/-- A separator cannot begin in `a` and end behind it, because it begins with a CR. -/
theorem splitLines_append (a b : List UInt8) :
    splitLines (a ++ bytes "\r\n" ++ b) = splitLines a ++ splitLines b := by
  have hbreak : ∀ s, bytes "\r\n" ++ s = byte '\r' :: byte '\n' :: s := fun s => rfl
  rw [List.append_assoc, hbreak]
  fun_induction splitLines a with
  | case1 => simp [splitLines]
  | case2 x =>
    have hx : ¬(x = byte '\r' ∧ byte '\r' = byte '\n') := fun h => absurd h.2 (by decide)
    simp [splitLines, hx, consLine]
  | case3 x c s h ih =>
    rw [List.cons_append, List.cons_append, splitLines, if_pos h, ih, List.cons_append]
  | case4 x c s h ih =>
    rw [List.cons_append, List.cons_append, splitLines, if_neg h, ← List.cons_append, ih,
      consLine_append (splitLines_ne_nil _)]

theorem splitLines_of_not_mem {s : List UInt8} (h : byte '\r' ∉ s) : splitLines s = [s] := by
  fun_induction splitLines s with
  | case1 => rfl
  | case2 b => rfl
  | case3 b c s hb ih => exact absurd (hb.1 ▸ List.mem_cons_self) h
  | case4 b c s hb ih =>
    rw [ih (fun hc => h (List.mem_cons_of_mem _ hc))]
    rfl

def isBlank (b : UInt8) : Bool := b = byte ' ' || b = byte '\t'

/-- A value without the blanks around it. -/
def trim (s : List UInt8) : List UInt8 := (s.dropWhile isBlank).rdropWhile isBlank

theorem trim_of_not_blank {s : List UInt8} (h : ∀ b ∈ s, isBlank b = false) : trim s = s := by
  have hfront : s.dropWhile isBlank = s := by
    rw [List.dropWhile_eq_self_iff]
    intro hlen hblank
    rw [h _ (List.getElem_mem hlen)] at hblank
    cases hblank
  rw [trim, hfront, List.rdropWhile_eq_self_iff]
  intro hne hblank
  rw [h _ (List.getLast_mem hne)] at hblank
  cases hblank

theorem trim_decimal (n : ℕ) : trim (decimal n) = decimal n := by
  apply trim_of_not_blank
  intro b hb
  have hdigit := digit_of_mem_decimal hb
  rw [isBlank, Bool.or_eq_false_iff, decide_eq_false_iff_not, decide_eq_false_iff_not]
  constructor
  · rintro rfl
    exact absurd hdigit (by decide)
  · rintro rfl
    exact absurd hdigit (by decide)

/-- A name is `Content-Length` in any case. -/
def isLength (name : List UInt8) : Prop := name.map toLower = (bytes "content-length").map toLower

instance (name : List UInt8) : Decidable (isLength name) := inferInstanceAs (Decidable (_ = _))

/-- The value of a line if it is a `Content-Length` one. -/
def lengthOf (line : List UInt8) : Option (List UInt8) :=
  match line.dropWhile (· ≠ byte ':') with
  | [] => none
  | _ :: value => if isLength (line.takeWhile (· ≠ byte ':')) then some (trim value) else none

def lengths (text : List UInt8) : List (List UInt8) := (splitLines text).filterMap lengthOf

theorem lengths_append (a b : List UInt8) :
    lengths (a ++ bytes "\r\n" ++ b) = lengths a ++ lengths b := by
  rw [lengths, splitLines_append, List.filterMap_append]
  rfl

/-- The line of a header, without its end. -/
def field (name value : List UInt8) : List UInt8 := name ++ bytes ": " ++ value

theorem lengths_headerLine (name value rest : List UInt8) :
    lengths (headerLine name value ++ rest) = lengths (field name value) ++ lengths rest :=
  lengths_append (field name value) rest

theorem lengthOf_field {name : List UInt8} (hname : byte ':' ∉ name) (value : List UInt8) :
    lengthOf (field name value) = if isLength name then some (trim value) else none := by
  have hne : ∀ b ∈ name, decide (b ≠ byte ':') = true := by
    intro b hb
    rw [decide_eq_true_eq]
    rintro rfl
    exact hname hb
  have hfield : field name value = name ++ byte ':' :: byte ' ' :: value := by
    rw [field, List.append_assoc]
    rfl
  have hblank : trim (byte ' ' :: value) = trim value := rfl
  rw [lengthOf, hfield, List.dropWhile_append_of_pos hne, List.takeWhile_append_of_pos hne,
    List.dropWhile_cons_of_neg (by decide), List.takeWhile_cons_of_neg (by decide),
    List.append_nil, ← hblank]

/-- A header whose text is one line announces a length only under that name. -/
theorem lengths_field {name value : List UInt8} (hname : byte ':' ∉ name)
    (hline : byte '\r' ∉ name) (hvalue : byte '\r' ∉ value) :
    lengths (field name value) = if isLength name then [trim value] else [] := by
  have hcr : byte '\r' ∉ field name value := by
    rw [field, List.mem_append, List.mem_append]
    rintro ((h | h) | h)
    · exact hline h
    · exact absurd h (by decide)
    · exact hvalue h
  rw [lengths, splitLines_of_not_mem hcr, List.filterMap_cons, lengthOf_field hname]
  by_cases hlength : isLength name
  · rw [if_pos hlength, if_pos hlength]
    rfl
  · rw [if_neg hlength, if_neg hlength]
    rfl

theorem lengths_connectionLine (close : Bool) (rest : List UInt8) :
    lengths (connectionLine close ++ rest) = lengths rest := by
  have hnone : lengths (field (bytes "Connection") (connectionValue close)) = [] := by
    cases close <;> decide
  rw [connectionLine, lengths_headerLine, hnone, List.nil_append]

/-- The lengths that the written headers announce themselves. -/
def announced (headers : MapType) : List (List UInt8) :=
  (headers.entries.filter fun e => !sameIgnoringCase e.1 (bytes "connection")).flatMap fun e =>
    lengths (field e.1 e.2)

theorem lengths_headerLines (headers : MapType) (rest : List UInt8) :
    lengths (headerLines headers ++ rest) = announced headers ++ lengths rest := by
  rw [headerLines, announced]
  generalize headers.entries.filter _ = written
  induction written with
  | nil => rfl
  | cons e written ih =>
    rw [List.flatMap_cons, List.flatMap_cons, List.append_assoc, lengths_headerLine, ih,
      List.append_assoc]

/-- The line that `dump` adds itself. -/
theorem lengths_lengthLines (body : List UInt8) :
    lengths (lengthLines body) = if body = [] then [] else [decimal body.length] := by
  have hend : lengths (bytes "\r\n") = [] := by decide
  have hfield : lengths (field (bytes "Content-Length") (decimal body.length)) =
      [decimal body.length] := by
    have hcr : byte '\r' ∉ decimal body.length := fun h =>
      absurd (digit_of_mem_decimal h) (by decide)
    rw [lengths_field (by decide) (by decide) hcr, if_pos (by decide), trim_decimal]
  rw [lengthLines]
  split
  · rw [List.nil_append, hend]
  · rw [lengths_headerLine, hfield, hend, List.append_nil]

/-- At most one `Content-Length` line stands in the head, its value is the size of the body, and
a body that is not empty has one. -/
def Framed (head body : List UInt8) : Prop :=
  (lengths head = [] ∧ body = []) ∨ lengths head = [decimal body.length]

/-- Nothing but `dump` itself announces a length, or the body is empty and zero is announced. -/
def Unannounced (own : List (List UInt8)) (body : List UInt8) : Prop :=
  own = [] ∨ (own = [decimal 0] ∧ body = [])

theorem framed_iff_unannounced {head body : List UInt8} {own : List (List UInt8)}
    (h : lengths head = own ++ lengths (lengthLines body)) :
    Framed head body ↔ Unannounced own body := by
  rw [lengths_lengthLines] at h
  rw [Framed, Unannounced, h]
  by_cases hbody : body = []
  · subst hbody
    simp
  · simp [hbody]

/-- The lengths that the text of the first line and the headers of a request announce. -/
def requestLengths (r : HttpRequest) : List (List UInt8) :=
  lengths r.requestLine ++ announced r.headers

/-- The lengths that the text of the first line and the headers of a response announce. -/
def responseLengths (r : HttpResponse) : List (List UInt8) :=
  lengths r.statusLine ++ announced r.headers

/-- A text that ends with CR LF is followed by other lines. -/
theorem lengths_startLine (text rest : List UInt8) :
    lengths (text ++ bytes "\r\n" ++ rest) = lengths (text ++ bytes "\r\n") ++ lengths rest := by
  have hend : lengths [] = [] := by decide
  have halone := lengths_append text []
  rw [hend, List.append_nil, List.append_nil] at halone
  rw [lengths_append, halone]

theorem lengths_request (r : HttpRequest) :
    lengths r.head = requestLengths r ++ lengths (lengthLines r.body) := by
  rw [HttpRequest.head, requestLengths, List.append_assoc, List.append_assoc,
    HttpRequest.requestLine, lengths_startLine, lengths_connectionLine, lengths_headerLines,
    ← List.append_assoc]

theorem lengths_response (r : HttpResponse) :
    lengths r.head = responseLengths r ++ lengths (lengthLines r.body) := by
  rw [HttpResponse.head, responseLengths, List.append_assoc, List.append_assoc,
    HttpResponse.statusLine, lengths_startLine, lengths_headerLines, lengths_connectionLine,
    ← List.append_assoc]

/-- The written head frames the body exactly when the message does not announce a length of its
own, or announces zero for an empty body. -/
theorem head_framed_iff (q : HttpRequest) (r : HttpResponse) :
    (Framed q.head q.body ↔ Unannounced (requestLengths q) q.body) ∧
      (Framed r.head r.body ↔ Unannounced (responseLengths r) r.body) :=
  ⟨framed_iff_unannounced (lengths_request q), framed_iff_unannounced (lengths_response r)⟩

def posted : List UInt8 := bytes "POST / HTTP/1.1\r\nContent-Length: 5\r\n\r\n"

/-- The request that is read from a head and gets its body. -/
def received (head body : List UInt8) : Option HttpRequest :=
  match HttpRequestParser.execute head head.length (.fresh false) with
  | .done _ v =>
    if v.isFinished && !v.hasError then some (v.data.setBody body) else none
  | _ => none

/-- The parsed request keeps its `Content-Length` header, and `dump` adds another line. -/
theorem redumped_twice :
    (received posted (bytes "hello")).map (fun r => lengths r.head) =
      some [bytes "5", bytes "5"] := by
  decide +kernel

end Framing
end Sylar.Http
