import Sylar.Http.Heads

/-! # The texts of messages

`HttpRequest::dump` and `HttpResponse::dump` write a message into a stream.
-/
namespace Sylar.Http
open Memory

def decimal (n : ℕ) : List UInt8 := (Nat.toDigits 10 n).map byte

theorem decimal_ne_nil (n : ℕ) : decimal n ≠ [] := by
  rw [decimal, ne_eq, List.map_eq_nil_iff]
  exact Nat.toDigits_ne_nil

theorem digit_of_mem_decimal {n : ℕ} {b : UInt8} (hb : b ∈ decimal n) :
    48 ≤ b.toNat ∧ b.toNat ≤ 57 := by
  rcases List.mem_map.mp hb with ⟨c, hc, rfl⟩
  have hdigit := Nat.isDigit_of_mem_toDigits (by decide) le_rfl hc
  rw [Char.isDigit, Bool.and_eq_true, decide_eq_true_eq, decide_eq_true_eq] at hdigit
  have hlow : 48 ≤ c.toNat := hdigit.1
  have hhigh : c.toNat ≤ 57 := hdigit.2
  rw [byte, UInt8.toNat_ofNat', Nat.mod_eq_of_lt (by omega)]
  exact ⟨hlow, hhigh⟩

/-- `"HTTP/" << (version >> 4) << "." << (version & 0x0F)`. -/
def versionText (version : UInt8) : List UInt8 :=
  bytes "HTTP/" ++ decimal (version >>> 4).toNat ++ bytes "." ++ decimal (version &&& 0x0F).toNat

theorem readVersion_text {version : UInt8} (h : version = 0x10 ∨ version = 0x11)
    (pre tail post : List UInt8) :
    readVersion ((pre ++ (versionText version ++ tail) ++ post).drop pre.length) 8 =
      some (some version) := by
  rw [List.append_assoc, List.drop_left, List.append_assoc]
  apply readVersion_longer
  rcases h with rfl | rfl <;> decide

/-- `i.first << ": " << i.second << "\r\n"`. -/
def headerLine (name value : List UInt8) : List UInt8 :=
  name ++ bytes ": " ++ value ++ bytes "\r\n"

/-- Where a line of the head has the name and the value. -/
theorem stdString_headerLine {σ : Type} {pre name value : List UInt8}
    (hlen : (pre ++ headerLine name value).length < 2 ^ 31) (rest : List UInt8) (x : σ) :
    stdString (pre ++ headerLine name value ++ rest) pre.length name.length x = .done name x ∧
    stdString (pre ++ headerLine name value ++ rest) (pre.length + (name.length + 2)) value.length x =
      .done value x := by
  have hname : name.length ≤ maxSize ∧ value.length ≤ maxSize := by
    rw [headerLine] at hlen
    simp only [List.length_append] at hlen
    rw [maxSize]
    omega
  have hfront : pre ++ headerLine name value ++ rest =
      pre ++ name ++ (bytes ": " ++ value ++ bytes "\r\n" ++ rest) := by
    simp [headerLine]
  have hback : pre ++ headerLine name value ++ rest =
      (pre ++ (name ++ bytes ": ")) ++ value ++ (bytes "\r\n" ++ rest) := by
    simp [headerLine]
  constructor
  · rw [hfront]
    exact stdString_middle hname.1 rfl rfl
  · rw [hback]
    exact stdString_middle hname.2 (by rw [List.length_append, List.length_append]; rfl) rfl

def connectionValue (close : Bool) : List UInt8 :=
  if close then bytes "Close" else bytes "Keep-Alive"

def connectionLine (close : Bool) : List UInt8 :=
  headerLine (bytes "Connection") (connectionValue close)

def headerLines (headers : MapType) : List UInt8 :=
  (headers.entries.filter fun e => !sameIgnoringCase e.1 (bytes "connection")).flatMap fun e =>
    headerLine e.1 e.2

theorem headerLines_eq {headers : MapType}
    (h : ∀ e ∈ headers.entries, caseFolded e.1 ≠ caseFolded (bytes "Connection")) :
    headerLines headers = headers.entries.flatMap fun e => headerLine e.1 e.2 := by
  have hname : caseFolded (bytes "connection") = caseFolded (bytes "Connection") := by decide
  rw [headerLines, List.filter_eq_self.mpr]
  intro e he
  rw [Bool.not_eq_true', sameIgnoringCase, decide_eq_false_iff_not, hname]
  exact h e he

/-- The line for a body that is not empty, and the empty line. -/
def lengthLines (body : List UInt8) : List UInt8 :=
  (if body = [] then [] else headerLine (bytes "Content-Length") (decimal body.length)) ++
    bytes "\r\n"

/-- The headers of the text. -/
def sentHeaders (headers : MapType) (close : Bool) (body : List UInt8) : MapType :=
  let connected := headers.set (bytes "Connection") (connectionValue close)
  if body = [] then connected else connected.set (bytes "Content-Length") (decimal body.length)

/-- `HttpMethodToString`: the numbers of the methods are their places in the map. -/
def httpMethodToString (m : HttpMethod) : List UInt8 :=
  ((httpMethodMap.find? fun e => e.1 = m).map Prod.snd).getD (bytes "<unknow>")

/-- A part of the target with the character in front of it, unless it is empty. -/
def targetPart (c : Char) (s : List UInt8) : List UInt8 := if s = [] then [] else byte c :: s

namespace HttpRequest

def requestLine (r : HttpRequest) : List UInt8 :=
  httpMethodToString r.method ++ bytes " " ++ r.path ++ targetPart '?' r.query ++
    targetPart '#' r.fragment ++ bytes " " ++ versionText r.version ++ bytes "\r\n"

/-- What `dump` writes in front of the body. -/
def head (r : HttpRequest) : List UInt8 :=
  r.requestLine ++ connectionLine r.close ++ headerLines r.headers ++ lengthLines r.body

def dump (r : HttpRequest) : List UInt8 := r.head ++ r.body

def toString (r : HttpRequest) : List UInt8 := r.dump

end HttpRequest

/-- `HTTP_STATUS_MAP`. The preprocessor spells some descriptions with blanks. -/
def httpStatusMap : List (ℤ × List UInt8) :=
  [(100, bytes "Continue"), (101, bytes "Switching Protocols"), (102, bytes "Processing"),
    (200, bytes "OK"), (201, bytes "Created"), (202, bytes "Accepted"),
    (203, bytes "Non - Authoritative Information"), (204, bytes "No Content"),
    (205, bytes "Reset Content"), (206, bytes "Partial Content"), (207, bytes "Multi - Status"),
    (208, bytes "Already Reported"), (226, bytes "IM Used"), (300, bytes "Multiple Choices"),
    (301, bytes "Moved Permanently"), (302, bytes "Found"), (303, bytes "See Other"),
    (304, bytes "Not Modified"), (305, bytes "Use Proxy"), (307, bytes "Temporary Redirect"),
    (308, bytes "Permanent Redirect"), (400, bytes "Bad Request"), (401, bytes "Unauthorized"),
    (402, bytes "Payment Required"), (403, bytes "Forbidden"), (404, bytes "Not Found"),
    (405, bytes "Method Not Allowed"), (406, bytes "Not Acceptable"),
    (407, bytes "Proxy Authentication Required"), (408, bytes "Request Timeout"),
    (409, bytes "Conflict"), (410, bytes "Gone"), (411, bytes "Length Required"),
    (412, bytes "Precondition Failed"), (413, bytes "Payload Too Large"),
    (414, bytes "URI Too Long"), (415, bytes "Unsupported Media Type"),
    (416, bytes "Range Not Satisfiable"), (417, bytes "Expectation Failed"),
    (421, bytes "Misdirected Request"), (422, bytes "Unprocessable Entity"),
    (423, bytes "Locked"), (424, bytes "Failed Dependency"), (426, bytes "Upgrade Required"),
    (428, bytes "Precondition Required"), (429, bytes "Too Many Requests"),
    (431, bytes "Request Header Fields Too Large"),
    (451, bytes "Unavailable For Legal Reasons"), (500, bytes "Internal Server Error"),
    (501, bytes "Not Implemented"), (502, bytes "Bad Gateway"),
    (503, bytes "Service Unavailable"), (504, bytes "Gateway Timeout"),
    (505, bytes "HTTP Version Not Supported"), (506, bytes "Variant Also Negotiates"),
    (507, bytes "Insufficient Storage"), (508, bytes "Loop Detected"),
    (510, bytes "Not Extended"), (511, bytes "Network Authentication Required")]

def httpStatusToString (status : ℤ) : List UInt8 :=
  ((httpStatusMap.find? fun e => e.1 = status).map Prod.snd).getD (bytes "<unknow>")

namespace HttpResponse

/-- `m_reason.empty() ? HttpStatusToString(m_status) : m_reason`. -/
def effectiveReason (r : HttpResponse) : List UInt8 :=
  if r.reason = [] then httpStatusToString r.status else r.reason

/-- The status is written as a `uint32_t`. -/
def statusLine (r : HttpResponse) : List UInt8 :=
  versionText r.version ++ bytes " " ++ decimal (r.status % 2 ^ 32).toNat ++ bytes " " ++
    r.effectiveReason ++ bytes "\r\n"

/-- What `dump` writes in front of the body. -/
def head (r : HttpResponse) : List UInt8 :=
  r.statusLine ++ headerLines r.headers ++ connectionLine r.close ++ lengthLines r.body

def dump (r : HttpResponse) : List UInt8 := r.head ++ r.body

def toString (r : HttpResponse) : List UInt8 := r.dump

end HttpResponse

end Sylar.Http
