import Mathlib.Data.List.Lex
import Sylar.Memory.OrderedMap

/-! # Requests

`HttpRequest` with the part of its data that a parser sets: method, version, target,
headers, body. A `std::string` is a list of bytes.
-/
namespace Sylar.Http
open Memory

/-- The byte of an ASCII character, and the bytes of a string literal. -/
def byte (c : Char) : UInt8 := UInt8.ofNat c.toNat
def bytes (s : String) : List UInt8 := s.toList.map byte

inductive HttpMethod where
  | delete | get | head | post | put
  | connect | options | trace
  | copy | lock | mkcol | move | propfind | proppatch | search | unlock | bind | rebind | unbind
  | acl
  | report | mkactivity | checkout | merge
  | msearch | notify | subscribe | unsubscribe
  | patch | purge
  | mkcalendar
  | link | unlink
  | source
deriving DecidableEq, Repr

/-- `HTTP_METHOD_MAP`, in its order. The preprocessor spells `M - SEARCH` with blanks. -/
def httpMethodMap : List (HttpMethod × List UInt8) :=
  [(.delete, bytes "DELETE"), (.get, bytes "GET"), (.head, bytes "HEAD"), (.post, bytes "POST"),
    (.put, bytes "PUT"), (.connect, bytes "CONNECT"), (.options, bytes "OPTIONS"),
    (.trace, bytes "TRACE"), (.copy, bytes "COPY"), (.lock, bytes "LOCK"),
    (.mkcol, bytes "MKCOL"), (.move, bytes "MOVE"), (.propfind, bytes "PROPFIND"),
    (.proppatch, bytes "PROPPATCH"), (.search, bytes "SEARCH"), (.unlock, bytes "UNLOCK"),
    (.bind, bytes "BIND"), (.rebind, bytes "REBIND"), (.unbind, bytes "UNBIND"),
    (.acl, bytes "ACL"), (.report, bytes "REPORT"), (.mkactivity, bytes "MKACTIVITY"),
    (.checkout, bytes "CHECKOUT"), (.merge, bytes "MERGE"), (.msearch, bytes "M - SEARCH"),
    (.notify, bytes "NOTIFY"), (.subscribe, bytes "SUBSCRIBE"),
    (.unsubscribe, bytes "UNSUBSCRIBE"), (.patch, bytes "PATCH"), (.purge, bytes "PURGE"),
    (.mkcalendar, bytes "MKCALENDAR"), (.link, bytes "LINK"), (.unlink, bytes "UNLINK"),
    (.source, bytes "SOURCE")]

/-- `strncmp(literal, memory, n) == 0`, the literal without its final NUL; `none` when the
comparison runs past the end of the memory. -/
def strncmp : List UInt8 → List UInt8 → ℕ → Option Bool
  | _, _, 0 => some true
  | _, [], _ + 1 => none
  | [], m :: _, _ + 1 => some (m = 0)
  | l :: ls, m :: ms, n + 1 => if l = m then strncmp ls ms n else some false

/-- `CharsToHttpMethod(m)`: the first name that the memory starts with. The outer `none` is a
read past the end, the inner one `INVAILD_METHOD`. -/
def charsToHttpMethod (m : List UInt8) : Option (Option HttpMethod) :=
  go httpMethodMap
where
  go : List (HttpMethod × List UInt8) → Option (Option HttpMethod)
    | [] => some none
    | (method, name) :: rest =>
      match strncmp name m name.length with
      | none => none
      | some true => some (some method)
      | some false => go rest

def toLower (b : UInt8) : ℕ := if 65 ≤ b.toNat ∧ b.toNat ≤ 90 then b.toNat + 32 else b.toNat

/-- What `strcasecmp` compares: the bytes before the first NUL, in lower case. -/
def caseFolded (s : List UInt8) : List ℕ := (s.takeWhile (· ≠ 0)).map toLower

/-- `strcasecmp(s.c_str(), t.c_str()) == 0`. -/
def sameIgnoringCase (s t : List UInt8) : Bool := caseFolded s = caseFolded t

/-- `std::map` ordered by `CaseInsensitiveLess`. -/
abbrev MapType := OrderedMap (List UInt8) (List UInt8) caseFolded

structure HttpRequest where
  method : HttpMethod
  version : UInt8
  close : Bool
  path : List UInt8
  query : List UInt8
  fragment : List UInt8
  headers : MapType
  body : List UInt8
deriving DecidableEq

namespace HttpRequest

/-- `HttpRequest(0x11, false)`. -/
def fresh : HttpRequest := ⟨.get, 0x11, false, bytes "/", [], [], .empty, []⟩

def setMethod (r : HttpRequest) (v : HttpMethod) : HttpRequest := { r with method := v }
def setVersion (r : HttpRequest) (v : UInt8) : HttpRequest := { r with version := v }
def setClose (r : HttpRequest) (v : Bool) : HttpRequest := { r with close := v }
def setPath (r : HttpRequest) (v : List UInt8) : HttpRequest := { r with path := v }
def setQuery (r : HttpRequest) (v : List UInt8) : HttpRequest := { r with query := v }
def setFragment (r : HttpRequest) (v : List UInt8) : HttpRequest := { r with fragment := v }
def setBody (r : HttpRequest) (v : List UInt8) : HttpRequest := { r with body := v }
def setHeader (r : HttpRequest) (key val : List UInt8) : HttpRequest :=
  { r with headers := r.headers.set key val }

def getHeader (r : HttpRequest) (key : List UInt8) (default : List UInt8) : List UInt8 :=
  (r.headers.find key).getD default

/-- `getHeaderAs<uint64_t>(key, def)`, for some `boost::lexical_cast<uint64_t>`. -/
def getHeaderAs (lexicalCast : List UInt8 → Option ℕ) (r : HttpRequest) (key : List UInt8)
    (default : ℕ) : ℕ :=
  match r.headers.find key with
  | none => default
  | some val => (lexicalCast val).getD default

end HttpRequest

end Sylar.Http
