import Sylar.Http.Dump
import Sylar.Http.Grammar
import Sylar.Ragel.Eof

/-! # URIs

`uri.rl`: the grammar, its actions with the one pointer that they share, `Uri::Create` and what a
`Uri` is written as. In this language `2` is the byte 2. The actions `save_segment` and
`clear_segments` and the rules `reserved`, `path`, `absolute_URI` and `relative_URI` are used by nothing.
-/
namespace Sylar.Http
open Memory Ragel Ragel.Expr
open Sylar.Stream (toInt)

inductive UriAction where
  | marku
  | markh
  | saveScheme
  | savePort
  | saveUserinfo
  | saveHost
  | savePath
  | saveQuery
  | saveFragment
deriving DecidableEq, Repr

namespace UriGrammar
open Grammar (range oneOf one str anyOf inTurn any ascii digit alpha xdigit)

abbrev Rule := Expr UriAction

def subDelims : Cls := oneOf "!$&'()*+,;="
def unreserved : Cls := .union alpha (.union digit (oneOf "-._~"))
def pctEncoded : Rule := inTurn [one '%', cls xdigit, cls xdigit]

def scheme : Rule :=
  ((seq (cls alpha) (star (anyOf [cls alpha, cls digit, one '+', one '-', one '.']))).entering
    .marku).leaving .saveScheme

def userinfo : Rule := star (anyOf [cls unreserved, pctEncoded, cls subDelims, one ':'])

def decOctet : Rule := anyOf [cls digit, seq (cls (range '1' '9')) (cls digit),
  seq (one '1') (times (cls digit) 2), inTurn [lit 2, cls (range '0' '4'), cls digit],
  seq (str "25") (cls (range '0' '5'))]

def IPv4address : Rule :=
  inTurn [decOctet, one '.', decOctet, one '.', decOctet, one '.', decOctet]
def h16 : Rule := seq (cls xdigit) (upTo (cls xdigit) 3)
def h16Colon : Rule := seq h16 (one ':')
def ls32 : Rule := alt (inTurn [h16, one ':', h16]) IPv4address

/-- `((h16 ":"){n} h16)?`. -/
def h16s (n : ℕ) : Rule := opt (seq (times h16Colon n) h16)

def IPv6address : Rule := anyOf [
  seq (times h16Colon 6) ls32,
  inTurn [str "::", times h16Colon 5, ls32],
  inTurn [opt h16, str "::", times h16Colon 4, ls32],
  inTurn [h16s 1, str "::", times h16Colon 3, ls32],
  inTurn [h16s 2, str "::", times h16Colon 2, ls32],
  inTurn [h16s 3, str "::", times h16Colon 1, ls32],
  inTurn [h16s 4, str "::", ls32],
  inTurn [h16s 5, str "::", h16],
  inTurn [h16s 6, str "::"]]

def IPvFuture : Rule := inTurn [one 'v', plus (cls xdigit), one '.',
  plus (anyOf [cls unreserved, cls subDelims, one ':'])]

def IPLiteral : Rule := inTurn [one '[', alt IPv6address IPvFuture, one ']']
def regName : Rule := star (anyOf [cls unreserved, pctEncoded, cls subDelims])
def host : Rule := anyOf [IPLiteral, IPv4address, regName]
def port : Rule := star (cls digit)

def authority : Rule :=
  (inTurn [opt (seq (userinfo.leaving .saveUserinfo) (one '@')),
    (host.entering .markh).leaving .saveHost,
    opt (seq (one ':') ((port.entering .markh).leaving .savePort))]).entering .markh

def pchar : Rule := anyOf [cls (.diff any ascii), cls unreserved, pctEncoded, cls subDelims,
  one ':', one '@']
def segment : Rule := star pchar
def segmentNz : Rule := plus pchar
def segmentNzNc : Rule :=
  plus (anyOf [cls (.diff any ascii), cls unreserved, pctEncoded, cls subDelims, one '@'])

def segments : Rule := star (seq (one '/') segment)
def pathAbempty : Rule := seq (opt (seq (one '/') segment)) segments
def pathAbsolute : Rule := seq (one '/') (opt (seq segmentNz segments))
def pathNoscheme : Rule := seq segmentNzNc segments
def pathRootless : Rule := seq segmentNz segments

def query : Rule := ((star (anyOf [pchar, one '/', one '?'])).entering .marku).leaving .saveQuery
def fragment : Rule :=
  ((star (anyOf [pchar, one '/', one '?'])).entering .marku).leaving .saveFragment

def hierPart : Rule := anyOf [
  inTurn [str "//", authority, (pathAbempty.entering .markh).leaving .savePath],
  pathAbsolute, pathRootless, eps]

def relativePart : Rule :=
  anyOf [inTurn [str "//", authority, pathAbempty], pathAbsolute, pathNoscheme, eps]

/-- `( "?" query )? ( "#" fragment )?`. -/
def tail : Rule := seq (opt (seq (one '?') query)) (opt (seq (one '#') fragment))

def relativeRef : Rule := seq relativePart tail
def URI : Rule := inTurn [scheme, one ':', hierPart, tail]
def main : Rule := alt URI relativeRef

end UriGrammar

/-- `Uri`, and the value of its members in a new one. -/
structure Uri where
  scheme : List UInt8
  userInfo : List UInt8
  host : List UInt8
  path : List UInt8
  query : List UInt8
  fragment : List UInt8
  port : ℤ
deriving DecidableEq, Repr

namespace Uri

def fresh : Uri := ⟨[], [], [], [], [], [], 0⟩

inductive Exception where
  | logicError
deriving DecidableEq, Repr

/-- The local variables of `Create`; a null `mark` is none. -/
structure Parser where
  mark : Option ℕ
  uri : Uri
deriving DecidableEq, Repr

abbrev Parse := Command Exception Parser

section Actions

-- The string with the NUL behind it.
variable (memory : List UInt8)

/-- `std::string(mark, fpc - mark)`, which throws for a null pointer. -/
def text (p : ℕ) : Parse (List UInt8) := do
  let v ← Command.state
  match v.mark with
  | none => Command.raise .logicError
  | some m => pure ((memory.drop m).take (p - m))

def setMark (mark : Option ℕ) : Parse Unit := Command.modify fun v => { v with mark }
def update (f : Uri → Uri) : Parse Unit := Command.modify fun v => { v with uri := f v.uri }

/-- `std::string(mark, fpc - mark)` stored, and the pointer set to null. -/
def save (p : ℕ) (set : List UInt8 → Uri → Uri) : Parse Unit := do
  let s ← text memory p
  update (set s)
  setMark none

def action (a : UriAction) (p : ℕ) : Parse Unit := do
  let v ← Command.state
  match a with
  | .marku => setMark (some p)
  | .markh => setMark (some p)
  | .saveScheme => save memory p fun s u => { u with scheme := s }
  | .savePort => do
    if some p ≠ v.mark then
      match v.mark with
      -- `atoi(NULL)`
      | none => Command.abort .nullPointer
      | some m =>
        match strtolInt 10 (memory.drop m) with
        | none => Command.abort .outOfBounds
        | some n => update fun u => { u with port := n }
    else pure ()
    setMark none
  | .saveUserinfo => do
    if v.mark.isSome then do
      let s ← text memory p
      update fun u => { u with userInfo := s }
    else pure ()
    setMark none
  | .saveHost =>
    if v.mark.isSome then do
      let s ← text memory p
      update fun u => { u with host := s }
    else pure ()
  | .savePath => save memory p fun s u => { u with path := s }
  | .saveQuery => save memory p fun s u => { u with query := s }
  | .saveFragment => save memory p fun s u => { u with fragment := s }

end Actions

/-- `Uri::Create(uri_str)`: none is the null pointer. -/
def create (s : List UInt8) : Outcome Exception Parser (Option Uri) :=
  (do
    let halt ← execEof (action (s ++ [0])) (start UriGrammar.main) 0 s
    let v ← Command.state
    match halt.cs with
    | none => pure none
    | some cs => pure (if final cs then some v.uri else none) : Parse (Option Uri)) ⟨none, .fresh⟩

section Text

variable (u : Uri)

def isDefaultPort : Bool :=
  if u.port = 0 then true
  else if u.scheme = bytes "http" then u.port = 80
  else if u.scheme = bytes "https" then u.port = 443
  else false

def getPath : List UInt8 := if u.path.isEmpty then bytes "/" else u.path

def getPort : ℤ :=
  if u.port ≠ 0 then u.port
  else if u.scheme = bytes "http" then 80
  else if u.scheme = bytes "https" then 443
  else u.port

/-- `std::to_string` of an `int`. -/
def numberText (z : ℤ) : List UInt8 :=
  if z < 0 then bytes "-" ++ decimal z.natAbs else decimal z.natAbs

/-- `dump`, which `toString` collects. -/
def toString : List UInt8 :=
  u.scheme ++ bytes "://" ++
  u.userInfo ++
  (if u.userInfo.isEmpty then [] else bytes "@") ++
  u.host ++
  (if u.isDefaultPort then [] else bytes ":" ++ numberText u.port) ++
  u.getPath ++
  (if u.query.isEmpty then [] else bytes "?") ++
  u.query ++
  (if u.fragment.isEmpty then [] else bytes "#") ++
  u.fragment

end Text

end Uri

end Sylar.Http
