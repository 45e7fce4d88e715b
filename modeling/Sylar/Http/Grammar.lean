import Sylar.Http.Request
import Sylar.Ragel.Expr

/-! # The request grammar

`http11_parser.rl`, rule by rule. In this language `0 - 31` and `"1"-"9"` are
differences of machines, not ranges, and `6( x )` is the byte 6 followed by `x`;
they are translated as they stand. Of the rules that `main` does not use only `path` is
kept (`reserved` and `absolute_URI` are left out).
-/
namespace Sylar.Http
open Ragel Ragel.Expr

inductive Action where
  | mark
  | startField
  | writeField
  | startValue
  | writeValue
  | requestMethod
  | requestUri
  | fragment
  | startQuery
  | queryString
  | httpVersion
  | requestPath
  | done
  | xml
  | json
deriving DecidableEq, Repr

namespace Grammar

abbrev Rule := Expr Action

def chr (c : Char) : Cls := .range (byte c) (byte c)
def range (c d : Char) : Cls := .range (byte c) (byte d)
def oneOf (s : String) : Cls := s.toList.foldr (fun c cs => .union (chr c) cs) .none

theorem mem_chr {c : Char} {b : UInt8} : (chr c).mem b = decide (b = byte c) := by
  rw [chr, Cls.mem, Bool.eq_iff_iff]
  simp only [Bool.and_eq_true, decide_eq_true_eq]
  rw [← UInt8.toNat_inj]
  omega

theorem mem_oneOf {s : String} {b : UInt8} : (oneOf s).mem b = true ↔ b ∈ bytes s := by
  unfold oneOf bytes
  induction s.toList with
  | nil => simp [Cls.mem]
  | cons c l ih => simp [Cls.mem, mem_chr, ih]

section Rules

variable {A : Type}

def one (c : Char) : Expr A := cls (chr c)
def str (s : String) : Expr A := word (bytes s)

/-- The alternatives of a rule, the first one listed first. -/
def anyOf : List (Expr A) → Expr A
  | [] => cls .none
  | [e] => e
  | e :: es => alt e (anyOf es)

/-- The parts of a rule, one after the other. -/
def inTurn : List (Expr A) → Expr A
  | [] => eps
  | [e] => e
  | e :: es => seq e (inTurn es)

def CRLF : Expr A := alt (str "\r\n") (one '\n')

end Rules

def any : Cls := .range 0 255

theorem mem_any (b : UInt8) : any.mem b = true := by
  have hb := b.toNat_lt
  simp [any, Cls.mem]
  omega

def ascii : Cls := .range 0 127
def digit : Cls := range '0' '9'
def upper : Cls := range 'A' 'Z'
def alpha : Cls := .union (range 'A' 'Z') (range 'a' 'z')
def xdigit : Cls := .union digit (.union (range 'A' 'F') (range 'a' 'f'))
def space : Cls := .union (.range 9 13) (chr ' ')

section Uri

-- `parser->uri_relaxed`, which nobody sets.
variable (relaxed : Bool)

def moreDelims : Cls := if relaxed then oneOf "\x7b\x7d^" else .none
def subDelims : Cls :=
  .union (oneOf "!$&'()*+,;=") (moreDelims relaxed)
def unreserved : Cls := .union alpha (.union digit (oneOf "-._~"))
def pctEncoded : Rule := inTurn [one '%', cls xdigit, cls xdigit]

def pchar : Rule := anyOf [cls (.diff any ascii), cls unreserved, pctEncoded,
  cls (subDelims relaxed), one ':', one '@']

def fragment : Rule :=
  ((star (anyOf [pchar relaxed, one '/', one '?'])).entering .mark).leaving .fragment
def query : Rule := (star (anyOf [pchar relaxed, one '/', one '?'])).leaving .queryString

def segmentNzNc : Rule :=
  plus (anyOf [cls unreserved, pctEncoded, cls (subDelims relaxed), one '@'])
def segmentNz : Rule := plus (pchar relaxed)
def segment : Rule := star (pchar relaxed)

def pathEmpty : Rule := times (pchar relaxed) 0
def pathRootless : Rule := seq (segmentNz relaxed) (star (seq (one '/') (segment relaxed)))
def pathNoscheme : Rule := seq (segmentNzNc relaxed) (star (seq (one '/') (segment relaxed)))
def pathAbsolute : Rule :=
  seq (one '/') (opt (seq (segmentNz relaxed) (star (seq (one '/') (segment relaxed)))))
def pathAbempty : Rule := star (seq (one '/') (segment relaxed))

def path : Rule := anyOf [pathAbempty relaxed, pathAbsolute relaxed, pathNoscheme relaxed,
  pathRootless relaxed, pathEmpty relaxed]

def regName : Rule := star (anyOf [cls unreserved, pctEncoded, cls (subDelims relaxed)])

def decOctet : Rule := anyOf [cls digit,
  seq (cls (.diff (chr '1') (chr '9'))) (cls digit),
  seq (one '1') (times (cls digit) 2),
  inTurn [one '2', cls (.diff (chr '0') (chr '4')), cls digit],
  seq (str "25") (cls (.diff (chr '0') (chr '5')))]

def IPv4address : Rule :=
  inTurn [decOctet, one '.', decOctet, one '.', decOctet, one '.', decOctet]
def h16 : Rule := seq (cls xdigit) (upTo (cls xdigit) 3)
def h16Colon : Rule := seq h16 (one ':')
def ls32 : Rule := alt (inTurn [h16, one ':', h16]) IPv4address

/-- `( ( h16 ":" ){n,} h16 )?`. -/
def h16s (n : ℕ) : Rule := opt (seq (seq (times h16Colon n) (star h16Colon)) h16)

def IPv6address : Rule := anyOf [
  inTurn [lit 6, h16Colon, ls32],
  inTurn [str "::", lit 5, h16Colon, ls32],
  inTurn [opt h16, str "::", lit 4, h16Colon, ls32],
  inTurn [h16s 1, str "::", lit 3, h16Colon, ls32],
  inTurn [h16s 2, str "::", lit 2, h16Colon, ls32],
  inTurn [h16s 3, str "::", h16, one ':', ls32],
  inTurn [h16s 4, str "::", ls32],
  inTurn [h16s 5, str "::", h16],
  inTurn [h16s 6, str "::"]]

def IPvFuture : Rule := inTurn [one 'v', plus (cls xdigit), one '.',
  plus (anyOf [cls unreserved, cls (subDelims relaxed), one ':'])]

def IPLiteral : Rule := inTurn [one '[', alt IPv6address (IPvFuture relaxed), one ']']

def port : Rule := star (cls digit)
def host : Rule := anyOf [IPLiteral relaxed, IPv4address, regName relaxed]
def userinfo : Rule :=
  star (anyOf [cls unreserved, pctEncoded, cls (subDelims relaxed), one ':'])
def authority : Rule :=
  inTurn [opt (seq (userinfo relaxed) (one '@')), host relaxed, opt (seq (one ':') port)]

def scheme : Rule :=
  seq (cls alpha) (star (anyOf [cls alpha, cls digit, one '+', one '-', one '.']))

def relativePart : Rule := anyOf [inTurn [str "//", authority relaxed, pathAbempty relaxed],
  pathAbsolute relaxed, pathNoscheme relaxed, pathEmpty relaxed]

def hierPart : Rule := anyOf [inTurn [str "//", authority relaxed, pathAbempty relaxed],
  pathAbsolute relaxed, pathRootless relaxed, pathEmpty relaxed]

/-- `( part %request_path ( "?" %start_query query )? ) >mark %request_uri ( "#" fragment )?`. -/
def located (part : Rule) : Rule :=
  seq (((seq (part.leaving .requestPath)
      (opt (seq ((one '?').leaving .startQuery) (query relaxed)))).entering .mark).leaving .requestUri)
    (opt (seq (one '#') (fragment relaxed)))

def relativeRef : Rule := located relaxed (relativePart relaxed)
def URI : Rule := inTurn [scheme, one ':', located relaxed (hierPart relaxed)]
def URIReference : Rule := alt (URI relaxed) (relativeRef relaxed)

end Uri

def Method : Rule :=
  ((seq (cls (.union upper digit)) (upTo (cls (.union upper digit)) 19)).entering
    .mark).leaving .requestMethod

def httpNumber : Rule := seq (str "1.") (alt (one '0') (one '1'))
def HTTPVersion : Rule :=
  ((seq (str "HTTP/") httpNumber).entering .mark).leaving .httpVersion
def requestLine (relaxed : Bool) : Rule :=
  inTurn [Method, one ' ', URIReference relaxed, one ' ', HTTPVersion, CRLF]

def HTTPCtl : Cls := .union (.diff (.range 0 0) (.range 31 31)) (.range 127 127)
def HTTPSeparator : Cls := oneOf "()<>@,;:\\\"/[]?=\x7b\x7d \t"

def lws : Rule := seq (opt CRLF) (plus (cls (oneOf " \t")))
def token : Rule := cls (.diff ascii (.union HTTPCtl HTTPSeparator))
def content : Rule := alt (cls (.diff any HTTPCtl)) lws

def fieldName : Rule := ((plus token).entering .startField).leaving .writeField
def fieldValue : Rule := ((star content).entering .startValue).leaving .writeValue
def messageHeader : Rule :=
  entryGuarded 0 (inTurn [fieldName, one ':', star lws, fieldValue]) CRLF

def Request (relaxed : Bool) : Rule :=
  inTurn [requestLine relaxed, star messageHeader, CRLF]

def socketJSONStart (relaxed : Bool) : Rule := seq (one '@') (relativePart relaxed)
def socketJSONData : Rule :=
  finishGuarded 1 (inTurn [one '{', star (cls any), one '}']) (lit 0)

def socketXMLData : Rule :=
  finishGuarded 2 (inTurn [
    ((seq (one '<') (plus (cls (.union alpha (.union digit (oneOf "-.")))))).entering
      .mark).leaving .requestPath,
    cls (.union (chr '/') (.union space (chr '>'))), star (cls any), one '>']) (lit 0)

def socketJSON (relaxed : Bool) : Rule :=
  inTurn [((socketJSONStart relaxed).entering .mark).leaving .requestPath, one ' ',
    (socketJSONData.entering .mark).finishing .json]
def socketXML : Rule := socketXMLData.finishing .xml
def socketRequest (relaxed : Bool) : Rule := alt socketXML (socketJSON relaxed)

/-- What is to be matched before `@done`. -/
def message (relaxed : Bool) : Rule := alt (Request relaxed) (socketRequest relaxed)

def main (relaxed : Bool) : Rule := (message relaxed).finishing .done

end Grammar

end Sylar.Http
