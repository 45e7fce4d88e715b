import Sylar.Http.Grammar

/-! # The response grammar

`httpclient_parser.rl`, rule by rule: a response head or the head of a chunk. A rule such as
`fields` and a more special one (`content_length`, `conn_close`, `transfer_encoding_chunked`) run
side by side over the same header.
-/
namespace Sylar.Http
open Ragel Ragel.Expr

inductive ClientAction where
  | mark
  | startField
  | writeField
  | startValue
  | writeContentLen
  | writeConnectionClose
  | writeValue
  | reasonPhrase
  | statusCode
  | httpVersion
  | chunkSize
  | transChunked
  | done
deriving DecidableEq, Repr

namespace ClientGrammar
open Grammar (chr one str anyOf inTurn any ascii digit xdigit space oneOf CRLF)

abbrev Rule := Expr ClientAction

/-- `/word/i`. -/
def caseless (s : String) : Rule :=
  inTurn (s.toList.map fun c => cls (.union (chr c.toLower) (chr c.toUpper)))

def CTL : Cls := .union (.union (.range 0 31) (.range 127 127)) (.range 127 127)
def tspecials : Cls := oneOf "()<>@,;:\\\"/[]?=\x7b\x7d \t"

/-- On single bytes the strong difference is the difference. -/
def token : Cls := .diff ascii (.union CTL tspecials)

/-- `any -- CRLF` loses the one byte that is a line end. -/
def ReasonPhrase : Rule :=
  ((plus (cls (.diff any (chr '\n')))).entering .mark).leaving .reasonPhrase
def StatusCode : Rule := ((plus (cls digit)).entering .mark).leaving .statusCode
def httpNumber : Rule := inTurn [plus (cls digit), one '.', plus (cls digit)]
def HTTPVersion : Rule := ((seq (str "HTTP/") httpNumber).entering .mark).leaving .httpVersion
def StatusLine : Rule :=
  entryGuarded 0 (inTurn [HTTPVersion, one ' ', StatusCode, one ' ', ReasonPhrase]) CRLF

def fieldName : Rule := ((plus (cls token)).entering .startField).leaving .writeField
def fieldValue : Rule := ((star (cls any)).entering .startValue).leaving .writeValue
def fields : Rule :=
  entryGuarded 1 (inTurn [fieldName, one ':', star (cls space), fieldValue]) CRLF

def contentLength : Rule :=
  seq (inTurn [((caseless "Content-Length").entering .startField).leaving .writeField, one ':',
      star (cls space),
      (((plus (cls digit)).entering .startValue).leaving .writeContentLen).leaving .writeValue])
    CRLF

def connClose : Rule :=
  seq (inTurn [caseless "Connection", one ':', star (cls space), caseless "close"])
    (CRLF.leaving .writeConnectionClose)

def transferEncodingChunked : Rule :=
  seq (inTurn [((caseless "Transfer-Encoding").entering .startField).leaving .writeField, one ':',
      star (cls space), ((caseless "chunked").entering .startValue).leaving .writeValue])
    (CRLF.finishing .transChunked)

def messageHeader : Rule := anyOf [transferEncodingChunked, connClose, contentLength, fields]

def Response : Rule := inTurn [StatusLine, star messageHeader, CRLF]

def chunkExtVal : Rule := plus (cls token)
def chunkExtName : Rule := plus (cls token)
def chunkExtension : Rule :=
  star (inTurn [one ';',
    ((chunkExtName.entering .startField).leaving .writeField).leaving .startValue,
    (opt (seq (one '=') (chunkExtVal.entering .startValue))).leaving .writeValue])
def chunkSize : Rule := plus (cls xdigit)
def ChunkedHeader : Rule :=
  entryGuarded 2 (seq ((chunkSize.entering .mark).leaving .chunkSize) chunkExtension) CRLF

def main : Rule := (alt Response ChunkedHeader).finishing .done

end ClientGrammar

end Sylar.Http
