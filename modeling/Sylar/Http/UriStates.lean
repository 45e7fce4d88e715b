import Sylar.Http.Uri
import Sylar.Ragel.Overlap

/-! # States of the URI machine

The rules of a URI with an authority as they stand in the machine, what surrounds each of them, and
the steps between them.
-/
namespace Sylar.Http.UriText
open Ragel Ragel.Expr UriGrammar
open Grammar (one mem_chr any mem_any digit alpha)

/-- Rules with the numbers that their actions have in the machine. -/
def hostPort : Rule :=
  seq (leave 5 .saveHost (enter 4 .markh host))
    (opt (seq (one ':') (leave 7 .savePort (enter 6 .markh port))))
def userinfoAt : Rule := seq (leave 3 .saveUserinfo userinfo) (one '@')
def authorityAt : Rule := enter 2 .markh (seq (opt userinfoAt) hostPort)
def pathAt : Rule := leave 9 .savePath (enter 8 .markh pathAbempty)
def pieces : Rule := star (Grammar.anyOf [pchar, one '/', one '?'])
def queryAt : Rule := leave 11 .saveQuery (enter 10 .marku pieces)
def fragmentAt : Rule := leave 13 .saveFragment (enter 12 .marku pieces)
def fragmentTail : Rule := opt (seq (one '#') fragmentAt)
def tailAt : Rule := seq (opt (seq (one '?') queryAt)) fragmentTail

/-- What follows the first byte of a path. -/
def pathRest : Rule := seq segment segments

/-- What surrounds the authority, the path and the query. -/
def authorityFrame (r : Rule) : Rule := cat (cat r pathAt) tailAt
def pathFrame (r : Rule) : Rule := seq (leave 9 .savePath r) tailAt
def queryFrame (r : Rule) : Rule := cat r fragmentTail

theorem frame_authority : Frame authorityFrame := (frame_id.cat pathAt).cat tailAt
theorem frame_path : Frame pathFrame := (frame_id.leave _ _).seq nofun _
theorem frame_query : Frame queryFrame := frame_id.cat fragmentTail

/-- The state inside a scheme. -/
def schemeState : State UriAction := ((step (start main) (byte 'a')).map Prod.fst).getD []
def schemeCls : Cls := .union alpha (.union digit (Grammar.oneOf "+-."))

/-- What the kernel computes of the machine and its rules. -/
structure Steps : Prop where
  first : ∀ b ∈ alpha.members, step (start main) b = some (schemeState, [.marku])
  scheme : ∀ b ∈ schemeCls.members, step schemeState b = some (schemeState, [])
  authority : sweep (fun _ => false) schemeState 0 (bytes "://") =
    ([(.saveScheme, 0)], ⟨some [authorityFrame authorityAt], 3, false⟩)
  inside : ∀ b ∈ any.members, (b ∉ bytes "/?#" → (authorityFrame eps).deriv b = []) ∧
    (b ∉ bytes "?#" → (pathFrame eps).deriv b = []) ∧
    (b ∉ bytes "#" → (queryFrame eps).deriv b = [])
  slash : ∀ t ∈ (authorityFrame eps).deriv (byte '/'),
    t.rest = pathFrame pathRest ∧ t.acts = [(8, .markh)] ∧ t.low = []
  outAuthority : ∀ c ∈ bytes "/?#", ((authorityFrame eps).deriv c).isEmpty = false
  question : (∀ t ∈ (authorityFrame eps).deriv (byte '?'),
      t.rest = queryFrame queryAt ∧ t.acts = [(8, .markh), (9, .savePath)] ∧ t.low = []) ∧
    ∀ t ∈ (pathFrame eps).deriv (byte '?'),
      t.rest = queryFrame queryAt ∧ t.acts = [(9, .savePath)] ∧ t.low = []
  hash : (∀ t ∈ (authorityFrame eps).deriv (byte '#'),
      t.rest = fragmentAt ∧ t.acts = [(8, .markh), (9, .savePath)] ∧ t.low = []) ∧
    (∀ t ∈ (pathFrame eps).deriv (byte '#'),
      t.rest = fragmentAt ∧ t.acts = [(9, .savePath)] ∧ t.low = []) ∧
    ∀ t ∈ (queryFrame eps).deriv (byte '#'),
      t.rest = fragmentAt ∧ t.acts = [] ∧ t.low = []
  outTail : (∀ c ∈ bytes "?#", ((pathFrame eps).deriv c).isEmpty = false) ∧
    ((queryFrame eps).deriv (byte '#')).isEmpty = false
  null : (authorityFrame eps).null = some [(8, .markh), (9, .savePath)] ∧
    (pathFrame eps).null = some [(9, .savePath)] ∧ (queryFrame eps).null = some []
  calm : authorityAt.calm = true ∧ pathRest.plain = true ∧ pieces.plain = true
  avoids : (∀ c ∈ bytes "/?#", authorityAt.avoids c = true) ∧
    (∀ c ∈ bytes "?#", pathRest.avoids c = true) ∧ queryAt.avoids (byte '#') = true
  host : host.plain = true ∧ hostPort.avoids (byte '@') = true ∧
    host.avoids (byte '@') = true ∧ (host.deriv (byte ':')).isEmpty = true
  names : ∀ c ∈ bytes ":[", IPv4address.avoids c = true ∧ regName.avoids c = true
  literal : (alt IPv6address IPvFuture : Rule).avoids (byte ']') = true
  userinfo : userinfo.plain = true ∧ userinfo.avoids (byte '@') = true ∧
    userinfo.avoids (byte '[') = true ∧ pctEncoded.avoids (byte ':') = true
  sign : ((seq (opt userinfoAt) hostPort).deriv (byte '@')).isEmpty = false
  path : (pathAbempty.deriv (byte '/')).all (fun t => t.rest = pathRest) ∧
    ∀ b ∈ any.members, b ≠ byte '/' → (pathAbempty.deriv b).isEmpty = true

theorem steps : Steps where
  first := by decide +kernel
  scheme := by decide +kernel
  authority := by decide +kernel
  inside := by
    simp only [← List.isEmpty_iff]
    decide +kernel
  slash := by decide +kernel
  outAuthority := by decide +kernel
  question := by decide +kernel
  hash := by decide +kernel
  outTail := by decide +kernel
  null := by decide +kernel
  calm := by decide +kernel
  avoids := by decide +kernel
  host := by decide +kernel
  names := by decide +kernel
  literal := by decide +kernel
  userinfo := by decide +kernel
  sign := by decide +kernel
  path := by decide +kernel

end Sylar.Http.UriText
