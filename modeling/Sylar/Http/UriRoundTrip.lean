import Sylar.Http.UriCreate

/-! # URIs that are written and read again

`toString` drops a default port. The URI that is read back has no port then, and `getPort` finds it
from the scheme.
-/
namespace Sylar.Http.UriText
open Memory Ragel Ragel.Expr

/-- `scheme "://" host [":" port] "/" rest ["?" query] ["#" fragment]`, where the host, the query and
the fragment are not empty and the port is a number below 2 ^ 31. -/
structure Parts.Plain (x : Parts) : Prop where
  userinfo : x.userinfo = none
  host : x.host ≠ []
  path : x.path ≠ []
  query : x.query ≠ some []
  fragment : x.fragment ≠ some []
  port : ∀ d, x.port = some d → d ≠ [] ∧ decimalValue d < 2 ^ 31

/-- `Create` returns a URI for the text, `Create` of its `toString` returns one that agrees with it,
and that is written in the same way. -/
def RoundTrips (s : List UInt8) : Prop :=
  ∃ u v u' v', Uri.create s = .done (some u) v ∧ Uri.create u.toString = .done (some u') v' ∧
    u'.scheme = u.scheme ∧ u'.userInfo = u.userInfo ∧ u'.host = u.host ∧ u'.getPort = u.getPort ∧
    u'.getPath = u.getPath ∧ u'.query = u.query ∧ u'.fragment = u.fragment ∧
    u'.toString = u.toString

variable {x : Parts}

theorem Parts.Plain.sound (h : x.Plain) : x.Sound where
  userinfo := by simp [h.userinfo]
  port := h.port

section Written

variable (x)

/-- The number of the port, 0 if there is none. -/
def portNumber : ℕ := x.port.elim 0 decimalValue

/-- The parts of what `toString` writes. -/
def written : Parts where
  __ := x
  port := if x.value.isDefaultPort then none else some (decimal (portNumber x))
  isPort := by
    intro d hd
    have hdecimal : UriGrammar.port.accepts (decimal (portNumber x)) = true := by
      rw [UriGrammar.port, accepts_star_cls, List.all_eq_true]
      intro b hb
      exact mem_digit_of_mem_decimal hb
    split_ifs at hd
    · cases hd
    · rw [← Option.some.inj hd]
      exact hdecimal

theorem value_port : x.value.port = portNumber x := rfl

/-- A default port is not written, and the scheme tells which one it was. -/
theorem written_port :
    ((written x).value.port = x.value.port ∧ x.value.isDefaultPort = false) ∨
    ((written x).value.port = 0 ∧ x.value.isDefaultPort = true) := by
  by_cases h : x.value.isDefaultPort = true
  · right
    refine ⟨?_, h⟩
    change ((if x.value.isDefaultPort then none else some (decimal (portNumber x))).elim 0
      decimalValue : ℕ) = (0 : ℤ)
    rw [if_pos h]
    rfl
  · left
    refine ⟨?_, Bool.eq_false_iff.mpr h⟩
    change ((if x.value.isDefaultPort then none else some (decimal (portNumber x))).elim 0
      decimalValue : ℕ) = x.value.port
    rw [if_neg h, Option.elim_some, decimalValue_decimal, value_port]

theorem getPort_written : (written x).value.getPort = x.value.getPort := by
  rcases written_port x with ⟨hport, -⟩ | ⟨hport, hdefault⟩
  · rw [Uri.getPort, Uri.getPort, hport]
    rfl
  · have hscheme : (written x).value.scheme = x.value.scheme := rfl
    rw [Uri.getPort, Uri.getPort, hport, hscheme]
    rw [Uri.isDefaultPort] at hdefault
    split_ifs at hdefault ⊢ <;> simp_all

theorem isDefaultPort_written : (written x).value.isDefaultPort = x.value.isDefaultPort := by
  have hscheme : (written x).value.scheme = x.value.scheme := rfl
  rcases written_port x with ⟨hport, -⟩ | ⟨hport, hdefault⟩
  · rw [Uri.isDefaultPort, Uri.isDefaultPort, hport, hscheme]
  · rw [hdefault, Uri.isDefaultPort, hport, if_pos rfl]

variable {x}

theorem toString_value (h : x.Plain) : x.value.toString = (written x).text := by
  have huser : x.value.userInfo = [] := by
    change x.userinfo.getD [] = []
    rw [h.userinfo]
    rfl
  have hlead : (written x).lead = [] := by
    change x.userinfo.elim [] _ = []
    rw [h.userinfo]
    rfl
  have hport : (if x.value.isDefaultPort then [] else bytes ":" ++ Uri.numberText x.value.port) =
      (written x).portText := by
    change _ = (if x.value.isDefaultPort then none else some (decimal (portNumber x))).elim []
      (bytes ":" ++ ·)
    by_cases hdefault : x.value.isDefaultPort = true
    · rw [if_pos hdefault, if_pos hdefault]
      rfl
    · rw [if_neg hdefault, if_neg hdefault, Uri.numberText, value_port, if_neg (by omega),
        Int.natAbs_natCast]
      rfl
  have hpath : x.value.getPath = x.path := by
    change (if x.path.isEmpty then _ else x.path) = x.path
    simp [h.path]
  have hoptional (c : String) (w : Option (List UInt8)) (hw : w ≠ some []) :
      (if (w.getD []).isEmpty then [] else bytes c) ++ w.getD [] = w.elim [] (bytes c ++ ·) := by
    cases w with
    | none => rfl
    | some w =>
      have hne : w ≠ [] := fun hnil => hw (by rw [hnil])
      simp [hne]
  have hquery : (if x.value.query.isEmpty then [] else bytes "?") ++ x.value.query =
      (written x).queryText := hoptional "?" x.query h.query
  have hfragment : (if x.value.fragment.isEmpty then [] else bytes "#") ++ x.value.fragment =
      (written x).fragmentText := hoptional "#" x.fragment h.fragment
  rw [Uri.toString, huser, hport, hpath, List.append_assoc _ _ x.value.query, hquery,
    List.append_assoc _ _ x.value.fragment, hfragment, Parts.text, hlead]
  simp only [List.append_assoc, List.nil_append]
  rfl

theorem plain_written (h : x.Plain) : (written x).Plain where
  userinfo := h.userinfo
  host := h.host
  path := h.path
  query := h.query
  fragment := h.fragment
  port := by
    intro d hd
    change (if x.value.isDefaultPort then none else some (decimal (portNumber x))) = some d at hd
    split_ifs at hd
    rw [← Option.some.inj hd, decimalValue_decimal]
    refine ⟨decimal_ne_nil _, ?_⟩
    rw [portNumber]
    cases hport : x.port with
    | none => decide
    | some d => exact (h.port d hport).2

theorem toString_written : (written x).value.toString = x.value.toString := by
  rw [Uri.toString, Uri.toString, isDefaultPort_written]
  rcases written_port x with ⟨hport, -⟩ | ⟨-, hdefault⟩
  · rw [hport]
    rfl
  · rw [hdefault, if_pos rfl, if_pos rfl]
    rfl

end Written

theorem create_of_plain (h : x.Plain) : ∃ v, Uri.create x.text = .done (some x.value) v := by
  cases hport : x.port with
  | none => exact (create_iff_none x hport).mpr h.sound
  | some d => exact (create_iff_some x hport).mpr h.sound

/-- A URI is read again as it was written. -/
theorem roundTrips_of_plain (h : x.Plain) : RoundTrips x.text := by
  rcases create_of_plain h with ⟨v, hread⟩
  rcases create_of_plain (plain_written h) with ⟨v', hread'⟩
  refine ⟨x.value, v, (written x).value, v', hread, ?_, rfl, rfl, rfl, getPort_written x, rfl, rfl,
    rfl, toString_written⟩
  rw [toString_value h]
  exact hread'

def withPort : Parts where
  scheme := bytes "http"
  userinfo := none
  host := bytes "h"
  port := some (bytes "80")
  path := bytes "/p"
  query := some (bytes "q")
  fragment := some (bytes "f")
  isScheme := digitInUserinfo.isScheme
  isUserinfo := by rintro _ ⟨⟩
  isHost := digitInUserinfo.isHost
  isPort := by decide +kernel
  isPath := digitInUserinfo.isPath
  isQuery := by decide +kernel
  isFragment := by decide +kernel

theorem withPort_roundTrips : withPort.Plain ∧ RoundTrips withPort.text := by
  have hport : bytes "80" ≠ [] ∧ decimalValue (bytes "80") < 2 ^ 31 := by decide
  have hplain : withPort.Plain := by
    refine ⟨rfl, by decide, by decide, by decide, by decide, ?_⟩
    intro d hd
    rw [← Option.some.inj hd]
    exact hport
  exact ⟨hplain, roundTrips_of_plain hplain⟩

end Sylar.Http.UriText
