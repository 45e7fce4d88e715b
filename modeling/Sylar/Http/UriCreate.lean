import Sylar.Http.Numerals
import Sylar.Http.UriText

/-! # What `Uri::Create` makes of a URI

The actions on a URI in its parts, one after the other. They share one pointer. A digit behind the
first colon of a user info moves it, and behind an empty port it is null where the path starts.
-/
namespace Sylar.Http.UriText
open Memory Ragel Ragel.Expr
open Grammar (digit)

variable (x : Parts)

/-- The memory that the actions read. -/
def memory : List UInt8 := x.text ++ [0]

theorem create_text : Uri.create x.text =
    (perform (Uri.action (memory x)) (actions x) >>= fun _ => Command.state >>= fun v =>
      pure (some v.uri)) ⟨none, .fresh⟩ := by
  rcases finishes_text x with ⟨m, s', hsweep, hfinal, hl⟩
  rw [Uri.create, Command.bind_apply, execEof_of_sweeps hsweep, ← hl, Command.bind_apply,
    Command.bind_apply, ← memory]
  cases perform (Uri.action (memory x)) (actions x) ⟨none, .fresh⟩ with
  | done u v =>
    change Outcome.done (if final s' = true then some v.uri else none) v = .done (some v.uri) v
    rw [if_pos hfinal]
  | raised e v => rfl
  | fault f => rfl

theorem create_eq_done {u : Uri} {v : Uri.Parser} : Uri.create x.text = .done (some u) v ↔
    perform (Uri.action (memory x)) (actions x) ⟨none, .fresh⟩ = .done () v ∧ v.uri = u := by
  rw [create_text, Command.bind_eq_done]
  constructor
  · rintro ⟨_, v', hrun, h⟩
    cases h
    exact ⟨hrun, rfl⟩
  · rintro ⟨hrun, rfl⟩
    exact ⟨(), v, hrun, rfl⟩

section Perform

variable {act : UriAction → ℕ → Uri.Parse Unit} {a : UriAction} {p : ℕ} {l r : List (UriAction × ℕ)}
  {v v' : Uri.Parser}

theorem perform_cons_done (h : act a p v = .done () v') :
    perform act ((a, p) :: l) v = perform act l v' := by
  rw [perform_cons, Command.bind_done h]

theorem perform_append_done (h : perform act l v = .done () v') :
    perform act (l ++ r) v = perform act r v' := by
  rw [perform_append, Command.bind_done h]

end Perform

/-- A text stands at a place of the memory. -/
def At (p : ℕ) (w : List UInt8) : Prop :=
  ∃ pre post, memory x = pre ++ (w ++ post) ∧ pre.length = p

variable {x}

theorem At.slice {p : ℕ} {w : List UInt8} (h : At x p w) :
    ((memory x).drop p).take (p + w.length - p) = w := by
  rcases h with ⟨pre, post, heq, rfl⟩
  rw [heq, List.drop_left, Nat.add_sub_cancel_left, List.take_left]

theorem At.left {p : ℕ} {w w' : List UInt8} (h : At x p (w ++ w')) : At x p w := by
  rcases h with ⟨pre, post, heq, hlen⟩
  exact ⟨pre, w' ++ post, by rw [heq, List.append_assoc], hlen⟩

theorem At.right {p : ℕ} {w w' : List UInt8} (h : At x p (w ++ w')) : At x (p + w.length) w' := by
  rcases h with ⟨pre, post, heq, hlen⟩
  refine ⟨pre ++ w, post, ?_, by rw [List.length_append, hlen]⟩
  rw [heq, List.append_assoc, List.append_assoc]

variable (x)

/-- What stands behind the authority. -/
def behind : List UInt8 := x.path ++ (x.queryText ++ (x.fragmentText ++ [0]))

theorem memory_eq : memory x = x.scheme ++ (bytes "://" ++ (x.lead ++ (x.host ++ (x.portText ++
    behind x)))) := by
  simp only [memory, Parts.text, behind, List.append_assoc]

theorem at_scheme : At x 0 x.scheme := ⟨[], _, memory_eq x, rfl⟩

theorem at_userinfo {u : List UInt8} (hu : x.userinfo = some u) :
    At x (x.scheme.length + 3) u := by
  refine ⟨x.scheme ++ bytes "://", bytes "@" ++ (x.host ++ (x.portText ++ behind x)), ?_,
    List.length_append⟩
  rw [memory_eq, Parts.lead, hu]
  simp only [Option.elim_some, List.append_assoc]

theorem at_host : At x (hostPlace x) x.host := by
  refine ⟨x.scheme ++ bytes "://" ++ x.lead, x.portText ++ behind x, ?_, ?_⟩
  · rw [memory_eq]
    simp only [List.append_assoc]
  · rw [List.length_append, List.length_append]
    rfl

theorem at_path : At x (pathPlace x) x.path := by
  refine ⟨x.scheme ++ bytes "://" ++ x.lead ++ x.host ++ x.portText,
    x.queryText ++ (x.fragmentText ++ [0]), ?_, ?_⟩
  · rw [memory_eq, behind]
    simp only [List.append_assoc]
  · simp only [List.length_append, pathPlace, portPlace, hostPlace]
    rfl

theorem at_query {q : List UInt8} (hq : x.query = some q) : At x (queryPlace x + 1) q := by
  refine ⟨x.scheme ++ bytes "://" ++ x.lead ++ x.host ++ x.portText ++ x.path ++ bytes "?",
    x.fragmentText ++ [0], ?_, ?_⟩
  · rw [memory_eq, behind, Parts.queryText, hq]
    simp only [Option.elim_some, List.append_assoc]
  · simp only [List.length_append, queryPlace, pathPlace, portPlace, hostPlace]
    rfl

theorem at_fragment {f : List UInt8} (hf : x.fragment = some f) : At x (fragmentPlace x + 1) f := by
  refine ⟨x.scheme ++ bytes "://" ++ x.lead ++ x.host ++ x.portText ++ x.path ++ x.queryText ++
    bytes "#", [0], ?_, ?_⟩
  · rw [memory_eq, behind, Parts.fragmentText, hf]
    simp only [Option.elim_some, List.append_assoc]
  · simp only [List.length_append, fragmentPlace, queryPlace, pathPlace, portPlace, hostPlace]
    rfl

/-- The memory from the host on, and from the port on. -/
theorem drop_host : (memory x).drop (hostPlace x) = x.host ++ (x.portText ++ behind x) := by
  rw [memory_eq, ← List.append_assoc, ← List.append_assoc, List.append_assoc x.scheme]
  apply List.drop_left'
  simp only [List.length_append, hostPlace]
  rw [show (bytes "://").length = 3 from rfl]
  omega

theorem drop_port {d : List UInt8} (hd : x.port = some d) :
    (memory x).drop (portPlace x + 1) = d ++ behind x := by
  have hdrop : (memory x).drop (portPlace x) = bytes ":" ++ (d ++ behind x) := by
    rw [portPlace, ← List.drop_drop, drop_host, List.drop_left, Parts.portText, hd,
      Option.elim_some, List.append_assoc]
  rw [← List.drop_drop, hdrop]
  rfl

/-- No digit follows the authority. -/
theorem behind_cons : ∃ c rest, behind x = c :: rest ∧ isDigit 10 c = false := by
  have hsigns : ∀ c ∈ bytes "/?#", isDigit 10 c = false := by decide
  rw [behind]
  rcases path_cases x x.isPath with hpath | ⟨r, hpath, -⟩
  · rw [hpath, List.nil_append, Parts.queryText]
    cases x.query with
    | some q => exact ⟨_, _, rfl, hsigns _ (by decide)⟩
    | none =>
      rw [Parts.fragmentText]
      cases x.fragment with
      | some f => exact ⟨_, _, rfl, hsigns _ (by decide)⟩
      | none => exact ⟨0, [], rfl, by decide⟩
  · rw [hpath]
    exact ⟨_, _, rfl, hsigns _ (by decide)⟩

section Saves

variable {x} {p : ℕ} {w : List UInt8} {m : Option ℕ} {u : Uri}

theorem save_done (h : At x p w) (set : List UInt8 → Uri → Uri) :
    Uri.save (memory x) (p + w.length) set ⟨some p, u⟩ = .done () ⟨none, set w u⟩ := by
  change Outcome.done () (⟨none, set (((memory x).drop p).take (p + w.length - p)) u⟩ : Uri.Parser) = _
  rw [h.slice]

theorem saveHost_done (h : At x p w) :
    Uri.action (memory x) .saveHost (p + w.length) ⟨some p, u⟩ =
      .done () ⟨some p, { u with host := w }⟩ := by
  change Outcome.done () (⟨some p, { u with
    host := ((memory x).drop p).take (p + w.length - p) }⟩ : Uri.Parser) = _
  rw [h.slice]

theorem saveUserinfo_done (h : At x p w) :
    Uri.action (memory x) .saveUserinfo (p + w.length) ⟨some p, u⟩ =
      .done () ⟨none, { u with userInfo := w }⟩ := by
  change Outcome.done () (⟨none, { u with
    userInfo := ((memory x).drop p).take (p + w.length - p) }⟩ : Uri.Parser) = _
  rw [h.slice]

theorem savePort_done {q : ℕ} (hq : q ≠ p) {z : ℤ} (h : strtolInt 10 ((memory x).drop p) = some z) :
    Uri.action (memory x) .savePort q ⟨some p, u⟩ = .done () ⟨none, { u with port := z }⟩ := by
  have hne : some q ≠ some p := fun heq => hq (Option.some.inj heq)
  rw [Uri.action, Command.state_bind_apply]
  dsimp only
  rw [if_pos hne, h]
  rfl

end Saves

section Groups

variable (u : Uri)

theorem perform_scheme : perform (Uri.action (memory x))
    [(.marku, 0), (.saveScheme, x.scheme.length)] ⟨none, u⟩ =
      .done () ⟨none, { u with scheme := x.scheme }⟩ := by
  have hsave : Uri.action (memory x) .saveScheme x.scheme.length ⟨some 0, u⟩ =
      .done () ⟨none, { u with scheme := x.scheme }⟩ := by
    have hdone := save_done (u := u) (at_scheme x) fun s u => { u with scheme := s }
    rw [Nat.zero_add] at hdone
    exact hdone
  rw [perform_cons_done rfl, perform_cons_done hsave]
  rfl

/-- What the actions make of the text in front of the host. -/
def readLead : Uri :=
  x.userinfo.elim u fun w =>
    match behindColon w with
    | none => { u with userInfo := w }
    | some q => { u with
        host := beforeColon w
        userInfo := if q.head?.any digit.mem then q else w }

theorem perform_lead : perform (Uri.action (memory x)) (x.leadActions (x.scheme.length + 3))
    ⟨none, u⟩ = .done () ⟨none, readLead x u⟩ := by
  rw [Parts.leadActions, readLead]
  cases hu : x.userinfo with
  | none => rfl
  | some w =>
    have hat := at_userinfo x hu
    rw [Option.elim_some, Option.elim_some, perform_cons_done rfl, colonActions]
    rcases colon_cases w with ⟨hnone, -, -⟩ | ⟨q, hsome, -, heq⟩
    · rw [hnone, List.nil_append, perform_cons_done (saveUserinfo_done hat)]
      rfl
    · rw [hsome]
      dsimp only
      have hat' := hat
      rw [heq] at hat'
      rw [List.cons_append, perform_cons_done (saveHost_done hat'.left)]
      by_cases hdigit : q.head?.any digit.mem = true
      · have hq : At x (x.scheme.length + 3 + (beforeColon w).length + 1) q := by
          have hright := hat'.right
          rw [← List.singleton_append] at hright
          exact hright.right
        have hlength : x.scheme.length + 3 + w.length =
            x.scheme.length + 3 + (beforeColon w).length + 1 + q.length := by
          have hlen := congrArg List.length heq
          rw [List.length_append, List.length_cons] at hlen
          omega
        rw [if_pos hdigit, if_pos hdigit, hlength, List.singleton_append, perform_cons_done rfl,
          perform_cons_done (saveUserinfo_done hq)]
        rfl
      · rw [if_neg hdigit, if_neg hdigit, List.nil_append,
          perform_cons_done (saveUserinfo_done hat)]
        rfl

variable {d : List UInt8} (hd : x.port = some d)

include hd

theorem pathPlace_eq : pathPlace x = portPlace x + 1 + d.length := by
  rw [pathPlace, Parts.portText, hd, Option.elim_some, List.length_append, ← Nat.add_assoc]
  rfl

/-- What `atoi` finds at the port. -/
theorem savePort_spec (hempty : d ≠ []) :
    ∃ z, Uri.action (memory x) .savePort (pathPlace x) ⟨some (portPlace x + 1), u⟩ =
        .done () ⟨none, { u with port := z }⟩ ∧ (z = decimalValue d ↔ decimalValue d < 2 ^ 31) := by
  have hdigits := x.isPort d hd
  rw [UriGrammar.port, accepts_star_cls, List.all_eq_true] at hdigits
  rcases behind_cons x with ⟨c, rest, hbehind, hc⟩
  have hread := strtolInt_digits hempty hdigits hc rest
  have hiff := strtolInt_digits_iff hempty hdigits hc rest
  rw [hread, Option.some.injEq] at hiff
  have hdrop := drop_port x hd
  rw [hbehind] at hdrop
  rw [← hdrop] at hread
  have hne : pathPlace x ≠ portPlace x + 1 := by
    rw [pathPlace_eq x hd]
    have hpos := List.length_pos_of_ne_nil hempty
    omega
  exact ⟨_, savePort_done hne hread, hiff⟩

omit hd

/-- The host is stored, whether there is one or not. -/
theorem perform_host (l : List (UriAction × ℕ)) :
    perform (Uri.action (memory x)) (mark .markh (hostPlace x) x.host ++
      ((if x.host = [] then [(.markh, portPlace x)] else []) ++ ((.saveHost, portPlace x) :: l)))
        ⟨none, u⟩ =
      perform (Uri.action (memory x)) l ⟨some (hostPlace x), { u with host := x.host }⟩ := by
  have hsave : Uri.action (memory x) .saveHost (portPlace x) ⟨some (hostPlace x), u⟩ =
      .done () ⟨some (hostPlace x), { u with host := x.host }⟩ := saveHost_done (at_host x)
  rw [show portPlace x = hostPlace x + x.host.length from rfl, mark_append, perform_cons_done rfl,
    ← portPlace, perform_cons_done hsave]

/-- Without a port the pointer is at the start of the path then. -/
theorem perform_authority_none (hport : x.port = none) (l : List (UriAction × ℕ)) :
    perform (Uri.action (memory x)) (mark .markh (hostPlace x) x.host ++
      (x.portActions (portPlace x) ++ (x.turn.map (fun a => (a, pathPlace x)) ++ l))) ⟨none, u⟩ =
      perform (Uri.action (memory x)) l ⟨some (pathPlace x), { u with host := x.host }⟩ := by
  have hplace : pathPlace x = portPlace x := by
    rw [pathPlace, Parts.portText, hport]
    rfl
  have hhost := perform_host x u
  rw [Parts.portActions, hport, Option.elim_none, List.nil_append, Parts.turn, hport, hplace]
  simp only [Option.isSome_none, Option.getD_none, Bool.false_eq_true, if_false]
  by_cases hnil : x.host = []
  · have hstart : hostPlace x = portPlace x := by
      rw [portPlace, hnil]
      rfl
    have hl := hhost l
    rw [if_pos hnil, hstart] at hl
    rw [if_pos hnil, hstart]
    exact hl
  · have hl := hhost ((.markh, portPlace x) :: l)
    rw [if_neg hnil, perform_cons_done rfl] at hl
    rw [if_neg hnil]
    exact hl

include hd

theorem perform_authority_some (hempty : d ≠ []) :
    ∃ z : ℤ, (z = decimalValue d ↔ decimalValue d < 2 ^ 31) ∧ ∀ l,
      perform (Uri.action (memory x)) (mark .markh (hostPlace x) x.host ++
        (x.portActions (portPlace x) ++ (x.turn.map (fun a => (a, pathPlace x)) ++ l))) ⟨none, u⟩ =
        perform (Uri.action (memory x)) l
          ⟨some (pathPlace x), { u with host := x.host, port := z }⟩ := by
  rcases savePort_spec x { u with host := x.host } hd hempty with ⟨z, hsave, hz⟩
  refine ⟨z, hz, ?_⟩
  intro l
  rw [Parts.portActions, hd, Option.elim_some, List.append_assoc, List.cons_append, perform_host,
    Parts.turn, hd, mark, if_neg hempty]
  simp only [Option.isSome_some, Option.getD_some, if_true, if_neg hempty]
  exact (perform_cons_done rfl).trans ((perform_cons_done hsave).trans (perform_cons_done rfl))

/-- Behind an empty port the pointer is null where the path starts, and its end is reported. -/
theorem perform_authority_empty (hempty : d = []) (p : ℕ) (l : List (UriAction × ℕ)) :
    perform (Uri.action (memory x)) (mark .markh (hostPlace x) x.host ++
      (x.portActions (portPlace x) ++ (x.turn.map (fun a => (a, pathPlace x)) ++
        ((.savePath, p) :: l)))) ⟨none, u⟩ =
      .raised .logicError ⟨none, { u with host := x.host }⟩ := by
  have hsave : Uri.action (memory x) .savePort (pathPlace x)
      ⟨some (pathPlace x), { u with host := x.host }⟩ =
        .done () ⟨none, { u with host := x.host }⟩ := by
    rw [Uri.action, Command.state_bind_apply]
    dsimp only
    rw [if_neg (by simp)]
    rfl
  rw [Parts.portActions, hd, Option.elim_some, List.append_assoc, List.cons_append, perform_host,
    Parts.turn, hd, hempty, mark, if_pos rfl]
  simp only [Option.isSome_some, Option.getD_some, if_true]
  exact (perform_cons_done rfl).trans (perform_cons_done hsave)

end Groups

namespace Parts

/-- The URI that the text denotes. -/
def value : Uri where
  scheme := x.scheme
  userInfo := x.userinfo.getD []
  host := x.host
  path := x.path
  query := x.query.getD []
  fragment := x.fragment.getD []
  port := (x.port.elim 0 decimalValue : ℕ)

/-- No digit stands behind the first colon of the user info, and the port has digits, with a value
that an `int` has, if its colon is there. -/
structure Sound : Prop where
  userinfo : ∀ u, x.userinfo = some u → ∀ q, behindColon u = some q → q.head?.any digit.mem = false
  port : ∀ d, x.port = some d → d ≠ [] ∧ decimalValue d < 2 ^ 31

end Parts

theorem value_iff {u : Uri} (hscheme : u.scheme = x.scheme) :
    { u with path := x.path, query := x.query.getD [], fragment := x.fragment.getD [] } = x.value ↔
      u.userInfo = x.userinfo.getD [] ∧ u.host = x.host ∧
        u.port = (x.port.elim 0 decimalValue : ℕ) := by
  rw [Parts.value, Uri.mk.injEq]
  simp [hscheme]

section Tail

variable {u : Uri}

/-- A query or a fragment, which may be empty or missing. -/
theorem perform_optional {w : Option (List UInt8)} {a : UriAction} {p : ℕ}
    (set : List UInt8 → Uri → Uri) (ha : Uri.action (memory x) a = fun q => Uri.save (memory x) q set)
    (hat : ∀ s, w = some s → At x (p + 1) s) (hu : set [] u = u) :
    perform (Uri.action (memory x)) (Parts.optionalActions a w p) ⟨none, u⟩ =
      .done () ⟨none, set (w.getD []) u⟩ := by
  cases w with
  | none =>
    rw [Option.getD_none, hu]
    rfl
  | some s =>
    have hsave : Uri.action (memory x) a (p + 1 + s.length) ⟨some (p + 1), u⟩ =
        .done () ⟨none, set s u⟩ := by
      rw [ha]
      exact save_done (hat s rfl) set
    exact (perform_cons_done rfl).trans (perform_cons_done hsave)

/-- What stands behind the authority is read as it stands there. -/
theorem perform_behind (hquery : u.query = []) (hfragment : u.fragment = []) :
    perform (Uri.action (memory x)) ([(.savePath, queryPlace x)] ++
        (x.queryActions (queryPlace x) ++ x.fragmentActions (fragmentPlace x)))
      ⟨some (pathPlace x), u⟩ = .done () ⟨none, { u with
        path := x.path, query := x.query.getD [], fragment := x.fragment.getD [] }⟩ := by
  have hsave : Uri.action (memory x) .savePath (queryPlace x) ⟨some (pathPlace x), u⟩ =
      .done () ⟨none, { u with path := x.path }⟩ :=
    save_done (at_path x) fun s u => { u with path := s }
  have hread := perform_optional x (u := { u with path := x.path }) (a := .saveQuery)
    (fun s u => { u with query := s }) rfl (fun s hs => at_query x hs) (by rw [← hquery])
  have hlast := perform_optional x (u := { u with path := x.path, query := x.query.getD [] })
    (a := .saveFragment) (fun s u => { u with fragment := s }) rfl
    (fun s hs => at_fragment x hs) (by rw [← hfragment])
  rw [List.singleton_append, perform_cons_done hsave, Parts.queryActions, perform_append_done hread]
  exact hlast

end Tail

section Iff

theorem readLead_userInfo {u : Uri} (hu : u.userInfo = []) :
    (readLead x u).userInfo = x.userinfo.getD [] ↔
      ∀ w, x.userinfo = some w → ∀ q, behindColon w = some q → q.head?.any digit.mem = false := by
  rw [readLead]
  cases x.userinfo with
  | none => simp [hu]
  | some w =>
    rcases colon_cases w with ⟨hnone, -, -⟩ | ⟨q, hsome, -, heq⟩
    · simp [hnone]
    · have hne : q ≠ w := by
        intro hqw
        have hlen := congrArg List.length heq
        rw [List.length_append, List.length_cons, hqw] at hlen
        omega
      by_cases hdigit : q.head?.any digit.mem = true
      · simp [hsome, hdigit, hne]
      · simp [hsome, hdigit]

theorem readLead_rest (u : Uri) : (readLead x u).scheme = u.scheme ∧ (readLead x u).path = u.path ∧
    (readLead x u).query = u.query ∧ (readLead x u).fragment = u.fragment ∧
    (readLead x u).port = u.port := by
  rw [readLead]
  cases x.userinfo with
  | none => simp
  | some w =>
    dsimp only [Option.elim_some]
    split <;> simp

/-- The state behind the scheme and the text in front of the host. -/
def started : Uri := readLead x { Uri.fresh with scheme := x.scheme }

theorem perform_actions : perform (Uri.action (memory x)) (actions x) ⟨none, .fresh⟩ =
    perform (Uri.action (memory x)) (mark .markh (hostPlace x) x.host ++
      (x.portActions (portPlace x) ++ (x.pathActions (pathPlace x) ++
        (x.queryActions (queryPlace x) ++ x.fragmentActions (fragmentPlace x)))))
      ⟨none, started x⟩ := by
  rw [actions, perform_append_done (perform_scheme x _), perform_append_done (perform_lead x _)]
  rfl

theorem started_rest : (started x).scheme = x.scheme ∧ (started x).query = [] ∧
    (started x).fragment = [] ∧ (started x).port = 0 := by
  have h := readLead_rest x { Uri.fresh with scheme := x.scheme }
  exact ⟨h.1, h.2.2.1, h.2.2.2.1, h.2.2.2.2⟩

/-- Behind an authority that is read as it stands, so is everything. -/
theorem create_iff_of_authority {z : ℤ} (hauthority : ∀ l, perform (Uri.action (memory x))
      (mark .markh (hostPlace x) x.host ++ (x.portActions (portPlace x) ++
        (x.turn.map (fun a => (a, pathPlace x)) ++ l))) ⟨none, started x⟩ =
      perform (Uri.action (memory x)) l
        ⟨some (pathPlace x), { started x with host := x.host, port := z }⟩) :
    (∃ v, Uri.create x.text = .done (some x.value) v) ↔
      (∀ w, x.userinfo = some w → ∀ q, behindColon w = some q → q.head?.any digit.mem = false) ∧
        z = (x.port.elim 0 decimalValue : ℕ) := by
  have hstarted := started_rest x
  have huserinfo := readLead_userInfo x (u := { Uri.fresh with scheme := x.scheme }) rfl
  rw [← started] at huserinfo
  have hbehind := perform_behind x (u := { started x with host := x.host, port := z })
    hstarted.2.1 hstarted.2.2.1
  have hvalue := value_iff x (u := { started x with host := x.host, port := z }) hstarted.1
  simp only [create_eq_done, perform_actions, Parts.pathActions, List.append_assoc, hauthority]
  rw [← queryPlace, hbehind, ← huserinfo]
  constructor
  · rintro ⟨_, ⟨⟩, hv⟩
    have hread := hvalue.mp hv
    exact ⟨hread.1, hread.2.2⟩
  · rintro ⟨huser, hz⟩
    exact ⟨_, rfl, hvalue.mpr ⟨huser, rfl, hz⟩⟩

theorem create_iff_none (hport : x.port = none) :
    (∃ v, Uri.create x.text = .done (some x.value) v) ↔ x.Sound := by
  have hzero : (started x).port = 0 := (started_rest x).2.2.2
  rw [create_iff_of_authority x (z := (started x).port) (perform_authority_none x _ hport), hport,
    hzero]
  constructor
  · rintro ⟨huser, -⟩
    exact ⟨huser, by simp [hport]⟩
  · intro h
    exact ⟨h.userinfo, rfl⟩

theorem create_iff_some {d : List UInt8} (hport : x.port = some d) :
    (∃ v, Uri.create x.text = .done (some x.value) v) ↔ x.Sound := by
  by_cases hempty : d = []
  · simp only [create_eq_done, perform_actions, Parts.pathActions, List.append_assoc,
      List.singleton_append, perform_authority_empty x _ hport hempty]
    constructor
    · rintro ⟨_, ⟨⟩, -⟩
    · intro h
      exact absurd hempty (h.port d hport).1
  · rcases perform_authority_some x (started x) hport hempty with ⟨z, hz, hauthority⟩
    rw [create_iff_of_authority x hauthority, hport, Option.elim_some, hz]
    constructor
    · rintro ⟨huser, hsmall⟩
      refine ⟨huser, ?_⟩
      intro d' hd'
      rw [hport, Option.some.injEq] at hd'
      rw [← hd']
      exact ⟨hempty, hsmall⟩
    · intro h
      exact ⟨h.userinfo, (h.port d hport).2⟩

/-- `Create` returns the parts of a URI exactly if no digit stands behind the first colon of its user
info and its port is not empty and below 2^31. -/
theorem create_sound_iff : (∃ v, Uri.create x.text = .done (some x.value) v) ↔ x.Sound := by
  cases hport : x.port with
  | none => exact create_iff_none x hport
  | some d => exact create_iff_some x hport

end Iff

/-- `http://a:1@h/p`. -/
def digitInUserinfo : Parts where
  scheme := bytes "http"
  userinfo := some (bytes "a:1")
  host := bytes "h"
  port := none
  path := bytes "/p"
  query := none
  fragment := none
  isScheme := by decide +kernel
  isUserinfo := by decide +kernel
  isHost := by decide +kernel
  isPort := by rintro _ ⟨⟩
  isPath := by decide +kernel
  isQuery := by rintro _ ⟨⟩
  isFragment := by rintro _ ⟨⟩

/-- The user info is cut in front of the digit; an empty port makes a string of a null pointer. -/
theorem digit_cuts_userinfo : digitInUserinfo.text = bytes "http://a:1@h/p" ∧
    Uri.create (bytes "http://a:1@h/p") =
      .done (some { digitInUserinfo.value with userInfo := bytes "1" })
        ⟨none, { digitInUserinfo.value with userInfo := bytes "1" }⟩ ∧
    (¬∃ v, Uri.create digitInUserinfo.text = .done (some digitInUserinfo.value) v) ∧
    Uri.create (bytes "http://h:/p") = .raised .logicError
      ⟨none, { Uri.fresh with scheme := bytes "http", host := bytes "h" }⟩ := by
  have htext : digitInUserinfo.text = bytes "http://a:1@h/p" := rfl
  have hruns : Uri.create (bytes "http://a:1@h/p") =
        .done (some { digitInUserinfo.value with userInfo := bytes "1" })
          ⟨none, { digitInUserinfo.value with userInfo := bytes "1" }⟩ ∧
      Uri.create (bytes "http://h:/p") = .raised .logicError
        ⟨none, { Uri.fresh with scheme := bytes "http", host := bytes "h" }⟩ := by
    decide +kernel
  refine ⟨htext, hruns.1, ?_, hruns.2⟩
  rintro ⟨v, hrun⟩
  rw [htext, hruns.1] at hrun
  have huser := congrArg Uri.userInfo (Option.some.inj (Outcome.done.inj hrun).1)
  cases huser

end Sylar.Http.UriText
