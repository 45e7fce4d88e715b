import Mathlib.Data.List.Basic
import Sylar.Http.Request

/-! # `Address::Lookup`

The text of a host is cut into a node and a service with `memchr`, first at the brackets of an IPv6
literal and then, if that gave no node, at a colon. The second attempt leaves its pointer at the
first colon when there are several.
-/
namespace Sylar.Net.Lookup
open Http (byte bytes)

abbrev Text := List UInt8

/-- `memchr(host + start, c, size - start)`, as a place in the text. -/
def memchr (host : Text) (start : ℕ) (c : UInt8) : Option ℕ :=
  ((host.drop start).findIdx? (· == c)).map (start + ·)

/-- What a `const char *` says to its reader. -/
def cString (s : Text) : Text := s.takeWhile (· ≠ 0)

/-- `host_ip` and `host_port` after the look for brackets. -/
def bracketed (host : Text) : Text × Option ℕ :=
  if host.head? = some (byte '[') then
    match memchr host 1 (byte ']') with
    | none => ([], none)
    | some e =>
      ((host.drop 1).take (e - 1),
        if e + 1 < host.length ∧ host[e + 1]? = some (byte ':') then some (e + 2) else none)
  else ([], none)

/-- `host_ip` and `host_port` after the look for a colon. -/
def atColon (host : Text) : Text × Option ℕ :=
  match memchr host 0 (byte ':') with
  | none => ([], none)
  | some p =>
    match memchr host (p + 1) (byte ':') with
    | none => (host.take p, some (p + 1))
    | some _ => ([], some p)

/-- `host_ip.c_str()` and `host_port`, as `getaddrinfo` reads them. -/
def arguments (host : Text) : Text × Option Text :=
  let found := bracketed host
  let found := if found.1 = [] then atColon host else found
  let hostIp := if found.1 = [] then host else found.1
  (cString hostIp, found.2.map fun p => cString (host.drop p))

/-- The fields of `addrinfo` that are not zero. -/
structure Hints where
  family : ℤ
  socktype : ℤ
  protocol : ℤ

/-- What is made of the answer of `getaddrinfo`: the result, and the addresses found so far. -/
def collect {α β : Type} (create : α → β) (result : List β) : Except ℤ (List α) → Bool × List β
  | .error _ => (false, result)
  | .ok results => (true, result ++ results.map create)

def lookup {α β : Type} (getaddrinfo : Text → Option Text → Hints → Except ℤ (List α))
    (create : α → β) (result : List β) (host : Text) (hints : Hints) : Bool × List β :=
  collect create result (getaddrinfo (arguments host).1 (arguments host).2 hints)

/-- A node in brackets, perhaps with a service behind it. -/
def InBrackets (host : Text) : Prop :=
  ∃ h, byte ']' ∉ h ∧ (host = byte '[' :: (h ++ [byte ']']) ∨
    ∃ s, host = byte '[' :: (h ++ byte ']' :: byte ':' :: s))

/-- The node and the service that the text of a host says. -/
inductive Says : Text → Text → Option Text → Prop
  | bracketsPort {h s : Text} : byte ']' ∉ h →
      Says (byte '[' :: (h ++ byte ']' :: byte ':' :: s)) h (some s)
  | brackets {h : Text} : byte ']' ∉ h → Says (byte '[' :: (h ++ [byte ']'])) h none
  | port {h s : Text} : ¬InBrackets (h ++ byte ':' :: s) → h ≠ [] → byte ':' ∉ h →
      byte ':' ∉ s → Says (h ++ byte ':' :: s) h (some s)
  | name {h : Text} : ¬InBrackets h → byte ':' ∉ h → Says h h none
  | literal {h : Text} : h.head? ≠ some (byte '[') → 2 ≤ h.count (byte ':') → Says h h none

/-- The lookup is an answer of `getaddrinfo` to this node and this service. -/
def Asks (host node : Text) (service : Option Text) : Prop :=
  ∀ (α β : Type) (getaddrinfo : Text → Option Text → Hints → Except ℤ (List α)) (create : α → β)
    (result : List β) (hints : Hints), lookup getaddrinfo create result host hints =
      collect create result (getaddrinfo (cString node) (service.map cString) hints)

theorem asks_iff {host node : Text} {service : Option Text} :
    Asks host node service ↔ arguments host = (cString node, service.map cString) := by
  constructor
  · intro h
    by_contra hne
    -- a `getaddrinfo` that knows the arguments of the call and nothing else
    have hcall := h Unit Unit (fun n s _ => if arguments host = (n, s) then .ok [] else .error 0) id
      [] ⟨0, 0, 0⟩
    rw [lookup, if_pos rfl, if_neg hne] at hcall
    cases hcall
  · intro h α β getaddrinfo create result hints
    rw [lookup, h]

section Memchr

variable {a b host : Text} {c : UInt8} {n : ℕ}

theorem memchr_none (h : c ∉ host.drop n) : memchr host n c = none := by
  rw [memchr, List.findIdx?_eq_none_iff.mpr, Option.map_none]
  intro x hx
  simp only [beq_eq_false_iff_ne]
  rintro rfl
  exact h hx

theorem memchr_some (hn : host.drop n = a ++ c :: b) (h : c ∉ a) :
    memchr host n c = some (n + a.length) := by
  have hfind : a.findIdx? (· == c) = none := by
    rw [List.findIdx?_eq_none_iff]
    intro x hx
    simp only [beq_eq_false_iff_ne]
    rintro rfl
    exact h hx
  rw [memchr, hn, List.findIdx?_append, hfind, List.findIdx?_cons, beq_self_eq_true, if_pos rfl]
  simp

end Memchr

section Brackets

variable {h t host : Text}

/-- The node that the first bracket closes, and the service behind a colon. -/
theorem bracketed_closed (hmem : byte ']' ∉ h) :
    bracketed (byte '[' :: (h ++ byte ']' :: t)) =
      (h, if t.head? = some (byte ':') then some (h.length + 3) else none) := by
  have hclose : memchr (byte '[' :: (h ++ byte ']' :: t)) 1 (byte ']') = some (1 + h.length) :=
    memchr_some rfl hmem
  have hbehind : (byte '[' :: (h ++ byte ']' :: t))[1 + h.length + 1]? = t.head? := by
    rw [show 1 + h.length + 1 = h.length + 1 + 1 by omega, List.getElem?_cons_succ,
      List.getElem?_append_right (by omega), Nat.add_sub_cancel_left, List.getElem?_cons_succ,
      List.head?_eq_getElem?]
  have hlength : t.head? = some (byte ':') →
      1 + h.length + 1 < (byte '[' :: (h ++ byte ']' :: t)).length := by
    rw [← hbehind]
    exact fun hsome => (List.getElem?_eq_some_iff.mp hsome).1
  rw [bracketed, List.head?_cons, if_pos rfl, hclose]
  dsimp only
  simp only [hbehind, and_iff_right_of_imp hlength]
  rw [List.drop_one, List.tail_cons, Nat.add_sub_cancel_left, List.take_left,
    show 1 + h.length + 2 = h.length + 3 by omega]

/-- No node in brackets is found. -/
theorem bracketed_open (hopen : host.head? ≠ some (byte '[') ∨ byte ']' ∉ host.drop 1) :
    bracketed host = ([], none) := by
  rw [bracketed]
  split_ifs with hhead
  · rw [memchr_none (hopen.resolve_left fun hne => hne hhead)]
  · rfl

theorem arguments_closed (hmem : byte ']' ∉ h) (hne : h ≠ []) :
    arguments (byte '[' :: (h ++ byte ']' :: t)) =
      (cString h, if t.head? = some (byte ':') then some (cString t.tail) else none) := by
  rw [arguments, bracketed_closed hmem]
  dsimp only
  rw [if_neg hne, if_neg hne]
  split_ifs with hcolon
  · rw [Option.map_some, List.drop_succ_cons, List.drop_length_add_append, List.drop_succ_cons,
      List.drop_one]
  · rfl

end Brackets

section Colons

variable {a b host : Text}

theorem atColon_none (h : byte ':' ∉ host) : atColon host = ([], none) := by
  rw [atColon, memchr_none (by exact h)]

theorem atColon_one (ha : byte ':' ∉ a) (hb : byte ':' ∉ b) :
    atColon (a ++ byte ':' :: b) = (a, some (a.length + 1)) := by
  have hdrop : (a ++ byte ':' :: b).drop (a.length + 1) = b := List.drop_length_add_append ..
  rw [atColon, memchr_some (n := 0) rfl ha, Nat.zero_add]
  dsimp only
  rw [memchr_none (by rw [hdrop]; exact hb), List.take_left]

/-- The pointer stays at the first of several colons. -/
theorem atColon_more (ha : byte ':' ∉ a) (hb : byte ':' ∈ b) :
    atColon (a ++ byte ':' :: b) = ([], some a.length) := by
  rcases List.eq_append_cons_of_mem hb with ⟨b₁, b₂, hcut, hb₁⟩
  have hdrop : (a ++ byte ':' :: b).drop (a.length + 1) = b := List.drop_length_add_append ..
  rw [atColon, memchr_some (n := 0) rfl ha, Nat.zero_add]
  dsimp only
  rw [memchr_some (hdrop.trans hcut) hb₁]

variable (hopen : (bracketed host).1 = [])

include hopen

theorem arguments_none (h : byte ':' ∉ host) : arguments host = (cString host, none) := by
  rw [arguments, if_pos hopen, atColon_none h]
  rfl

theorem arguments_one (ha : byte ':' ∉ a) (hb : byte ':' ∉ b) (hhost : host = a ++ byte ':' :: b)
    (hne : a ≠ []) : arguments host = (cString a, some (cString b)) := by
  have hdrop : (a ++ byte ':' :: b).drop (a.length + 1) = b := List.drop_length_add_append ..
  rw [arguments, if_pos hopen, hhost, atColon_one ha hb, if_neg hne, Option.map_some, hdrop]

theorem arguments_more (ha : byte ':' ∉ a) (hb : byte ':' ∈ b) (hhost : host = a ++ byte ':' :: b) :
    arguments host = (cString host, some (cString (byte ':' :: b))) := by
  rw [arguments, if_pos hopen, hhost, atColon_more ha hb, if_pos rfl, Option.map_some, List.drop_left]

end Colons

section Says

variable {host node h t : Text} {service : Option Text}

/-- A text is cut at the first place of a byte in one way. -/
theorem cut_unique {c : UInt8} {a b a' b' : Text} (ha : c ∉ a) (ha' : c ∉ a')
    (heq : a ++ c :: b = a' ++ c :: b') : a = a' ∧ b = b' := by
  have hplace : memchr (a ++ c :: b) 0 c = memchr (a' ++ c :: b') 0 c := by rw [heq]
  rw [memchr_some (n := 0) rfl ha, memchr_some (n := 0) rfl ha', Option.some.injEq, Nat.zero_add,
    Nat.zero_add] at hplace
  have hinj := List.append_inj heq hplace
  exact ⟨hinj.1, (List.cons.inj hinj.2).2⟩

theorem count_cut {a b : Text} (ha : byte ':' ∉ a) :
    (a ++ byte ':' :: b).count (byte ':') = b.count (byte ':') + 1 := by
  rw [List.count_append, List.count_eq_zero.mpr ha, List.count_cons_self, Nat.zero_add]

theorem cString_bracket (s : Text) : cString (byte '[' :: s) = byte '[' :: cString s := by
  rw [cString, List.takeWhile_cons, if_pos (by decide), cString]

/-- A host without brackets whose text is not taken for a literal. -/
theorem arguments_plain (hopen : (bracketed host).1 = []) (htold : Says host node service)
    (hnot : ¬InBrackets host)
    (hliteral : host.head? = some (byte '[') ∨ host.count (byte ':') < 2) :
    arguments host = (cString node, service.map cString) := by
  cases htold with
  | bracketsPort hmem => exact absurd ⟨_, hmem, .inr ⟨_, rfl⟩⟩ hnot
  | brackets hmem => exact absurd ⟨_, hmem, .inl rfl⟩ hnot
  | port _ hne ha hb => exact arguments_one hopen ha hb rfl hne
  | name _ hcolon => exact arguments_none hopen hcolon
  | literal hhead hcount =>
    rcases hliteral with h | h
    · exact absurd h hhead
    · omega

/-- A node that begins with a bracket is asked for when no node in brackets is found. -/
theorem arguments_head (hopen : (bracketed (byte '[' :: t)).1 = []) :
    (arguments (byte '[' :: t)).1 ≠ [] := by
  by_cases hcolon : byte ':' ∈ byte '[' :: t
  · rcases List.eq_append_cons_of_mem hcolon with ⟨a, b, hcut, ha⟩
    by_cases hb : byte ':' ∈ b
    · rw [arguments_more hopen ha hb hcut, cString_bracket]
      exact List.cons_ne_nil _ _
    · cases a with
      | nil => cases hcut
      | cons x a =>
        rw [arguments_one hopen ha hb hcut (List.cons_ne_nil _ _)]
        cases hcut
        rw [cString_bracket]
        exact List.cons_ne_nil _ _
  · rw [arguments_none hopen hcolon, cString_bracket]
    exact List.cons_ne_nil _ _

theorem inBrackets_iff (hmem : byte ']' ∉ h) :
    InBrackets (byte '[' :: (h ++ byte ']' :: t)) ↔ t = [] ∨ t.head? = some (byte ':') := by
  constructor
  · rintro ⟨h', hmem', heq | ⟨s, heq⟩⟩
    · exact .inl (cut_unique hmem hmem' (List.cons.inj heq).2).2
    · rw [(cut_unique hmem hmem' (List.cons.inj heq).2).2]
      exact .inr rfl
  · rintro (rfl | hcolon)
    · exact ⟨h, hmem, .inl rfl⟩
    · cases t with
      | nil => cases hcolon
      | cons x s =>
        cases hcolon
        exact ⟨h, hmem, .inr ⟨s, rfl⟩⟩

/-- What stands in brackets is not read as what stands in and behind them. -/
theorem cString_ne (h t : Text) : cString (byte '[' :: (h ++ t)) ≠ cString h := by
  intro heq
  have hle : (cString h).length ≤ (cString (h ++ t)).length := by
    rw [cString, cString, List.takeWhile_append]
    split_ifs with hall
    · rw [hall, List.length_append]
      omega
    · exact le_rfl
  rw [cString_bracket] at heq
  have hlen := congrArg List.length heq
  rw [List.length_cons] at hlen
  omega

def serviceBehind (t : Text) : Option Text :=
  if t.head? = some (byte ':') then some t.tail else none

theorem says_brackets (hmem : byte ']' ∉ h) (hshape : t = [] ∨ t.head? = some (byte ':')) :
    Says (byte '[' :: (h ++ byte ']' :: t)) node service ↔
      node = h ∧ service = serviceBehind t := by
  have hin := (inBrackets_iff hmem).mpr hshape
  constructor
  · intro htold
    generalize hhost : byte '[' :: (h ++ byte ']' :: t) = host at htold hin
    cases htold with
    | bracketsPort hmem' =>
      rcases cut_unique hmem hmem' (List.cons.inj hhost).2 with ⟨rfl, rfl⟩
      exact ⟨rfl, rfl⟩
    | brackets hmem' =>
      rcases cut_unique hmem hmem' (List.cons.inj hhost).2 with ⟨rfl, rfl⟩
      exact ⟨rfl, rfl⟩
    | port hnot => exact absurd hin hnot
    | name hnot => exact absurd hin hnot
    | literal hhead =>
      rw [← hhost] at hhead
      exact absurd rfl hhead
  · rintro ⟨rfl, rfl⟩
    rcases hshape with rfl | hcolon
    · exact .brackets hmem
    · cases t with
      | nil => cases hcolon
      | cons x s =>
        cases hcolon
        exact .bracketsPort hmem

/-- A host that begins with a node in brackets. -/
theorem closed_iff (hmem : byte ']' ∉ h) (hhost : host = byte '[' :: (h ++ byte ']' :: t)) :
    (∀ node service, Says host node service →
      arguments host = (cString node, service.map cString)) ↔
    if t = [] ∨ t.head? = some (byte ':') then h ≠ []
    else h = [] ∨ 2 ≤ host.count (byte ':') := by
  have hempty : h = [] → (bracketed host).1 = [] := by
    intro hnil
    rw [hhost, bracketed_closed hmem, hnil]
  split_ifs with hshape
  · constructor
    · intro hright hnil
      have hcall := hright h (serviceBehind t)
      rw [hhost, says_brackets hmem hshape] at hcall
      rw [hhost] at hempty
      apply arguments_head (hempty hnil)
      rw [hcall ⟨rfl, rfl⟩, hnil]
      rfl
    · intro hne node service htold
      rw [hhost, says_brackets hmem hshape] at htold
      rcases htold with ⟨rfl, rfl⟩
      rw [hhost, arguments_closed hmem hne, serviceBehind]
      split_ifs <;> rfl
  · have hnot : ¬InBrackets host := by
      rw [hhost, inBrackets_iff hmem]
      exact hshape
    constructor
    · intro hright
      by_contra hbad
      rw [not_or] at hbad
      have hclosed := arguments_closed (t := t) hmem hbad.1
      rw [← hhost, if_neg fun hcolon => hshape (.inr hcolon)] at hclosed
      by_cases hcolon : byte ':' ∈ host
      · rcases List.eq_append_cons_of_mem hcolon with ⟨a, b, hcut, ha⟩
        have hb : byte ':' ∉ b := by
          rw [hcut, count_cut ha] at hbad
          exact List.count_eq_zero.mp (by omega)
        have hne : a ≠ [] := by
          rintro rfl
          rw [hhost] at hcut
          cases hcut
        have hcall := hright a (some b) (hcut ▸ .port (hcut ▸ hnot) hne ha hb)
        rw [hclosed] at hcall
        exact absurd (Prod.mk.inj hcall).2 nofun
      · have hcall := hright host none (.name hnot hcolon)
        rw [hclosed, Prod.mk.injEq, hhost] at hcall
        exact cString_ne h (byte ']' :: t) hcall.1.symm
    · rintro (hnil | hcount) node service htold
      · exact arguments_plain (hempty hnil) htold hnot (.inl (by rw [hhost]; rfl))
      · cases htold with
        | bracketsPort hmem' => exact absurd ⟨_, hmem', .inr ⟨_, rfl⟩⟩ hnot
        | brackets hmem' => exact absurd ⟨_, hmem', .inl rfl⟩ hnot
        | port _ _ ha hb =>
          rw [count_cut ha, List.count_eq_zero.mpr hb] at hcount
          omega
        | name _ hcolon =>
          rw [List.count_eq_zero.mpr hcolon] at hcount
          omega
        | literal hhead =>
          rw [hhost] at hhead
          exact absurd rfl hhead

end Says

/-- The hosts for which nothing else is asked than what they say: without a bracket at the front they
have at most one colon; behind a closed bracket comes the end or a colon, and something stands in the
brackets. A bracket that is closed elsewhere is harmless if it is empty or if the colons are too many
to say anything. -/
def Clear (host : Text) : Prop :=
  (host.head? ≠ some (byte '[') → host.count (byte ':') < 2) ∧
    ∀ h t, host = byte '[' :: (h ++ byte ']' :: t) → byte ']' ∉ h →
      if t = [] ∨ t.head? = some (byte ':') then h ≠ [] else h = [] ∨ 2 ≤ host.count (byte ':')

/-- `getaddrinfo` is asked for what the text of the host says exactly if the text is clear. -/
theorem asks_says_iff (host : Text) :
    (∀ node service, Says host node service → Asks host node service) ↔ Clear host := by
  simp only [asks_iff]
  by_cases hhead : host.head? = some (byte '[')
  · rcases List.head?_eq_some_iff.mp hhead with ⟨rest, rfl⟩
    by_cases hclosed : byte ']' ∈ rest
    · rcases List.eq_append_cons_of_mem hclosed with ⟨h, t, rfl, hmem⟩
      rw [closed_iff hmem rfl, Clear]
      constructor
      · intro hgood
        refine ⟨fun hne => absurd hhead hne, fun h' t' heq hmem' => ?_⟩
        rcases cut_unique hmem hmem' (List.cons.inj heq).2 with ⟨rfl, rfl⟩
        exact hgood
      · intro hclear
        exact hclear.2 h t rfl hmem
    · have hnever {h t : Text} (heq : byte '[' :: rest = byte '[' :: (h ++ byte ']' :: t)) : False := by
        rw [(List.cons.inj heq).2] at hclosed
        exact hclosed (List.mem_append_right _ List.mem_cons_self)
      have hnot : ¬InBrackets (byte '[' :: rest) := by
        rintro ⟨h, -, heq | ⟨s, heq⟩⟩
        · exact hnever heq
        · exact hnever heq
      have hopen : (bracketed (byte '[' :: rest)).1 = [] := by
        rw [bracketed_open (.inr (by exact hclosed))]
      apply iff_of_true
      · intro node service htold
        exact arguments_plain hopen htold hnot (.inl hhead)
      · exact ⟨fun hne => absurd hhead hne, fun h t heq => (hnever heq).elim⟩
  · have hopen : (bracketed host).1 = [] := by rw [bracketed_open (.inl hhead)]
    have hnot : ¬InBrackets host := by
      rintro ⟨h, -, rfl | ⟨s, rfl⟩⟩
      · exact hhead rfl
      · exact hhead rfl
    constructor
    · intro hright
      refine ⟨fun _ => ?_, fun h t heq => absurd (by rw [heq]; rfl) hhead⟩
      by_contra hcount
      have hcall := hright host none (.literal hhead (by omega))
      have hcolon : byte ':' ∈ host := List.count_pos_iff.mp (by omega)
      rcases List.eq_append_cons_of_mem hcolon with ⟨a, b, hcut, ha⟩
      have hb : byte ':' ∈ b := by
        rw [hcut, count_cut ha] at hcount
        exact List.count_pos_iff.mp (by omega)
      rw [arguments_more hopen ha hb hcut] at hcall
      exact absurd (Prod.mk.inj hcall).2 nofun
    · intro hclear node service htold
      exact arguments_plain hopen htold hnot (.inr (hclear.1 hhead))

/-- The literal `::1`: its text is also the service. -/
theorem literal_as_service :
    arguments (bytes "::1") = (bytes "::1", some (bytes "::1")) ∧
      Says (bytes "::1") (bytes "::1") none ∧ ¬Asks (bytes "::1") (bytes "::1") none := by
  have harguments : arguments (bytes "::1") = (bytes "::1", some (bytes "::1")) := by
    decide +kernel
  refine ⟨harguments, .literal (by decide) (by decide), ?_⟩
  rw [asks_iff, harguments]
  exact fun heq => absurd (Prod.mk.inj heq).2 nofun

end Sylar.Net.Lookup
