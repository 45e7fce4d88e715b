import Mathlib.Data.List.TakeWhile
import Sylar.Http.UriStates

/-! # The actions of the URI machine

A URI with an authority, in its parts, and the actions that the machine executes on it. Inside the
authority user info, host and port are matched at once: the text of a user info is read as a host
up to its first colon, and as a port behind it.
-/
namespace Sylar.Http.UriText
open Ragel Ragel.Expr UriGrammar
open Grammar (one mem_chr any mem_any digit alpha)

section Hosts

variable {w v : List UInt8}

theorem literal_of_accepts (h : IPLiteral.accepts w = true) :
    ∃ m, w = byte '[' :: (m ++ [byte ']']) ∧ byte ']' ∉ m := by
  change (seq (one '[') (seq (alt IPv6address IPvFuture) (one ']')) : Rule).accepts w = true at h
  rcases accepts_seq.mp h with ⟨o, mc, rfl, ho, hmc⟩
  rcases accepts_seq.mp hmc with ⟨m, c, rfl, hm, hc⟩
  rcases accepts_cls.mp ho with ⟨b, hb, rfl⟩
  rcases accepts_cls.mp hc with ⟨b', hb', rfl⟩
  rw [mem_chr, decide_eq_true_eq] at hb hb'
  rw [hb, hb']
  exact ⟨m, rfl, not_mem_of_accepts (Steps.literal steps) hm⟩

theorem host_cases (h : host.accepts w = true) :
    IPLiteral.accepts w = true ∨ (byte ':' ∉ w ∧ byte '[' ∉ w) := by
  have hcolon := Steps.names steps (byte ':') (by decide)
  have hbracket := Steps.names steps (byte '[') (by decide)
  change (alt IPLiteral (alt IPv4address regName) : Rule).accepts w = true at h
  rw [accepts_alt, accepts_alt, Bool.or_eq_true, Bool.or_eq_true] at h
  rcases h with h | h | h
  · exact .inl h
  · exact .inr ⟨not_mem_of_accepts hcolon.1 h, not_mem_of_accepts hbracket.1 h⟩
  · exact .inr ⟨not_mem_of_accepts hcolon.2 h, not_mem_of_accepts hbracket.2 h⟩

/-- A host with a colon is an IP literal. -/
theorem literal_of_colon (h : host.accepts w = true) (hc : byte ':' ∈ w) :
    ∃ m, w = byte '[' :: (m ++ [byte ']']) ∧ byte ']' ∉ m := by
  rcases host_cases h with h | h
  · exact literal_of_accepts h
  · exact absurd hc h.1

/-- What follows a colon behind a host does not belong to a longer host. -/
theorem not_host_longer (h : host.accepts w = true) : host.accepts (w ++ byte ':' :: v) ≠ true := by
  intro hlong
  rcases literal_of_colon hlong (by simp) with ⟨m, hm, hclosed⟩
  cases w with
  | nil =>
    rw [List.nil_append, List.cons.injEq] at hm
    exact absurd hm.1 (by decide)
  | cons b w =>
    rw [List.cons_append, List.cons.injEq] at hm
    rcases hm with ⟨rfl, hm⟩
    rcases host_cases h with h | h
    · rcases literal_of_accepts h with ⟨m', hm', -⟩
      rw [List.cons.injEq] at hm'
      rw [hm'.2] at hm
      have hlast := congrArg List.dropLast hm
      rw [List.dropLast_concat, List.append_assoc, List.dropLast_append_of_ne_nil (by simp)] at hlast
      apply hclosed
      rw [← hlast]
      simp
    · exact h.2 List.mem_cons_self

/-- The parts of a user info: a colon, or something that a host can have as well. -/
theorem userinfo_token (h : (Grammar.anyOf [cls unreserved, pctEncoded, cls subDelims, one ':'] :
    Rule).accepts w = true) : w = [byte ':'] ∨ (byte ':' ∉ w ∧
      (Grammar.anyOf [cls unreserved, pctEncoded, cls subDelims] : Rule).accepts w = true) := by
  have hplain {c : Cls} (hc : c.mem (byte ':') = false) (hw : (cls c : Rule).accepts w = true) :
      byte ':' ∉ w := by
    rcases accepts_cls.mp hw with ⟨b, hb, rfl⟩
    rw [List.mem_singleton]
    rintro rfl
    rw [hc] at hb
    cases hb
  simp only [Grammar.anyOf, accepts_alt, Bool.or_eq_true] at h ⊢
  rcases h with h | h | h | h
  · exact .inr ⟨hplain (by decide) h, .inl h⟩
  · exact .inr ⟨not_mem_of_accepts (Steps.userinfo steps).2.2.2 h, .inr (.inl h)⟩
  · exact .inr ⟨hplain (by decide) h, .inr (.inr h)⟩
  · rcases accepts_cls.mp h with ⟨b, hb, rfl⟩
    rw [mem_chr, decide_eq_true_eq] at hb
    exact .inl (by rw [hb])

/-- Up to its first colon a user info is a host. -/
theorem host_of_userinfo (h : userinfo.accepts (w ++ byte ':' :: v) = true)
    (hc : byte ':' ∉ w) : host.accepts w = true := by
  rcases accepts_star.mp h with ⟨ws, hws, hall⟩
  have hname : regName.accepts w = true := by
    refine accepts_star.mpr ?_
    -- the parts in front of the first colon are those of the host
    induction ws generalizing w with
    | nil => simp at hws
    | cons u ws ih =>
      rw [List.forall_mem_cons] at hall
      rw [List.flatten_cons] at hws
      rcases userinfo_token hall.1.1 with rfl | ⟨hu, htoken⟩
      · cases w with
        | nil => exact ⟨[], rfl, nofun⟩
        | cons b w =>
          rw [List.cons_append, List.singleton_append, List.cons.injEq] at hws
          exact absurd (hws.1 ▸ List.mem_cons_self) hc
      · rcases List.append_eq_append_iff.mp hws with ⟨w', rfl, hrest⟩ | ⟨w', rfl, hrest⟩
        · cases w' with
          | nil =>
            refine ⟨[w ++ []], by simp, ?_⟩
            rw [List.forall_mem_singleton]
            exact ⟨htoken, hall.1.2⟩
          | cons b w' =>
            rw [List.cons_append, List.cons.injEq] at hrest
            rw [hrest.1] at hu
            exact absurd (by simp) hu
        · rw [List.mem_append, not_or] at hc
          have haccepts : userinfo.accepts (w' ++ byte ':' :: v) = true :=
            accepts_star.mpr ⟨ws, hrest.symm, hall.2⟩
          rcases ih haccepts hc.2 hrest.symm hall.2 with ⟨us, rfl, hus⟩
          exact ⟨u :: us, rfl, List.forall_mem_cons.mpr ⟨⟨htoken, hall.1.2⟩, hus⟩⟩
  change (alt IPLiteral (alt IPv4address regName) : Rule).accepts w = true
  rw [accepts_alt, accepts_alt, hname, Bool.or_true, Bool.or_true]

end Hosts

section Actions

variable {w v : List UInt8} {b : UInt8} {x : ℕ × UriAction}

theorem accepts_one {c : Char} : (one c : Rule).accepts w = true ↔ w = [byte c] := by
  rw [one, accepts_cls]
  simp [mem_chr]

theorem deriv_one {c : Char} {b : UInt8} : (one c : Rule).deriv b ≠ [] ↔ b = byte c := by
  rw [one, Expr.deriv, mem_chr]
  by_cases h : b = byte c <;> simp [h]

theorem mem_actsAt_one {c : Char} : ¬x ∈ (one c : Rule).actsAt w b := by
  rw [actsAt_of_plain rfl]
  exact List.not_mem_nil

theorem mem_exitActs_one {c : Char} : ¬x ∈ (one c : Rule).exitActs w := by
  rw [exitActs_of_plain rfl]
  exact List.not_mem_nil

theorem plain_port : (port : Rule).plain = true := rfl

theorem deriv_portTail :
    (opt (seq (one ':') (leave 7 .savePort (enter 6 .markh port))) : Rule).deriv b ≠ [] ↔
      b = byte ':' := by
  rw [← deriv_one, opt, Expr.deriv, Expr.deriv, Expr.deriv, List.append_nil]
  simp [null, one]

theorem mem_actsAt_hostPort : x ∈ hostPort.actsAt w b ↔
    (w = [] ∧ host.deriv b ≠ [] ∧ x = (4, .markh)) ∨
    (b = byte ':' ∧ host.accepts w = true ∧ ((w = [] ∧ x = (4, .markh)) ∨ x = (5, .saveHost))) ∨
    (∃ h, w = h ++ [byte ':'] ∧ host.accepts h = true ∧ port.deriv b ≠ [] ∧ x = (6, .markh)) := by
  rw [hostPort, mem_actsAt_seq]
  simp only [mem_actsAt_leave, mem_actsAt_enter, actsAt_of_plain (Steps.host steps).1,
    mem_actsAt_opt,
    mem_actsAt_seq, mem_actsAt_one, mem_exitActs_one, actsAt_of_plain plain_port, accepts_leave,
    accepts_enter, mem_exitActs_piece (Steps.host steps).1,
    List.not_mem_nil, false_or, and_false, or_false, deriv_portTail, accepts_one]
  constructor
  · rintro (h | ⟨u, v, rfl, hu, ⟨_, _, rfl, rfl, rfl, hport, hx⟩ | ⟨rfl, rfl, -, hx⟩⟩)
    · exact .inl h
    · exact .inr (.inr ⟨u, by simp, hu, hport, hx⟩)
    · rw [List.append_nil]
      exact .inr (.inl ⟨rfl, hu, hx⟩)
  · rintro (h | ⟨rfl, hw, hx⟩ | ⟨h, rfl, hh, hport, hx⟩)
    · exact .inl h
    · exact .inr ⟨w, [], by simp, hw, .inr ⟨rfl, rfl, hw, hx⟩⟩
    · exact .inr ⟨h, [byte ':'], rfl, hh, .inl ⟨[byte ':'], [], rfl, rfl, rfl, hport, hx⟩⟩

theorem mem_exitActs_hostPort : x ∈ hostPort.exitActs w ↔
    (host.accepts w = true ∧ ((w = [] ∧ x = (4, .markh)) ∨ x = (5, .saveHost))) ∨
    (∃ h d, w = h ++ byte ':' :: d ∧ host.accepts h = true ∧ port.accepts d = true ∧
      ((d = [] ∧ x = (6, .markh)) ∨ x = (7, .savePort))) := by
  rw [hostPort, mem_exitActs_seq]
  simp only [mem_exitActs_opt, mem_exitActs_seq, mem_exitActs_piece (Steps.host steps).1,
    mem_exitActs_piece plain_port, mem_exitActs_one,
    accepts_leave, accepts_enter, and_false, or_false, accepts_one]
  constructor
  · rintro ⟨u, v, rfl, hu, -, ⟨_, d, rfl, rfl, hd, -, hx⟩ | ⟨rfl, -, hx⟩⟩
    · exact .inr ⟨u, d, rfl, hu, hd, hx⟩
    · rw [List.append_nil]
      exact .inl ⟨hu, hx⟩
  · rintro (⟨hw, hx⟩ | ⟨h, d, rfl, hh, hd, hx⟩)
    · exact ⟨w, [], by simp, hw, rfl, .inr ⟨rfl, hw, hx⟩⟩
    · refine ⟨h, byte ':' :: d, rfl, hh, ?_, .inl ⟨[byte ':'], d, rfl, rfl, hd, hd, hx⟩⟩
      rw [opt, accepts_alt, Bool.or_eq_true]
      left
      refine accepts_seq.mpr ⟨[byte ':'], d, rfl, accepts_one.mpr rfl, ?_⟩
      rw [accepts_leave, accepts_enter]
      exact hd

/-- What can stand in front of the host. -/
def IsLead (v : List UInt8) : Prop := v = [] ∨ ∃ u, v = u ++ [byte '@'] ∧ userinfo.accepts u = true

theorem accepts_lead : (opt userinfoAt).accepts v = true ↔ IsLead v := by
  have heps : (eps : Rule).accepts v = true ↔ v = [] := by
    cases v <;> simp [accepts, null, Expr.deriv]
  rw [opt, accepts_alt, Bool.or_eq_true, heps, userinfoAt, accepts_seq]
  simp only [accepts_leave, accepts_one]
  constructor
  · rintro (⟨u, _, rfl, hu, rfl⟩ | rfl)
    · exact .inr ⟨u, rfl, hu⟩
    · exact .inl rfl
  · rintro (rfl | ⟨u, rfl, hu⟩)
    · exact .inr rfl
    · exact .inl ⟨u, _, rfl, hu, rfl⟩

theorem exitActs_lead : (opt userinfoAt).exitActs w = [] := by
  rw [List.eq_nil_iff_forall_not_mem]
  intro x hx
  rw [mem_exitActs_opt, userinfoAt, mem_exitActs_seq] at hx
  rcases hx with ⟨u, v, -, -, hv, hx | ⟨rfl, -⟩⟩
  · exact mem_exitActs_one hx
  · exact absurd (accepts_one.mp hv) (by simp)

theorem mem_actsAt_lead : x ∈ (opt userinfoAt).actsAt w b ↔
    b = byte '@' ∧ userinfo.accepts w = true ∧ x = (3, .saveUserinfo) := by
  rw [mem_actsAt_opt, userinfoAt, mem_actsAt_seq]
  simp only [mem_actsAt_leave, actsAt_of_plain (Steps.userinfo steps).1, mem_actsAt_one,
    accepts_leave, mem_exitActs_leave, exitActs_of_plain (Steps.userinfo steps).1,
    List.not_mem_nil, false_or, deriv_one]
  constructor
  · rintro ⟨u, v, rfl, hu, rfl, rfl, -, rfl⟩
    rw [List.append_nil]
    exact ⟨rfl, hu, rfl⟩
  · rintro ⟨rfl, hw, rfl⟩
    exact ⟨w, [], by simp, hw, rfl, rfl, hw, rfl⟩

theorem not_at_of_userinfo {u : List UInt8} (h : userinfo.accepts u = true) : byte '@' ∉ u :=
  not_mem_of_accepts (Steps.userinfo steps).2.1 h

/-- The text in front of the host is determined by the whole. -/
theorem lead_unique {y z : List UInt8} (hv : IsLead v) (hw : byte '@' ∉ w) (hy : IsLead y)
    (h : v ++ w = y ++ z) : (y = v ∧ z = w) ∨ byte '@' ∈ z := by
  rcases hv with rfl | ⟨u, rfl, hu⟩
  · rcases hy with rfl | ⟨u', rfl, -⟩
    · exact .inl ⟨rfl, h.symm⟩
    · rw [List.nil_append] at h
      rw [h] at hw
      simp at hw
  · rcases hy with rfl | ⟨u', rfl, -⟩
    · right
      rw [← List.nil_append z, ← h]
      simp
    · rw [List.append_assoc, List.append_assoc, List.singleton_append, List.singleton_append,
        List.append_cons_inj_of_notMem (not_at_of_userinfo hu) hw] at h
      exact .inl ⟨by rw [h.1], h.2.2.symm⟩

/-- Behind the user info, or where it could still come, the actions are those of host and port. -/
theorem mem_actsAt_authority (hv : IsLead v) (hw : byte '@' ∉ w) (hb : b ≠ byte '@') :
    x ∈ authorityAt.actsAt (v ++ w) b ↔ (v ++ w = [] ∧ authorityAt.reach [b] ≠ [] ∧ x = (2, .markh)) ∨
      x ∈ hostPort.actsAt w b := by
  have hreach : authorityAt.reach [b] ≠ [] ↔ (seq (opt userinfoAt) hostPort).deriv b ≠ [] := by
    rw [authorityAt, reach_enter, reach_singleton, ne_eq, List.map_eq_nil_iff]
  rw [hreach, authorityAt, mem_actsAt_enter, mem_actsAt_seq, or_comm]
  apply or_congr_right
  simp only [mem_actsAt_lead, hb, false_and, false_or, exitActs_lead, List.not_mem_nil, and_false,
    or_false, accepts_lead]
  constructor
  · rintro ⟨y, z, heq, hy, hx⟩
    rcases lead_unique hv hw hy heq with ⟨-, rfl⟩ | hz
    · exact hx
    · rw [actsAt, movesAt, reach_of_avoids (Steps.host steps).2.1 hz] at hx
      cases hx
  · intro hx
    exact ⟨v, w, rfl, hv, hx⟩

theorem mem_exitActs_authority (hv : IsLead v) (hw : byte '@' ∉ w) :
    x ∈ authorityAt.exitActs (v ++ w) ↔
      (v ++ w = [] ∧ x = (2, .markh)) ∨ x ∈ hostPort.exitActs w := by
  have hnull : (seq (opt userinfoAt) hostPort).null.isSome = true := rfl
  rw [authorityAt, mem_exitActs_enter, mem_exitActs_seq, or_comm]
  simp only [exitActs_lead, List.not_mem_nil, and_false, or_false, accepts_lead, hnull, true_and]
  apply or_congr_right
  constructor
  · rintro ⟨y, z, heq, hy, -, hx⟩
    rcases lead_unique hv hw hy heq with ⟨-, rfl⟩ | hz
    · exact hx
    · rw [exitActs, reach_of_avoids (Steps.host steps).2.1 hz] at hx
      cases hx
  · intro hx
    exact ⟨v, w, rfl, hv, accepts_of_exitActs hx, hx⟩

/-- The end of the user info. -/
theorem mem_actsAt_sign (hw : userinfo.accepts w = true) : x ∈ authorityAt.actsAt w (byte '@') ↔
    (w = [] ∧ x = (2, .markh)) ∨ x = (3, .saveUserinfo) := by
  have hsign : (seq (opt userinfoAt) hostPort).deriv (byte '@') ≠ [] := by
    intro h
    have hempty := Steps.sign steps
    rw [h] at hempty
    cases hempty
  rw [authorityAt, mem_actsAt_enter, mem_actsAt_seq, or_comm]
  simp only [hsign, ne_eq, not_false_eq_true, true_and, mem_actsAt_lead, hw, exitActs_lead,
    actsAt_of_avoids (Steps.host steps).2.1, List.not_mem_nil, and_false, or_false, exists_false]

end Actions

section Passing

variable {u v w h d : List UInt8} {b : UInt8} {as : List (ℕ × UriAction)}

/-- The place at which a text starts, unless it is empty. -/
def mark (a : UriAction) (p : ℕ) (w : List UInt8) : List (UriAction × ℕ) :=
  if w = [] then [] else [(a, p)]

/-- If it is empty, the place is recorded behind it. -/
theorem mark_append (a : UriAction) (p : ℕ) (w : List UInt8) (l : List (UriAction × ℕ)) :
    mark a p w ++ ((if w = [] then [(a, p + w.length)] else []) ++ l) = (a, p) :: l := by
  by_cases hw : w = [] <;> simp [mark, hw]

/-- The actions that are pending behind it, without the place. -/
theorem pending_eq {a a' : UriAction} (hne : a ≠ a') (n m p : ℕ) (w : List UInt8) :
    ((((if w = [] then [(n, a)] else []) ++ [(m, a')]).map Prod.snd).eraseDups.map fun a => (a, p)) =
      (if w = [] then [(a, p)] else []) ++ [(a', p)] := by
  by_cases hw : w = []
  · simp [hw, List.eraseDups_cons, hne.symm]
  · simp [hw, List.eraseDups_cons]

theorem accepts_hostPort (hh : host.accepts h = true) : hostPort.accepts h = true :=
  accepts_of_exitActs (mem_exitActs_hostPort.mpr (.inl ⟨hh, .inr rfl⟩))

theorem accepts_hostPort_port (hh : host.accepts h = true) (hd : port.accepts d = true) :
    hostPort.accepts (h ++ byte ':' :: d) = true :=
  accepts_of_exitActs (mem_exitActs_hostPort.mpr (.inr ⟨h, d, rfl, hh, hd, .inr rfl⟩))

theorem accepts_authority (hv : IsLead v) (hw : hostPort.accepts w = true) :
    authorityAt.accepts (v ++ w) = true := by
  rw [authorityAt, accepts_enter]
  exact accepts_seq.mpr ⟨v, w, rfl, accepts_lead.mpr hv, hw⟩

theorem accepts_userinfo (hu : userinfo.accepts u = true) :
    authorityAt.accepts (u ++ [byte '@']) = true := by
  have hlead : IsLead (u ++ [byte '@']) := .inr ⟨u, rfl, hu⟩
  rw [← List.append_nil (u ++ [byte '@'])]
  exact accepts_authority hlead rfl

theorem inside_of_accepts (hw : authorityAt.accepts w = true) (hb : b ∈ w) :
    (authorityFrame eps).deriv b = [] := by
  apply (Steps.inside steps b (Cls.mem_members.mpr (mem_any b))).1
  intro hout
  exact not_mem_of_accepts ((Steps.avoids steps).1 b hout) hw hb

theorem passes_at (haccepts : authorityAt.accepts (w ++ b :: u) = true)
    (hacts : ∀ x, x ∈ authorityAt.actsAt w b ↔ x ∈ as)
    (hsorted : as.Pairwise fun x y => x.1 < y.1) (p : ℕ) :
    Passes authorityFrame authorityAt w p [b]
      ((as.map Prod.snd).eraseDups.map fun a => (a, p)) := by
  apply passes_byte frame_authority (Steps.calm steps).1 (inside_of_accepts haccepts (by simp)) _
    hacts
    hsorted
  rw [List.append_cons] at haccepts
  exact reach_ne_nil haccepts

theorem passes_over (haccepts : authorityAt.accepts (w ++ v ++ u) = true)
    (hacts : ∀ v₁ b v₂, v = v₁ ++ b :: v₂ → ∀ x, x ∉ authorityAt.actsAt (w ++ v₁) b) (p : ℕ) :
    Passes authorityFrame authorityAt w p v [] := by
  apply passes_silent frame_authority (Steps.calm steps).1 _ (reach_ne_nil haccepts)
  · intro v₁ b v₂ heq
    exact List.eq_nil_iff_forall_not_mem.mpr (hacts v₁ b v₂ heq)
  · intro b hb
    exact inside_of_accepts haccepts (by simp [hb])

theorem reach_of_accepts (h : authorityAt.accepts (b :: u) = true) : authorityAt.reach [b] ≠ [] :=
  reach_ne_nil (w := [b]) h

theorem deriv_port : port.deriv b ≠ [] ↔ digit.mem b = true := by
  rw [port, Expr.deriv, Expr.deriv]
  split_ifs with hb <;> simp [hb]

theorem not_at_of_host (hh : host.accepts h = true) : byte '@' ∉ h :=
  not_mem_of_accepts (Steps.host steps).2.2.1 hh

theorem host_deriv_colon : host.deriv (byte ':') = [] :=
  List.isEmpty_iff.mp (Steps.host steps).2.2.2

/-- The host. -/
theorem passes_host (hv : IsLead v) (hh : host.accepts h = true) (p : ℕ) :
    Passes authorityFrame authorityAt v p h (mark .markh p h) := by
  cases h with
  | nil => exact passes_nil _ _ _ _
  | cons b h =>
    have hat := not_at_of_host hh
    rw [List.mem_cons, not_or] at hat
    have hderiv := deriv_of_accepts hh
    have hcolon : b ≠ byte ':' := by
      rintro rfl
      exact hderiv host_deriv_colon
    have haccepts := accepts_authority hv (accepts_hostPort hh)
    have hfirst : ∀ x, x ∈ authorityAt.actsAt v b ↔
        x ∈ (if v = [] then [(2, .markh)] else []) ++ [(4, UriAction.markh)] := by
      intro x
      have hacts := mem_actsAt_authority (x := x) hv List.not_mem_nil (Ne.symm hat.1)
      rw [List.append_nil] at hacts
      rw [hacts, mem_actsAt_hostPort]
      by_cases hnil : v = []
      · rw [hnil, List.nil_append] at haccepts
        simp [hnil, hderiv, hcolon, reach_of_accepts haccepts]
      · simp [hnil, hderiv, hcolon]
    have hactions : ((((if v = [] then [(2, UriAction.markh)] else []) ++
        [(4, UriAction.markh)]).map Prod.snd).eraseDups.map fun a => (a, p)) = [(.markh, p)] := by
      by_cases hnil : v = [] <;> simp [hnil, List.eraseDups_cons]
    have hpass := passes_at haccepts hfirst (by by_cases hnil : v = [] <;> simp [hnil]) p
    rw [hactions] at hpass
    refine hpass.append (passes_over (u := []) (by simpa using haccepts) ?_ _)
    intro h₁ c h₂ heq x hx
    have hword : b :: h = b :: h₁ ++ c :: h₂ := by rw [heq, List.cons_append]
    have hmem : byte '@' ∉ b :: h₁ ∧ c ≠ byte '@' := by
      have hno := not_at_of_host hh
      rw [hword, List.mem_append, not_or] at hno
      exact ⟨hno.1, Ne.symm (List.ne_of_not_mem_cons hno.2)⟩
    rw [List.append_assoc, List.singleton_append, mem_actsAt_authority hv hmem.1 hmem.2,
      mem_actsAt_hostPort] at hx
    rcases hx with ⟨hnil, -⟩ | ⟨hnil, -⟩ | ⟨rfl, hshort, -⟩ | ⟨h', hh', hshort, -⟩
    · simp at hnil
    · cases hnil
    · rw [hword] at hh
      exact not_host_longer hshort hh
    · rw [hword, hh', List.append_assoc] at hh
      exact not_host_longer hshort hh

/-- The colon behind the host. -/
theorem passes_colon (hv : IsLead v) (hh : host.accepts h = true) (hd : port.accepts d = true)
    (p : ℕ) : Passes authorityFrame authorityAt (v ++ h) p [byte ':']
      ((if h = [] then [(.markh, p)] else []) ++ [(.saveHost, p)]) := by
  have haccepts := accepts_authority hv (accepts_hostPort_port hh hd)
  rw [← List.append_assoc] at haccepts
  have hacts : ∀ x, x ∈ authorityAt.actsAt (v ++ h) (byte ':') ↔
      x ∈ (if v ++ h = [] then [(2, .markh)] else []) ++
        ((if h = [] then [(4, .markh)] else []) ++ [(5, UriAction.saveHost)]) := by
    intro x
    have hport : ¬port.deriv (byte ':') ≠ [] := by
      rw [deriv_port]
      decide
    rw [mem_actsAt_authority hv (not_at_of_host hh) (by decide), mem_actsAt_hostPort]
    by_cases hnil : v ++ h = []
    · rw [hnil, List.nil_append] at haccepts
      rw [List.append_eq_nil_iff] at hnil
      rw [hnil.2] at hh
      simp [hnil.1, hnil.2, hh, hport, host_deriv_colon, reach_of_accepts haccepts]
    · simp [hnil, hh, hport, host_deriv_colon]
  have hpass := passes_at haccepts hacts (by split_ifs <;> simp) p
  by_cases hnil : h = []
  · by_cases hv : v = [] <;> simpa [hnil, hv, List.eraseDups_cons] using hpass
  · simpa [hnil, List.eraseDups_cons] using hpass

/-- The digits behind it. -/
theorem passes_port (hv : IsLead v) (hh : host.accepts h = true) (hd : port.accepts d = true)
    (p : ℕ) : Passes authorityFrame authorityAt (v ++ (h ++ [byte ':'])) p d (mark .markh p d) := by
  cases d with
  | nil => exact passes_nil _ _ _ _
  | cons b d =>
    have haccepts := accepts_authority hv (accepts_hostPort_port hh hd)
    have hdigits := hd
    rw [port, accepts_star_cls, List.all_eq_true] at hdigits
    have hcls {c : UInt8} (hc : c ∈ b :: d) : c ≠ byte ':' ∧ c ≠ byte '@' := by
      constructor
      · rintro rfl
        exact absurd (hdigits _ hc) (by decide)
      · rintro rfl
        exact absurd (hdigits _ hc) (by decide)
    have hat : byte '@' ∉ h ++ [byte ':'] := by
      rw [List.mem_append, not_or]
      exact ⟨not_at_of_host hh, by decide⟩
    rw [List.append_cons, ← List.append_assoc] at haccepts
    have hfirst : ∀ x, x ∈ authorityAt.actsAt (v ++ (h ++ [byte ':'])) b ↔
        x ∈ [(6, UriAction.markh)] := by
      intro x
      have hdigit := deriv_port.mpr (hdigits b List.mem_cons_self)
      rw [mem_actsAt_authority hv hat (hcls List.mem_cons_self).2, mem_actsAt_hostPort]
      simp [hdigit, (hcls List.mem_cons_self).1, hh]
    have hpass := passes_at haccepts hfirst (List.pairwise_singleton _ _) p
    refine hpass.append (passes_over (u := []) (by simpa using haccepts) ?_ _)
    intro d₁ c d₂ heq x hx
    have hc : c ∈ b :: d := by simp [heq]
    have hat' : byte '@' ∉ h ++ [byte ':'] ++ b :: d₁ := by
      rw [List.mem_append, not_or]
      refine ⟨hat, fun hmem => (hcls ?_).2 rfl⟩
      rw [heq, ← List.cons_append]
      exact List.mem_append_left _ hmem
    have hplace : v ++ (h ++ [byte ':']) ++ [b] ++ d₁ = v ++ (h ++ [byte ':'] ++ b :: d₁) := by simp
    rw [hplace, mem_actsAt_authority hv hat' (hcls hc).2, mem_actsAt_hostPort] at hx
    rcases hx with ⟨hnil, -⟩ | ⟨hnil, -⟩ | ⟨hcolon, -⟩ | ⟨h', hh', -⟩
    · simp at hnil
    · simp at hnil
    · exact (hcls hc).1 hcolon
    · have hlast := congrArg List.getLast? hh'
      rw [List.getLast?_append_of_ne_nil _ (List.cons_ne_nil _ _), List.getLast?_concat] at hlast
      have hmem : byte ':' ∈ b :: d₁ := List.mem_of_getLast? hlast
      refine (hcls (c := byte ':') ?_).1 rfl
      rw [heq, ← List.cons_append]
      exact List.mem_append_left _ hmem

/-- What follows the first colon of a user info can be the first digit of a port. -/
theorem passes_behind {q : List UInt8} (hu : userinfo.accepts (v ++ byte ':' :: q) = true)
    (hh : host.accepts v = true) (p : ℕ) :
    Passes authorityFrame authorityAt (v ++ [byte ':']) p q
      (if q.head?.any digit.mem then [(.markh, p)] else []) := by
  cases q with
  | nil => exact passes_nil _ _ _ _
  | cons b q =>
    have haccepts : authorityAt.accepts (v ++ [byte ':'] ++ b :: (q ++ [byte '@'])) = true := by
      simpa using accepts_userinfo hu
    have hat := not_at_of_userinfo hu
    have hprefix (w : List UInt8) (c : UInt8) (hw : w ++ [c] <+: v ++ byte ':' :: b :: q) :
        byte '@' ∉ w ∧ c ≠ byte '@' := by
      constructor
      · intro hmem
        exact hat (hw.subset (List.mem_append_left _ hmem))
      · rintro rfl
        exact hat (hw.subset (by simp))
    have hfirst : ∀ x, x ∈ authorityAt.actsAt (v ++ [byte ':']) b ↔
        x ∈ if digit.mem b then [(6, UriAction.markh)] else [] := by
      intro x
      have hno := hprefix (v ++ [byte ':']) b ⟨q, by simp⟩
      have hacts := mem_actsAt_authority (x := x) (.inl rfl) hno.1 hno.2
      rw [List.nil_append] at hacts
      rw [hacts, mem_actsAt_hostPort]
      simp only [deriv_port]
      by_cases hb : digit.mem b = true <;> simp [hb, hh, not_host_longer hh]
    have hactions : (((if digit.mem b then [(6, UriAction.markh)] else []).map
        Prod.snd).eraseDups.map fun a => (a, p)) =
          if (b :: q).head?.any digit.mem then [(.markh, p)] else [] := by
      by_cases hb : digit.mem b = true <;> simp [hb, List.eraseDups_cons]
    have hpass := passes_at haccepts hfirst (by split_ifs <;> simp) p
    rw [hactions] at hpass
    have hrest : Passes authorityFrame authorityAt (v ++ [byte ':'] ++ [b]) (p + 1) q [] := by
      refine passes_over (u := [byte '@']) (by simpa using haccepts) ?_ _
      intro q₁ c q₂ heq x hx
      have hplace : v ++ [byte ':'] ++ [b] ++ q₁ = v ++ byte ':' :: b :: q₁ := by simp
      have hno := hprefix (v ++ byte ':' :: b :: q₁) c ⟨q₂, by simp [heq]⟩
      have hacts := mem_actsAt_authority (x := x) (.inl rfl) hno.1 hno.2
      rw [List.nil_append] at hacts
      rw [hplace, hacts, mem_actsAt_hostPort] at hx
      rcases hx with ⟨hnil, -⟩ | ⟨hnil, -⟩ | ⟨-, hlong, -⟩ | ⟨h', hh', hlong, -⟩
      · simp at hnil
      · simp at hnil
      · exact not_host_longer hh hlong
      · have hdrop := congrArg List.dropLast hh'
        rw [List.dropLast_concat, List.dropLast_append_of_ne_nil (by simp), List.dropLast_cons_of_ne_nil
          (by simp)] at hdrop
        rw [← hdrop] at hlong
        exact not_host_longer hh hlong
    have hboth := hpass.append hrest
    rw [List.append_nil] at hboth
    exact hboth

/-- The end of the user info. -/
theorem passes_sign (hu : userinfo.accepts u = true) (p : ℕ) :
    Passes authorityFrame authorityAt u p [byte '@']
      ((if u = [] then [(.markh, p)] else []) ++ [(.saveUserinfo, p)]) := by
  have hacts : ∀ x, x ∈ authorityAt.actsAt u (byte '@') ↔
      x ∈ (if u = [] then [(2, .markh)] else []) ++ [(3, UriAction.saveUserinfo)] := by
    intro x
    rw [mem_actsAt_sign hu]
    by_cases hnil : u = [] <;> simp [hnil]
  have hpass := passes_at (accepts_userinfo hu) hacts (by split_ifs <;> simp) p
  by_cases hnil : u = []
  · simpa [hnil, List.eraseDups_cons] using hpass
  · simpa [hnil, List.eraseDups_cons] using hpass

/-- A user info is cut at its first colon. -/
def beforeColon (u : List UInt8) : List UInt8 := u.takeWhile (· ≠ byte ':')

def behindColon (u : List UInt8) : Option (List UInt8) := (u.dropWhile (· ≠ byte ':')).tail?

theorem colon_cases (u : List UInt8) :
    (behindColon u = none ∧ byte ':' ∉ u ∧ beforeColon u = u) ∨
    ∃ q, behindColon u = some q ∧ byte ':' ∉ beforeColon u ∧
      u = beforeColon u ++ byte ':' :: q := by
  have hbefore : byte ':' ∉ beforeColon u := by
    intro hmem
    simpa using List.mem_takeWhile_imp hmem
  have hsplit : beforeColon u ++ u.dropWhile (· ≠ byte ':') = u := List.takeWhile_append_dropWhile
  cases hdrop : u.dropWhile (· ≠ byte ':') with
  | nil =>
    rw [hdrop, List.append_nil] at hsplit
    left
    refine ⟨by rw [behindColon, hdrop]; rfl, ?_, hsplit⟩
    rw [← hsplit]
    exact hbefore
  | cons c q =>
    have hc : c = byte ':' := by
      have hhead := List.head?_dropWhile_not (· ≠ byte ':') u
      rw [hdrop] at hhead
      simpa using hhead
    rw [hdrop, hc] at hsplit
    right
    exact ⟨q, by rw [behindColon, hdrop]; rfl, hbefore, hsplit.symm⟩

/-- What is executed at the first colon of a user info and at a digit behind it. -/
def colonActions (p : ℕ) (u : List UInt8) : List (UriAction × ℕ) :=
  match behindColon u with
  | none => []
  | some q => (.saveHost, p + (beforeColon u).length) ::
      if q.head?.any digit.mem then [(.markh, p + (beforeColon u).length + 1)] else []

theorem host_of_beforeColon (hu : userinfo.accepts u = true) :
    host.accepts (beforeColon u) = true := by
  rcases colon_cases u with ⟨-, hno, heq⟩ | ⟨q, -, hno, heq⟩
  · rw [heq]
    refine host_of_userinfo (v := []) ?_ hno
    rcases accepts_star.mp hu with ⟨ws, rfl, hws⟩
    refine accepts_star.mpr ⟨ws ++ [[byte ':']], by simp, ?_⟩
    rw [List.forall_mem_append, List.forall_mem_singleton]
    exact ⟨hws, rfl, List.cons_ne_nil _ _⟩
  · rw [heq] at hu
    exact host_of_userinfo hu hno

/-- The user info with the sign behind it. -/
theorem passes_userinfo (hu : userinfo.accepts u = true) (p : ℕ) :
    Passes authorityFrame authorityAt [] p (u ++ [byte '@'])
      ((.markh, p) :: (colonActions p u ++ [(.saveUserinfo, p + u.length)])) := by
  have hhost := host_of_beforeColon hu
  have hlead : IsLead [] := .inl rfl
  have hfirst := passes_host hlead hhost p
  rcases colon_cases u with ⟨hnone, -, heq⟩ | ⟨q, hsome, -, heq⟩
  · have hpass := hfirst.append (by
      rw [List.nil_append, heq]
      exact passes_sign hu _)
    rw [heq, mark_append] at hpass
    rw [colonActions, hnone]
    exact hpass
  · have hcolon := hfirst.append (passes_colon hlead hhost (d := []) rfl _)
    rw [mark_append] at hcolon
    have hu' := hu
    rw [heq] at hu'
    have hbehind := hcolon.append (by
      rw [List.nil_append]
      exact passes_behind hu' hhost _)
    rw [← List.append_cons, ← heq] at hbehind
    have hpass := hbehind.append (by
      rw [List.nil_append]
      exact passes_sign hu _)
    have hne : u ≠ [] := by
      rw [heq]
      simp
    rw [if_neg hne] at hpass
    rw [colonActions, hsome]
    simpa [Nat.add_assoc] using hpass

end Passing

/-- A URI with an authority in its parts, each in the language of its rule. -/
structure Parts where
  scheme : List UInt8
  userinfo : Option (List UInt8)
  host : List UInt8
  port : Option (List UInt8)
  path : List UInt8
  query : Option (List UInt8)
  fragment : Option (List UInt8)
  isScheme : UriGrammar.scheme.accepts scheme = true
  isUserinfo : ∀ u ∈ userinfo, UriGrammar.userinfo.accepts u = true
  isHost : UriGrammar.host.accepts host = true
  isPort : ∀ d ∈ port, UriGrammar.port.accepts d = true
  isPath : pathAbempty.accepts path = true
  isQuery : ∀ q ∈ query, UriGrammar.query.accepts q = true
  isFragment : ∀ f ∈ fragment, UriGrammar.fragment.accepts f = true

namespace Parts

variable (x : Parts)

def lead : List UInt8 := x.userinfo.elim [] (· ++ bytes "@")
def portText : List UInt8 := x.port.elim [] (bytes ":" ++ ·)
def queryText : List UInt8 := x.query.elim [] (bytes "?" ++ ·)
def fragmentText : List UInt8 := x.fragment.elim [] (bytes "#" ++ ·)

/-- `scheme "://" [userinfo "@"] host [":" port] path-abempty ["?" query] ["#" fragment]`. -/
def text : List UInt8 :=
  x.scheme ++ (bytes "://" ++ (x.lead ++ (x.host ++ (x.portText ++
    (x.path ++ (x.queryText ++ x.fragmentText))))))

/-- The actions on each part, from its place on. -/
def leadActions (p : ℕ) : List (UriAction × ℕ) :=
  x.userinfo.elim [] fun u => (.markh, p) :: (colonActions p u ++ [(.saveUserinfo, p + u.length)])

def portActions (p : ℕ) : List (UriAction × ℕ) :=
  x.port.elim [] fun d => (if x.host = [] then [(.markh, p)] else []) ++
    ((.saveHost, p) :: mark .markh (p + 1) d)

/-- The end of the authority is where the path starts. The machine keeps the first of two equal
actions: if the last part of the authority is empty, the start of the path is not recorded behind it. -/
def turn : List UriAction :=
  let closing := if x.port.isSome then .savePort else .saveHost
  if x.port.getD x.host = [] then [.markh, closing] else [closing, .markh]

def pathActions (p : ℕ) : List (UriAction × ℕ) :=
  x.turn.map (fun a => (a, p)) ++ [(.savePath, p + x.path.length)]

/-- The actions on a query or a fragment. -/
def optionalActions (a : UriAction) (w : Option (List UInt8)) (p : ℕ) : List (UriAction × ℕ) :=
  w.elim [] fun w => [(.marku, p + 1), (a, p + 1 + w.length)]

def queryActions (p : ℕ) : List (UriAction × ℕ) := optionalActions .saveQuery x.query p

def fragmentActions (p : ℕ) : List (UriAction × ℕ) := optionalActions .saveFragment x.fragment p

end Parts

section Tail

variable {w : List UInt8} (x : Parts)

theorem passes_piece {C : Rule → Rule} {e : Rule} {n m : ℕ} {a a' : UriAction} (hC : Frame C)
    (hplain : e.plain = true) (hcalm : (leave m a' (enter n a e)).calm = true)
    (hinside : ∀ b ∈ w, (C eps).deriv b = []) (hw : e.accepts w = true) (p : ℕ) :
    Passes C (leave m a' (enter n a e)) [] p w (mark a p w) := by
  have haccepts : (leave m a' (enter n a e)).accepts w = true := by
    rw [accepts_leave, accepts_enter]
    exact hw
  cases w with
  | nil => exact passes_nil _ _ _ _
  | cons b w =>
    rw [List.forall_mem_cons] at hinside
    have hacts (u : List UInt8) (c : UInt8) (y : ℕ × UriAction) :
        y ∈ (leave m a' (enter n a e)).actsAt u c ↔ u = [] ∧ e.deriv c ≠ [] ∧ y = (n, a) := by
      rw [mem_actsAt_leave, mem_actsAt_enter, actsAt_of_plain hplain]
      simp
    have hfirst : ∀ y, y ∈ (leave m a' (enter n a e)).actsAt [] b ↔ y ∈ [(n, a)] := by
      intro y
      rw [hacts]
      simp [deriv_of_accepts hw]
    have hstart := passes_byte hC hcalm hinside.1 (reach_ne_nil (w := [b]) haccepts) hfirst
      (List.pairwise_singleton _ _) p
    refine hstart.append (passes_silent hC hcalm hinside.2 ?_ ?_ _)
    · exact reach_ne_nil (w := [b] ++ w) (u := []) (by simpa using haccepts)
    · intro u₁ c u₂ _
      rw [List.eq_nil_iff_forall_not_mem]
      intro y hy
      rw [hacts] at hy
      simp at hy

theorem finishes_fragment (hw : pieces.accepts w = true) (p : ℕ) :
    Finishes [fragmentAt] p w [(.marku, p), (.saveFragment, p + w.length)] := by
  have hpass : Passes (fun r => r) fragmentAt [] p w (mark .marku p w) :=
    passes_piece frame_id (Steps.calm steps).2.2 rfl (fun _ _ => rfl) hw p
  rcases hpass _ (within_singleton _ _) with ⟨s', hs', hsweep⟩
  have haccepts : fragmentAt.accepts w = true := by
    rw [fragmentAt, accepts_leave, accepts_enter]
    exact hw
  have hacts (y : ℕ × UriAction) :
      y ∈ fragmentAt.exitActs w ∨ (fragmentAt.accepts w = true ∧ y ∈ []) ↔
        y ∈ (if w = [] then [(12, .marku)] else []) ++ [(13, .saveFragment)] := by
    rw [fragmentAt, mem_exitActs_piece (Steps.calm steps).2.2, hw]
    by_cases hnil : w = [] <;> simp [hnil]
  have hend := Finishes.after hsweep (finishes_nil (hs'.final_eq frame_id rfl haccepts)
    (hs'.eofActions_eq frame_id rfl hacts (by split_ifs <;> simp)))
  rw [List.append_nil, pending_eq (by decide), ← List.append_nil [_], mark_append] at hend
  exact hend

/-- What follows a part of a URI: the end, or the sign of the fragment. -/
theorem finishes_hash {C : Rule → Rule} {e : Rule} {s : State UriAction} (hC : Frame C)
    (hs : Within C e w s) (haccepts : e.accepts w = true) (havoids : e.avoids (byte '#') = true)
    {as out : List (ℕ × UriAction)} (hnull : (C eps).null = some out)
    (hne : ((C eps).deriv (byte '#')).isEmpty = false)
    (hout : ∀ t ∈ (C eps).deriv (byte '#'),
      t.rest = fragmentAt ∧ t.acts = out ∧ t.low = [])
    (hacts : ∀ y, y ∈ e.exitActs w ∨ y ∈ out ↔ y ∈ as)
    (hsorted : as.Pairwise fun y z => y.1 < z.1) (p : ℕ) :
    Finishes s p x.fragmentText
      (((as.map Prod.snd).eraseDups.map fun a => (a, p)) ++ x.fragmentActions p) := by
  rw [Parts.fragmentText, Parts.fragmentActions]
  cases hf : x.fragment with
  | none =>
    have heof := hs.eofActions_eq hC hnull (by simpa [haccepts] using hacts) hsorted
    rw [Parts.optionalActions, Option.elim_none, Option.elim_none, List.append_nil]
    exact finishes_nil (hs.final_eq hC (by rw [hnull]; rfl) haccepts) heof
  | some f =>
    have hstep := hs.exit_acts hC haccepts havoids (by
      intro hnil
      rw [hnil] at hne
      cases hne) hout hacts hsorted
    have hfragment := x.isFragment f hf
    rw [fragment, leaving, entering, accepts_leave, accepts_enter] at hfragment
    exact .byte hstep (finishes_fragment hfragment (p + 1))

theorem finishes_query (hw : pieces.accepts w = true) (p : ℕ) :
    Finishes [queryFrame queryAt] p (w ++ x.fragmentText)
      ((.marku, p) :: (.saveQuery, p + w.length) :: x.fragmentActions (p + w.length)) := by
  have haccepts : queryAt.accepts w = true := by
    rw [queryAt, accepts_leave, accepts_enter]
    exact hw
  have hinside : ∀ b ∈ w, (queryFrame eps).deriv b = [] := by
    intro b hb
    apply (Steps.inside steps b (Cls.mem_members.mpr (mem_any b))).2.2
    intro hout
    rw [List.mem_singleton.mp hout] at hb
    exact not_mem_of_accepts (Steps.avoids steps).2.2 haccepts hb
  have hpass : Passes queryFrame queryAt [] p w (mark .marku p w) :=
    passes_piece frame_query (Steps.calm steps).2.2 rfl hinside hw p
  rcases hpass _ (within_singleton _ _) with ⟨s', hs', hsweep⟩
  have hacts (y : ℕ × UriAction) : y ∈ queryAt.exitActs w ∨ y ∈ [] ↔
      y ∈ (if w = [] then [(10, .marku)] else []) ++ [(11, .saveQuery)] := by
    rw [queryAt, mem_exitActs_piece (Steps.calm steps).2.2, hw]
    by_cases hnil : w = [] <;> simp [hnil]
  have hend := Finishes.after hsweep (finishes_hash x frame_query hs' haccepts
    (Steps.avoids steps).2.2 (Steps.null steps).2.2 (Steps.outTail steps).2 (Steps.hash steps).2.2
    hacts (by split_ifs <;> simp) _)
  rw [pending_eq (by decide), List.append_assoc, mark_append] at hend
  exact hend

/-- What follows the authority, if there is no path, or the path. -/
theorem finishes_tail {C : Rule → Rule} {e : Rule} {s : State UriAction} (hC : Frame C)
    (hs : Within C e w s) (haccepts : e.accepts w = true)
    (havoids : ∀ c ∈ bytes "?#", e.avoids c = true)
    {as out : List (ℕ × UriAction)} (hnull : (C eps).null = some out)
    (hne : ∀ c ∈ bytes "?#", ((C eps).deriv c).isEmpty = false)
    (hquestion : ∀ t ∈ (C eps).deriv (byte '?'),
      t.rest = queryFrame queryAt ∧ t.acts = out ∧ t.low = [])
    (hhash : ∀ t ∈ (C eps).deriv (byte '#'), t.rest = fragmentAt ∧ t.acts = out ∧ t.low = [])
    (hacts : ∀ y, y ∈ e.exitActs w ∨ y ∈ out ↔ y ∈ as)
    (hsorted : as.Pairwise fun y z => y.1 < z.1) (p : ℕ) :
    Finishes s p (x.queryText ++ x.fragmentText)
      (((as.map Prod.snd).eraseDups.map fun a => (a, p)) ++
        (x.queryActions p ++ x.fragmentActions (p + x.queryText.length))) := by
  have hmem : byte '?' ∈ bytes "?#" ∧ byte '#' ∈ bytes "?#" := by decide
  rw [Parts.queryText, Parts.queryActions]
  cases hq : x.query with
  | none =>
    exact finishes_hash x hC hs haccepts (havoids _ hmem.2) hnull (hne _ hmem.2) hhash hacts
      hsorted p
  | some q =>
    have hstep := hs.exit_acts hC haccepts (havoids _ hmem.1) (by
      intro hnil
      have hempty := hne _ hmem.1
      rw [hnil] at hempty
      cases hempty) hquestion hacts hsorted
    have hquery := x.isQuery q hq
    rw [query, leaving, entering, accepts_leave, accepts_enter] at hquery
    have hrest := Finishes.byte hstep (finishes_query x hquery (p + 1))
    have hlength : p + (bytes "?" ++ q).length = p + 1 + q.length := by
      rw [List.length_append, ← Nat.add_assoc]
      rfl
    rw [Parts.optionalActions, Option.elim_some, Option.elim_some, hlength]
    exact hrest

end Tail

section Whole

variable (x : Parts)

theorem isLead_lead : IsLead x.lead := by
  rw [Parts.lead]
  cases hu : x.userinfo with
  | none => exact .inl rfl
  | some u => exact .inr ⟨u, rfl, x.isUserinfo u hu⟩

theorem passes_lead (p : ℕ) :
    Passes authorityFrame authorityAt [] p x.lead (x.leadActions p) := by
  rw [Parts.lead, Parts.leadActions]
  cases hu : x.userinfo with
  | none => exact passes_nil _ _ _ _
  | some u => exact passes_userinfo (x.isUserinfo u hu) p

theorem passes_portText (p : ℕ) :
    Passes authorityFrame authorityAt (x.lead ++ x.host) p x.portText (x.portActions p) := by
  rw [Parts.portText, Parts.portActions]
  cases hd : x.port with
  | none => exact passes_nil _ _ _ _
  | some d =>
    have hcolon := passes_colon (isLead_lead x) x.isHost (x.isPort d hd) p
    have hport := passes_port (isLead_lead x) x.isHost (x.isPort d hd) (p + 1)
    rw [← List.append_assoc] at hport
    have hboth := hcolon.append hport
    rw [List.append_assoc] at hboth
    exact hboth

/-- What is pending behind the authority. -/
def leaveActs : List (ℕ × UriAction) :=
  x.port.elim
    ((if x.lead ++ x.host = [] then [(2, .markh)] else []) ++
      ((if x.host = [] then [(4, .markh)] else []) ++ [(5, .saveHost)]))
    fun d => (if d = [] then [(6, .markh)] else []) ++ [(7, .savePort)]

/-- The start of the path behind it, and its end if it is empty. -/
theorem leaveActs_path {l : List (ℕ × UriAction)} (hl : l = [] ∨ l = [(9, .savePath)]) :
    ((leaveActs x ++ (8, .markh) :: l).Pairwise fun y z => y.1 < z.1) ∧
      ((leaveActs x ++ (8, .markh) :: l).map Prod.snd).eraseDups = x.turn ++ l.map Prod.snd := by
  rw [leaveActs, Parts.turn]
  cases x.port with
  | none =>
    by_cases hhost : x.host = []
    · by_cases hlead : x.lead = [] <;> rcases hl with rfl | rfl <;>
        simp [hhost, hlead, List.eraseDups_cons]
    · rcases hl with rfl | rfl <;> simp [hhost, List.eraseDups_cons]
  | some d => by_cases hd : d = [] <;> rcases hl with rfl | rfl <;> simp [hd, List.eraseDups_cons]

theorem accepts_hostText : hostPort.accepts (x.host ++ x.portText) = true := by
  rw [Parts.portText]
  cases hd : x.port with
  | none =>
    rw [Option.elim_none, List.append_nil]
    exact accepts_hostPort x.isHost
  | some d => exact accepts_hostPort_port x.isHost (x.isPort d hd)

theorem not_at_hostText : byte '@' ∉ x.host ++ x.portText :=
  not_mem_of_accepts (Steps.host steps).2.1 (accepts_hostText x)

theorem mem_exitActs_hostText {y : ℕ × UriAction} :
    y ∈ authorityAt.exitActs (x.lead ++ (x.host ++ x.portText)) ↔ y ∈ leaveActs x := by
  rw [mem_exitActs_authority (isLead_lead x) (not_at_hostText x), mem_exitActs_hostPort, leaveActs,
    Parts.portText]
  cases hd : x.port with
  | none =>
    have hlong : ¬∃ h d, x.host = h ++ byte ':' :: d ∧ host.accepts h = true ∧
        port.accepts d = true ∧ ((d = [] ∧ y = (6, .markh)) ∨ y = (7, .savePort)) := by
      rintro ⟨h, d, heq, hh, -, -⟩
      have hlong := x.isHost
      rw [heq] at hlong
      exact absurd hlong (not_host_longer hh)
    simp only [Option.elim_none, List.append_nil, x.isHost, true_and, hlong, or_false]
    by_cases hhost : x.host = []
    · by_cases hlead : x.lead = [] <;> simp [hhost, hlead]
    · simp [hhost]
  | some d =>
    have hd' := x.isPort d hd
    have hunique {h d' : List UInt8} (heq : x.host ++ byte ':' :: d = h ++ byte ':' :: d')
        (hh : host.accepts h = true) : d' = d := by
      rcases List.append_eq_append_iff.mp heq with ⟨l, hl, hrest⟩ | ⟨l, hl, hrest⟩
      · cases l with
        | nil => exact (List.cons.inj hrest).2.symm
        | cons c l =>
          rw [List.cons_append, List.cons.injEq] at hrest
          rw [hl, ← hrest.1] at hh
          exact absurd hh (not_host_longer x.isHost)
      · cases l with
        | nil => exact (List.cons.inj hrest).2
        | cons c l =>
          rw [List.cons_append, List.cons.injEq] at hrest
          have hhost := x.isHost
          rw [hl, ← hrest.1] at hhost
          exact absurd hhost (not_host_longer hh)
    have hiff : (∃ h d', x.host ++ bytes ":" ++ d = h ++ byte ':' :: d' ∧ host.accepts h = true ∧
        port.accepts d' = true ∧ ((d' = [] ∧ y = (6, .markh)) ∨ y = (7, .savePort))) ↔
        (d = [] ∧ y = (6, .markh)) ∨ y = (7, .savePort) := by
      rw [List.append_assoc]
      constructor
      · rintro ⟨h, d', heq, hh, -, hy⟩
        rwa [hunique heq hh] at hy
      · intro hy
        exact ⟨x.host, d, rfl, x.isHost, hd', hy⟩
    have hlong : ¬host.accepts (x.host ++ (bytes ":" ++ d)) = true := not_host_longer x.isHost
    rw [List.append_assoc] at hiff
    simp only [Option.elim_some, hiff, hlong]
    by_cases hnil : d = [] <;> simp [hnil, bytes]

/-- A path, from behind its first byte. -/
theorem finishes_path {r : List UInt8} (hr : pathRest.accepts r = true) (p : ℕ) :
    Finishes [pathFrame pathRest] p (r ++ (x.queryText ++ x.fragmentText))
      ((.savePath, p + r.length) :: (x.queryActions (p + r.length) ++
        x.fragmentActions (p + r.length + x.queryText.length))) := by
  have hinside : ∀ b ∈ r, (pathFrame eps).deriv b = [] := by
    intro b hb
    apply (Steps.inside steps b (Cls.mem_members.mpr (mem_any b))).2.1
    intro hout
    exact not_mem_of_accepts ((Steps.avoids steps).2.1 b hout) hr hb
  have hcalm : pathRest.calm = true := rfl
  have hpass : Passes pathFrame pathRest [] p r [] := by
    apply passes_silent frame_path hcalm hinside
    · exact reach_ne_nil (w := [] ++ r) (u := []) (by simpa using hr)
    · intro u₁ b u₂ _
      exact actsAt_of_plain (Steps.calm steps).2.1
  rcases hpass _ (within_singleton _ _) with ⟨s', hs', hsweep⟩
  have hacts (y : ℕ × UriAction) :
      y ∈ pathRest.exitActs r ∨ y ∈ [(9, .savePath)] ↔ y ∈ [(9, .savePath)] := by
    rw [exitActs_of_plain (Steps.calm steps).2.1]
    simp
  exact .after hsweep (finishes_tail x frame_path hs' hr (Steps.avoids steps).2.1
    (Steps.null steps).2.1 (Steps.outTail steps).1 (Steps.question steps).2 (Steps.hash steps).2.1
    hacts (List.pairwise_singleton _ _) _)

theorem path_cases (h : pathAbempty.accepts x.path = true) :
    x.path = [] ∨ ∃ r, x.path = byte '/' :: r ∧ pathRest.accepts r = true := by
  cases hpath : x.path with
  | nil => exact .inl rfl
  | cons b r =>
    rw [hpath] at h
    have hb : b = byte '/' := by
      by_contra hne
      have hempty := (Steps.path steps).2 b (Cls.mem_members.mpr (mem_any b)) hne
      exact deriv_of_accepts h (List.isEmpty_iff.mp hempty)
    rw [hb, accepts, List.any_eq_true] at h
    rcases h with ⟨t, ht, hrest⟩
    have hall := List.all_eq_true.mp (Steps.path steps).1 t ht
    rw [decide_eq_true_eq.mp hall] at hrest
    exact .inr ⟨r, by rw [hb], hrest⟩

/-- From the authority to the end. -/
theorem finishes_behind {s : State UriAction}
    (hs : Within authorityFrame authorityAt (x.lead ++ (x.host ++ x.portText)) s) (p : ℕ) :
    Finishes s p (x.path ++ (x.queryText ++ x.fragmentText))
      (x.pathActions p ++ (x.queryActions (p + x.path.length) ++
        x.fragmentActions (p + x.path.length + x.queryText.length))) := by
  have haccepts := accepts_authority (isLead_lead x) (accepts_hostText x)
  have hout (c : UInt8) (hc : c ∈ bytes "?#") : c ∈ bytes "/?#" := List.mem_cons_of_mem _ hc
  have hslash : byte '/' ∈ bytes "/?#" := List.mem_cons_self
  have hacts (l : List (ℕ × UriAction)) (y : ℕ × UriAction) :
      y ∈ authorityAt.exitActs (x.lead ++ (x.host ++ x.portText)) ∨ y ∈ l ↔ y ∈ leaveActs x ++ l := by
    rw [mem_exitActs_hostText, List.mem_append]
  rcases path_cases x x.isPath with hpath | ⟨r, hpath, hr⟩
  · have hend := finishes_tail x frame_authority hs haccepts
      (fun c hc => (Steps.avoids steps).1 c (hout c hc)) (Steps.null steps).1
      (fun c hc => Steps.outAuthority steps c (hout c hc)) (Steps.question steps).1
      (Steps.hash steps).1
      (hacts _) (leaveActs_path x (.inr rfl)).1 p
    have hactions : (((leaveActs x ++ [(8, UriAction.markh), (9, .savePath)]).map
        Prod.snd).eraseDups.map fun a => (a, p)) = x.pathActions p := by
      rw [(leaveActs_path x (.inr rfl)).2, Parts.pathActions, hpath, List.map_append]
      rfl
    rw [hactions] at hend
    rw [hpath]
    exact hend
  · have hne : (authorityFrame eps).deriv (byte '/') ≠ [] := by
      intro hnil
      have hempty := Steps.outAuthority steps _ hslash
      rw [hnil] at hempty
      cases hempty
    have hstep := hs.exit_acts frame_authority haccepts ((Steps.avoids steps).1 _ hslash) hne
      (Steps.slash steps)
      (hacts _) (leaveActs_path x (.inl rfl)).1
    rw [(leaveActs_path x (.inl rfl)).2, List.map_nil, List.append_nil] at hstep
    have hend := Finishes.byte hstep (finishes_path x hr (p + 1))
    have hplace : p + x.path.length = p + 1 + r.length := by
      rw [hpath, List.length_cons]
      omega
    rw [Parts.pathActions, hplace, hpath, List.append_assoc]
    exact hend

/-- The places of the parts. -/
def hostPlace : ℕ := x.scheme.length + 3 + x.lead.length
def portPlace : ℕ := hostPlace x + x.host.length
def pathPlace : ℕ := portPlace x + x.portText.length
def queryPlace : ℕ := pathPlace x + x.path.length
def fragmentPlace : ℕ := queryPlace x + x.queryText.length

/-- All actions on the text of a URI. -/
def actions : List (UriAction × ℕ) :=
  [(.marku, 0), (.saveScheme, x.scheme.length)] ++ (x.leadActions (x.scheme.length + 3) ++
    (mark .markh (hostPlace x) x.host ++ (x.portActions (portPlace x) ++
      (x.pathActions (pathPlace x) ++ (x.queryActions (queryPlace x) ++
        x.fragmentActions (fragmentPlace x))))))

theorem sweeps_scheme : Sweeps (start main) 0 (x.scheme ++ bytes "://")
    [(.marku, 0), (.saveScheme, x.scheme.length)] [authorityFrame authorityAt] := by
  have hscheme := x.isScheme
  rw [scheme, leaving, entering, accepts_leave, accepts_enter] at hscheme
  rcases accepts_seq.mp hscheme with ⟨_, r, heq, hfirst, hr⟩
  rcases accepts_cls.mp hfirst with ⟨b, hb, rfl⟩
  have hloop : ∀ c ∈ r, step schemeState c = some (schemeState, []) := by
    intro c hc
    apply Steps.scheme steps c
    rcases accepts_star.mp hr with ⟨ws, rfl, hws⟩
    rcases List.mem_flatten.mp hc with ⟨u, hu, hcu⟩
    have htoken := (hws u hu).1
    simp only [Grammar.anyOf, accepts_alt, Bool.or_eq_true, one, accepts_cls] at htoken
    rw [Cls.mem_members]
    rcases htoken with ⟨d, hd, rfl⟩ | ⟨d, hd, rfl⟩ | ⟨d, hd, rfl⟩ | ⟨d, hd, rfl⟩ | ⟨d, hd, rfl⟩ <;>
      rw [List.mem_singleton.mp hcu] <;> simp_all [schemeCls, Cls.mem, Grammar.oneOf]
  have hword : Sweeps schemeState 1 r [] schemeState := by
    have hall : sweep (fun _ => false) schemeState 1 (r ++ []) = _ := sweep_loop hloop
    rw [List.append_nil] at hall
    exact hall
  have hbyte : Sweeps (start main) 0 [b] [(.marku, 0)] schemeState :=
    sweeps_byte (Steps.first steps b (Cls.mem_members.mpr hb))
  have hname : Sweeps (start main) 0 x.scheme [(.marku, 0)] schemeState := by
    rw [heq]
    exact hbyte.append hword
  apply hname.append
  rw [Nat.zero_add]
  have hshift : sweep (fun _ => false) schemeState (x.scheme.length + 0) (bytes "://") = _ :=
    sweep_shift _ _ _ _
  rw [Steps.authority steps, Nat.add_zero] at hshift
  exact hshift

theorem finishes_text : Finishes (start main) 0 x.text (actions x) := by
  have hlength : 0 + (x.scheme ++ bytes "://").length = x.scheme.length + 3 := by
    rw [Nat.zero_add, List.length_append]
    rfl
  have hplace : x.scheme.length + 3 + (x.lead ++ x.host ++ x.portText).length = pathPlace x := by
    rw [List.length_append, List.length_append, pathPlace, portPlace, hostPlace]
    omega
  have hpass := ((passes_lead x (x.scheme.length + 3)).append
    (passes_host (isLead_lead x) x.isHost (hostPlace x))).append (by
      rw [List.length_append, ← Nat.add_assoc]
      exact passes_portText x (portPlace x))
  rcases hpass _ (within_singleton _ _) with ⟨s', hs', hsweep⟩
  rw [List.nil_append, List.append_assoc] at hs'
  have hauthority := Finishes.after hsweep (by
    rw [hplace]
    exact finishes_behind x hs' (pathPlace x))
  have hend := Finishes.after (sweeps_scheme x) (by
    rw [hlength]
    exact hauthority)
  simp only [List.append_assoc] at hend
  exact hend

end Whole

end Sylar.Http.UriText
