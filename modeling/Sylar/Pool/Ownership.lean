import Sylar.Pool.Moves

/-! # Who owns a connection

The places where a connection can be are counted: in the list of idle ones, in the hands of a call
and in those of a borrower. Every live connection is in one place, a deleted one in none; the
counter `m_total` and the counts of requests follow from where connections are.
-/
namespace Sylar.Pool
open Memory

/-- How often a call holds the connection `p`. -/
def Stage.holds (p : ℕ) : Stage → ℕ
  | .purging ptr todo _ => ptr.toList.count p + todo.count p
  | .counting q | .releasing q | .discarding q | .returning q => [q].count p
  | _ => 0

/-- How often a call holds `p` so that it may be handed out later. -/
def Stage.ready (p : ℕ) : Stage → ℕ
  | .purging ptr _ _ => ptr.toList.count p
  | .counting q | .returning q => [q].count p
  | _ => 0

/-- How often a call holds `p` whose request is not counted yet. -/
def Stage.out (p : ℕ) : Stage → ℕ
  | .releasing q => [q].count p
  | _ => 0

/-- The connections that a call has deleted and not yet subtracted. -/
def Stage.owed : Stage → ℕ
  | .purging _ todo size => size - todo.length
  | .uncounting => 1
  | _ => 0

/-- The connections that a call has made and not yet counted. -/
def Stage.uncounted : Stage → List ℕ
  | .counting p => [p]
  | _ => []

/-- A call has deleted at most what it found. -/
def Stage.Fits : Stage → Prop
  | .purging _ todo size => todo.length ≤ size
  | _ => True

namespace State

def alive (s : State) (p : ℕ) : ℕ := if (s.heap.get p).isSome then 1 else 0

/-- The number of places where a connection is. -/
def places (s : State) (p : ℕ) : ℕ :=
  s.conns.count p + tally (Stage.holds p) s.calls + s.held.count p

def owed (s : State) : ℕ := tally Stage.owed s.calls

def uncounted (s : State) : List ℕ := s.calls.flatMap Stage.uncounted

def live (s : State) : ℕ := s.heap.size

end State

/-- How often a connection may be handed out. -/
def Limits.handouts (lim : Limits) : ℕ := max 1 lim.maxRequest.toNat

/-- What the pool knows of one connection: in how many places it is and how often it was handed
out. -/
structure Account where
  conn : Option Conn
  idle : ℕ
  holds : ℕ
  ready : ℕ
  out : ℕ
  held : ℕ
  handed : ℕ

def State.account (s : State) (p : ℕ) : Account :=
  ⟨s.heap.get p, s.conns.count p, tally (Stage.holds p) s.calls, tally (Stage.ready p) s.calls,
    tally (Stage.out p) s.calls, s.held.count p, s.handouts.count p⟩

/-- A live connection is in one place, another one in none; it has been handed out once for each
counted request and once more while it is out, and is kept for reuse only within the limit. -/
structure Account.Sound (lim : Limits) (x : Account) : Prop where
  places : x.idle + x.holds + x.held = if x.conn.isSome then 1 else 0
  requests : ∀ c, x.conn = some c → x.handed = c.request.toNat + (x.out + x.held)
  again : ∀ c, x.conn = some c → 0 < x.idle + x.ready → c.request.toNat + 1 ≤ lim.handouts
  handed : x.handed ≤ lim.handouts

structure Owned (lim : Limits) (s : State) : Prop where
  sound : ∀ p, (s.account p).Sound lim
  fits : ∀ stage ∈ s.calls, stage.Fits
  unborn : ∀ p, s.heap.brk ≤ p → s.handouts.count p = 0

namespace Account.Sound

variable {lim : Limits} {x y : Account}

/-- A step that leaves the requests of the connection. -/
theorem same (h : x.Sound lim) (hconn : y.conn.map Conn.request = x.conn.map Conn.request)
    (hplaces : y.idle + y.holds + y.held = x.idle + x.holds + x.held)
    (hout : y.handed + (x.out + x.held) = x.handed + (y.out + y.held))
    (hagain : 0 < y.idle + y.ready → 0 < x.idle + x.ready) (hhanded : y.handed ≤ lim.handouts) :
    y.Sound lim := by
  have hback (d : Conn) (hd : y.conn = some d) : ∃ c, x.conn = some c ∧ c.request = d.request := by
    rw [hd, Option.map_some] at hconn
    exact Option.map_eq_some_iff.mp hconn.symm
  constructor
  · rw [hplaces, h.places, ← Option.isSome_map (f := Conn.request), ← hconn, Option.isSome_map]
  · intro d hd
    obtain ⟨c, hc, hrequest⟩ := hback d hd
    have hold := h.requests c hc
    rw [← hrequest]
    omega
  · intro d hd hpos
    obtain ⟨c, hc, hrequest⟩ := hback d hd
    rw [← hrequest]
    exact h.again c hc (hagain hpos)
  · exact hhanded

theorem places_of_some (h : x.Sound lim) {c : Conn} (hc : x.conn = some c) :
    x.idle + x.holds + x.held = 1 := by
  rw [h.places, hc]
  rfl

theorem places_of_none (h : x.Sound lim) (hc : x.conn = none) : x.idle + x.holds + x.held = 0 := by
  rw [h.places, hc]
  rfl

theorem of_none (hconn : x.conn = none) (hplaces : x.idle + x.holds + x.held = 0)
    (hhanded : x.handed ≤ lim.handouts) : x.Sound lim where
  places := by
    rw [hplaces, hconn]
    rfl
  requests := by simp [hconn]
  again := by simp [hconn]
  handed := hhanded

theorem of_some {c : Conn} (hconn : x.conn = some c) (hplaces : x.idle + x.holds + x.held = 1)
    (hrequests : x.handed = c.request.toNat + (x.out + x.held))
    (hagain : 0 < x.idle + x.ready → c.request.toNat + 1 ≤ lim.handouts)
    (hhanded : x.handed ≤ lim.handouts) : x.Sound lim where
  places := by
    rw [hplaces, hconn]
    rfl
  requests := by
    intro d hd
    cases hconn.symm.trans hd
    exact hrequests
  again := by
    intro d hd
    cases hconn.symm.trans hd
    exact hagain
  handed := hhanded

end Account.Sound

section Steps

variable {lim : Limits} {s s' : State} {i p q : ℕ} {a b : Stage} {c : Conn}

theorem Stage.ready_add_out_le (a : Stage) : a.ready p + a.out p ≤ a.holds p := by
  cases a <;> simp [Stage.ready, Stage.out, Stage.holds]

theorem alive_le : s.alive p ≤ 1 := by
  rw [State.alive]
  split <;> omega

theorem get_of_alive (h : s.alive p = 1) : ∃ c, s.heap.get p = some c := by
  rw [State.alive] at h
  split at h
  · exact Option.isSome_iff_exists.mp ‹_›
  · omega

theorem Owned.places (h : Owned lim s) (p : ℕ) : s.places p = s.alive p := (h.sound p).places

theorem Owned.alive_of_holds (h : Owned lim s) (hcall : s.calls[i]? = some a)
    (hp : 0 < a.holds p) : s.alive p = 1 ∧ a.holds p = 1 ∧ s.conns.count p = 0 ∧
      s.held.count p = 0 ∧ tally (Stage.holds p) s.calls = 1 := by
  have hle : a.holds p ≤ tally (Stage.holds p) s.calls := le_tally hcall
  have hplaces := h.places p
  have hone : s.alive p ≤ 1 := alive_le
  rw [State.places] at hplaces
  omega

theorem tally_ready_add_out_le :
    tally (Stage.ready p) s.calls + tally (Stage.out p) s.calls ≤
      tally (Stage.holds p) s.calls := by
  induction s.calls with
  | nil => simp
  | cons a l ih =>
    have := Stage.ready_add_out_le (p := p) a
    simp only [tally_cons]
    omega

theorem tallies_set (hcall : s.calls[i]? = some a) (p : ℕ) :
    tally (Stage.holds p) (s.calls.set i b) + a.holds p =
        tally (Stage.holds p) s.calls + b.holds p ∧
      tally (Stage.ready p) (s.calls.set i b) + a.ready p =
        tally (Stage.ready p) s.calls + b.ready p ∧
      tally (Stage.out p) (s.calls.set i b) + a.out p = tally (Stage.out p) s.calls + b.out p :=
  ⟨tally_set hcall, tally_set hcall, tally_set hcall⟩

theorem fits_set (h : Owned lim s) (hb : b.Fits) : ∀ stage ∈ s.calls.set i b, stage.Fits := by
  intro stage hstage
  rcases List.mem_or_eq_of_mem_set hstage with hold | rfl
  · exact h.fits stage hold
  · exact hb

/-- Connections move between the list and a call. -/
theorem Owned.transfer (h : Owned lim s) (hcall : s.calls[i]? = some a) (hb : b.Fits)
    {conns : List ℕ} {total : UInt32} {takes : List Take}
    (hholds : ∀ p, conns.count p + b.holds p = s.conns.count p + a.holds p)
    (hready : ∀ p, conns.count p + b.ready p ≤ s.conns.count p + a.ready p)
    (hout : ∀ p, b.out p = a.out p) :
    Owned lim { s with
      conns := conns, total := total, takes := takes, calls := s.calls.set i b } where
  sound p := by
    obtain ⟨hholds', hready', hout'⟩ := tallies_set (b := b) hcall p
    have := hholds p
    have := hready p
    have := hout p
    refine (h.sound p).same rfl ?_ ?_ ?_ (h.sound p).handed
    all_goals
      dsimp only [State.account]
      omega
  fits := fits_set h hb
  unborn := h.unborn

theorem Owned.free (h : Owned lim s) (hcall : s.calls[i]? = some a) (hb : b.Fits)
    (hget : s.heap.get p = some c) (hholds : ∀ q, a.holds q = b.holds q + [p].count q)
    (hready : ∀ q, b.ready q ≤ a.ready q) (hout : ∀ q, b.out q = a.out q) :
    Owned lim ((s.free p).goto i b) where
  sound q := by
    obtain ⟨hholds', hready', hout'⟩ := tallies_set (b := b) hcall q
    have hstage := hholds q
    have := hready q
    have := hout q
    by_cases hqp : q = p
    · subst hqp
      have hnone : (s.heap.free q).get q = none := Heap.get_free_self _ _
      have hplaces := (h.sound q).places_of_some hget
      rw [List.count_singleton_self] at hstage
      refine .of_none hnone ?_ (h.sound q).handed
      dsimp only [State.account, State.free, State.goto] at hplaces ⊢
      omega
    · rw [List.count_singleton, if_neg (by simpa using Ne.symm hqp)] at hstage
      refine (h.sound q).same ?_ ?_ ?_ ?_ (h.sound q).handed
      · exact congrArg _ (Heap.get_free_of_ne _ hqp)
      all_goals
        dsimp only [State.account, State.free, State.goto]
        omega
  fits := fits_set (s := s) h hb
  unborn := h.unborn

/-- A call hands the connection that it holds to a borrower. -/
theorem Owned.handOut (h : Owned lim s) (hcall : s.calls[i]? = some a)
    (hholds : ∀ q, a.holds q = [p].count q) (hready : ∀ q, a.ready q = [p].count q)
    (hout : ∀ q, a.out q = 0) (total : UInt32) :
    Owned lim ((s.putTotal total).handOut i p) := by
  have hself : a.holds p = 1 := by rw [hholds, List.count_singleton_self]
  rcases h.alive_of_holds hcall (p := p) (by omega) with ⟨halive, -, hconns, hheld, htally⟩
  rcases get_of_alive halive with ⟨c, hget⟩
  have hcons (q : ℕ) (l : List ℕ) : (p :: l).count q = l.count q + [p].count q := by
    simp [List.count_cons]
  refine ⟨fun q => ?_, fits_set (s := s) h trivial, fun q hq => ?_⟩
  · obtain ⟨hholds', hready', hout'⟩ := tallies_set (b := .finished (some p)) hcall q
    rw [hholds] at hholds'
    rw [hready] at hready'
    rw [hout] at hout'
    dsimp only [Stage.holds, Stage.ready, Stage.out] at hholds' hready' hout'
    have hhanded : s.handouts.count q + [p].count q ≤ lim.handouts := by
      by_cases hqp : q = p
      · subst hqp
        have hweights := tally_ready_add_out_le (s := s) (p := q)
        rw [List.count_singleton_self] at hready' ⊢
        have hreq := (h.sound q).requests c hget
        have hagain := (h.sound q).again c hget
        dsimp only [State.account] at hreq hagain
        omega
      · rw [List.count_singleton, if_neg (by simpa using Ne.symm hqp)]
        exact (h.sound q).handed
    refine (h.sound q).same rfl ?_ ?_ ?_ ?_
    all_goals
      simp only [State.account, State.handOut, State.putTotal, hcons q s.handouts, hcons q s.held]
      omega
  · have hlt : p < s.heap.brk := Heap.lt_brk hget
    change s.heap.brk ≤ q at hq
    change (p :: s.handouts).count q = 0
    rw [hcons, List.count_singleton, if_neg (by simp; omega)]
    exact h.unborn q hq

theorem Owned.connect (h : Owned lim s) (hcall : s.calls[i]? = some .connecting) :
    Owned lim (s.alloc.goto i (.counting s.heap.brk)) := by
  have hdead : s.heap.get s.heap.brk = none := s.heap.fresh _ le_rfl
  refine ⟨fun q => ?_, fits_set (s := s) h trivial, fun q hq => ?_⟩
  · obtain ⟨hholds', hready', hout'⟩ := tallies_set (b := .counting s.heap.brk) hcall q
    dsimp only [Stage.holds, Stage.ready, Stage.out] at hholds' hready' hout'
    by_cases hqb : q = s.heap.brk
    · subst hqb
      have hnew : (s.heap.alloc ⟨s.clock, 0, true⟩).get s.heap.brk = some ⟨s.clock, 0, true⟩ :=
        Heap.get_alloc_self _ _
      have hplaces := (h.sound s.heap.brk).places_of_none hdead
      have hweights := tally_ready_add_out_le (s := s) (p := s.heap.brk)
      rw [List.count_singleton_self] at hholds'
      dsimp only [State.account] at hplaces
      refine .of_some hnew ?_ ?_ (fun _ => le_max_left 1 _) (h.sound _).handed
      · dsimp only [State.account, State.alloc, State.goto]
        omega
      · dsimp only [State.account, State.alloc, State.goto]
        rw [h.unborn _ le_rfl]
        change 0 = 0 + _
        omega
    · rw [List.count_singleton, if_neg (by simpa using Ne.symm hqb)] at hholds' hready'
      refine (h.sound q).same ?_ ?_ ?_ ?_ (h.sound q).handed
      · exact congrArg _ (Heap.get_set_of_ne _ hqb _)
      all_goals
        dsimp only [State.account, State.alloc, State.goto]
        omega
  · apply h.unborn q
    change max s.heap.brk (s.heap.brk + 1) ≤ q at hq
    omega

/-- The request of a connection that comes back is counted. -/
theorem Owned.requested (h : Owned lim s) (hcall : s.calls[i]? = some (.releasing p))
    (hget : s.heap.get p = some c) (hb : b.Fits) (hholds : ∀ q, b.holds q = [p].count q)
    (hready : ∀ q, b.ready q ≤ [p].count q) (hout : ∀ q, b.out q = 0)
    (hagain : 0 < b.ready p → (c.request + 1).toNat + 1 ≤ lim.handouts) :
    Owned lim ((s.putConn p { c with request := c.request + 1 }).goto i b) := by
  refine ⟨fun q => ?_, fits_set (s := s) h hb, fun q hq => ?_⟩
  · obtain ⟨hholds', hready', hout'⟩ := tallies_set (b := b) hcall q
    have := hready q
    rw [hholds, show (Stage.releasing p).holds q = [p].count q from rfl] at hholds'
    rw [show (Stage.releasing p).ready q = 0 from rfl] at hready'
    rw [hout, show (Stage.releasing p).out q = [p].count q from rfl] at hout'
    by_cases hqp : q = p
    · subst hqp
      have hnew : (s.heap.set q { c with request := c.request + 1 }).get q =
          some { c with request := c.request + 1 } := Heap.get_set_self _ _ _
      have hold := h.sound q
      have hplaces := hold.places_of_some hget
      have hreq := hold.requests c hget
      have hlimit := hold.handed
      have hweights := tally_ready_add_out_le (s := s) (p := q)
      rw [List.count_singleton_self] at hout' hholds'
      dsimp only [State.account] at hplaces hreq hlimit
      have hsucc : (c.request + 1).toNat = c.request.toNat + 1 := by
        have hbound := lim.maxRequest.toNat_lt
        rw [Limits.handouts] at hlimit
        rw [UInt64.toNat_add]
        change (c.request.toNat + 1) % 2 ^ 64 = _
        omega
      refine .of_some hnew ?_ ?_ (fun hpos => hagain ?_) hold.handed
      · dsimp only [State.account, State.putConn, State.goto]
        omega
      · dsimp only [State.account, State.putConn, State.goto]
        omega
      · dsimp only [State.account, State.putConn, State.goto] at hpos
        omega
    · rw [List.count_singleton, if_neg (by simpa using Ne.symm hqp)] at this hout' hholds'
      refine (h.sound q).same ?_ ?_ ?_ ?_ (h.sound q).handed
      · exact congrArg _ (Heap.get_set_of_ne _ hqp _)
      all_goals
        dsimp only [State.account, State.putConn, State.goto]
        omega
  · apply h.unborn q
    change max s.heap.brk (p + 1) ≤ q at hq
    omega

theorem Owned.disconnect (h : Owned lim s) (hget : s.heap.get p = some c) :
    Owned lim (s.putConn p { c with connected := false }) := by
  refine ⟨fun q => (h.sound q).same ?_ rfl rfl id (h.sound q).handed, h.fits, fun q hq => ?_⟩
  · change ((s.heap.set p { c with connected := false }).get q).map _ = (s.heap.get q).map _
    by_cases hqp : q = p
    · rw [hqp, Heap.get_set_self, hget]
      rfl
    · rw [Heap.get_set_of_ne _ hqp]
  · apply h.unborn q
    change max s.heap.brk (p + 1) ≤ q at hq
    omega

theorem fits_concat (h : Owned lim s) (hb : b.Fits) : ∀ stage ∈ s.calls ++ [b], stage.Fits := by
  intro stage hstage
  rcases List.mem_append.mp hstage with hold | hnew
  · exact h.fits stage hold
  · rw [List.mem_singleton.mp hnew]
    exact hb

theorem Owned.enter (h : Owned lim s) (now : UInt64) : Owned lim (s.begin (.entered now)) := by
  refine ⟨fun q => ?_, fits_concat h trivial, h.unborn⟩
  refine (h.sound q).same rfl ?_ ?_ ?_ (h.sound q).handed
  all_goals simp [State.account, State.begin, Stage.holds, Stage.ready, Stage.out]

/-- A borrower's connection goes to the call of its deleter. -/
theorem Owned.release (h : Owned lim s) (hp : p ∈ s.held) :
    Owned lim { s.begin (.releasing p) with held := s.held.erase p } := by
  refine ⟨fun q => ?_, fits_concat h trivial, h.unborn⟩
  have hcount : (s.held.erase p).count q + [p].count q = s.held.count q := by
    rw [(List.perm_cons_erase hp).count_eq q, List.count_singleton, List.count_cons]
  refine (h.sound q).same rfl ?_ ?_ ?_ (h.sound q).handed
  all_goals
    simp only [State.account, State.begin, tally_concat, Stage.holds, Stage.ready, Stage.out]
    omega

theorem Move.owned (h : Owned lim s) (hcall : s.calls[i]? = some a) (hmove : Move lim s i a s') :
    Owned lim s' := by
  cases hmove with
  | @take now ptr invalid rest hconns hfound =>
    apply h.transfer (b := .purging ptr invalid invalid.length) hcall
    · exact le_rfl
    · intro p
      change rest.count p + (ptr.toList.count p + invalid.count p) = s.conns.count p + 0
      rw [hconns, List.count_append, List.count_append]
      omega
    · intro p
      change rest.count p + ptr.toList.count p ≤ s.conns.count p + 0
      rw [hconns, List.count_append, List.count_append]
      omega
    · intro p
      rfl
  | @delete ptr p todo size c hget =>
    have hfits : todo.length + 1 ≤ size := h.fits _ (List.mem_of_getElem? hcall)
    apply h.free (b := .purging ptr todo size) hcall _ hget
    · intro q
      simp only [Stage.holds, List.count_cons, List.count_nil]
      omega
    · intro q
      exact le_rfl
    · intro q
      rfl
    · change todo.length ≤ size
      omega
  | reuse =>
    apply h.handOut hcall
    · intro q
      simp [Stage.holds]
    · intro q
      rfl
    · intro q
      rfl
  | miss =>
    apply h.transfer (b := .testing) hcall trivial
    · intro q
      simp [Stage.holds, State.putTotal]
    · intro q
      simp [Stage.ready, State.putTotal]
    · intro q
      rfl
  | full _ =>
    exact h.transfer (b := .finished none) hcall trivial (fun _ => rfl) (fun _ => le_rfl)
      (fun _ => rfl)
  | pass _ =>
    exact h.transfer (b := .connecting) hcall trivial (fun _ => rfl) (fun _ => le_rfl)
      (fun _ => rfl)
  | connect => exact h.connect hcall
  | fail =>
    exact h.transfer (b := .finished none) hcall trivial (fun _ => rfl) (fun _ => le_rfl)
      (fun _ => rfl)
  | count => exact h.handOut hcall (fun _ => rfl) (fun _ => rfl) (fun _ => rfl) _
  | @spend p c hget hspent =>
    apply h.requested (b := .discarding p) hcall hget trivial
    · intro q
      rfl
    · intro q
      exact Nat.zero_le _
    · intro q
      rfl
    · intro hpos
      exact absurd hpos (Nat.lt_irrefl 0)
  | @keep p c hget hspent =>
    apply h.requested (b := .returning p) hcall hget trivial
    · intro q
      rfl
    · intro q
      exact le_rfl
    · intro q
      rfl
    · intro _
      have hlt : (c.request + 1).toNat < lim.maxRequest.toNat := by
        rw [Spent, not_or, not_or, ge_iff_le, UInt64.le_iff_toNat_le] at hspent
        simpa using hspent.2.2
      rw [Limits.handouts]
      omega
  | discard hget =>
    apply h.free (b := .uncounting) hcall trivial hget
    · intro q
      simp [Stage.holds]
    · intro q
      exact le_rfl
    · intro q
      rfl
  | uncount =>
    exact h.transfer (b := .finished none) hcall trivial (fun _ => rfl) (fun _ => le_rfl)
      (fun _ => rfl)
  | putBack =>
    apply h.transfer (b := .finished none) hcall trivial
    · intro q
      simp [Stage.holds, State.putConns, List.count_append]
    · intro q
      simp [Stage.ready, State.putConns, List.count_append]
    · intro q
      rfl
  | rest => exact h

end Steps

end Sylar.Pool
