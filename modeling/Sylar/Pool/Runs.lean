import Sylar.Pool.Accounts

/-! # Runs of the pool

What holds after any interleaving of calls, and when the limit on the number of connections is
kept.
-/
namespace Sylar.Pool
open Memory

structure Inv (lim : Limits) (s : State) : Prop where
  owned : Owned lim s
  balanced : s.total = UInt32.ofNat s.counted
  young : s.Young lim

section Steps

variable {lim : Limits} {s s' : State} {act : Act} {i : ℕ} {stage : Stage}

theorem inv_init : Inv lim State.init where
  owned := by
    constructor
    · intro p
      refine ⟨rfl, ?_, ?_, Nat.zero_le _⟩
      · intro c hget
        cases hget
      · intro c hget
        cases hget
    · simp [State.init]
    · intro p _
      rfl
  balanced := rfl
  young := by
    intro t ht
    cases ht

theorem counted_begin (hstage : stage.owed = 0) (hnew : stage.uncounted = []) :
    (s.begin stage).counted = s.counted := by
  have howed : (s.begin stage).owed = s.owed := by
    rw [State.owed, State.begin, tally_concat, hstage]
    rfl
  have huncounted : (s.begin stage).uncounted.length = s.uncounted.length := by
    rw [length_uncounted, length_uncounted, State.begin, tally_concat, hnew]
    rfl
  rw [State.counted, State.counted, howed, huncounted]
  rfl

theorem step_inv (h : Inv lim s) (hrun : act.run lim s = .done () s') : Inv lim s' := by
  rw [Act.run, Command.state_bind_apply] at hrun
  cases act with
  | tick now =>
    cases hrun
    exact ⟨⟨h.owned.sound, h.owned.fits, h.owned.unborn⟩, h.balanced, h.young⟩
  | disconnect p =>
    cases hget : s.heap.get p with
    | none =>
      simp only [hget] at hrun
      cases hrun
      exact h
    | some c =>
      simp only [hget] at hrun
      cases hrun
      refine ⟨h.owned.disconnect hget, ?_, h.young⟩
      have hlive := Heap.size_set { c with connected := false } hget
      change s.total = UInt32.ofNat ((s.heap.set p _).size - s.uncounted.length + s.owed)
      rw [hlive]
      exact h.balanced
  | getConnection =>
    cases hrun
    refine ⟨h.owned.enter _, ?_, h.young⟩
    rw [counted_begin rfl rfl]
    exact h.balanced
  | release p =>
    simp only [Command.ite_apply] at hrun
    by_cases hp : p ∈ s.held
    · rw [if_pos hp] at hrun
      cases hrun
      refine ⟨h.owned.release hp, ?_, h.young⟩
      change s.total = UInt32.ofNat (s.begin (.releasing p)).counted
      rw [counted_begin rfl rfl]
      exact h.balanced
    · rw [if_neg hp] at hrun
      cases hrun
      exact h
  | step i ok =>
    cases hcall : s.calls[i]? with
    | none =>
      simp only [hcall] at hrun
      cases hrun
      exact h
    | some stage =>
      simp only [hcall] at hrun
      have hmove := run_move hrun
      have howned := hmove.owned h.owned hcall
      exact ⟨howned, hmove.balanced h.owned howned hcall h.balanced, hmove.young h.young⟩

theorem Owned.get_of_mem_conns (h : Owned lim s) {p : ℕ} (hp : p ∈ s.conns) :
    ∃ c, s.heap.get p = some c := by
  have hpos := List.count_pos_iff.mpr hp
  have hplaces := h.places p
  have hle := alive_le (s := s) (p := p)
  rw [State.places] at hplaces
  exact get_of_alive (by omega)

theorem delete_done {p : ℕ} {c : Conn} (h : s.heap.get p = some c) :
    delete p s = .done () (s.free p) := Command.bind_done (deref_done h) _

theorem Owned.stage_progress (h : Owned lim s) (hcall : s.calls[i]? = some stage) (ok : Bool) :
    ∃ s', stage.run lim i ok s = .done () s' := by
  have halive : ∀ p, 0 < stage.holds p → ∃ c, s.heap.get p = some c :=
    fun p hpos => get_of_alive (h.alive_of_holds hcall hpos).1
  cases stage with
  | entered now =>
    have hdone : ∃ r, scan lim now s.conns s = .done r s :=
      scan_done fun p hp => h.get_of_mem_conns hp
    rcases hdone with ⟨r, hscan⟩
    rw [Stage.run, take, Command.state_bind_apply, Command.bind_done hscan]
    exact ⟨_, rfl⟩
  | purging ptr todo size =>
    cases todo with
    | nil => cases ptr <;> exact ⟨_, rfl⟩
    | cons p todo =>
      have hpos : 0 < ptr.toList.count p + (p :: todo).count p := by
        rw [List.count_cons_self]
        omega
      rcases halive p hpos with ⟨c, hget⟩
      rw [Stage.run, Command.bind_done (delete_done hget)]
      exact ⟨_, rfl⟩
  | testing =>
    rw [Stage.run, Command.state_bind_apply, Command.ite_apply]
    split <;> exact ⟨_, rfl⟩
  | connecting => cases ok <;> exact ⟨_, rfl⟩
  | counting p => exact ⟨_, rfl⟩
  | releasing p =>
    rcases halive p (by simp [Stage.holds]) with ⟨c, hget⟩
    rw [Stage.run, Command.state_bind_apply, Command.bind_done (deref_done hget),
      Command.modify_bind_apply, Command.ite_apply]
    split <;> exact ⟨_, rfl⟩
  | discarding p =>
    rcases halive p (by simp [Stage.holds]) with ⟨c, hget⟩
    rw [Stage.run, Command.bind_done (delete_done hget)]
    exact ⟨_, rfl⟩
  | uncounting => exact ⟨_, rfl⟩
  | returning p => exact ⟨_, rfl⟩
  | finished r => exact ⟨_, rfl⟩

/-- No step uses a connection that is gone. -/
theorem Owned.progress (h : Owned lim s) (act : Act) : ∃ s', act.run lim s = .done () s' := by
  cases act with
  | tick now => exact ⟨_, rfl⟩
  | disconnect p =>
    cases hget : s.heap.get p <;> simp only [Act.run, Command.state_bind_apply, hget] <;>
      exact ⟨_, rfl⟩
  | getConnection => exact ⟨_, rfl⟩
  | release p =>
    simp only [Act.run, Command.state_bind_apply, Command.ite_apply]
    split <;> exact ⟨_, rfl⟩
  | step i ok =>
    simp only [Act.run, Command.state_bind_apply]
    cases hcall : s.calls[i]? with
    | none => exact ⟨_, rfl⟩
    | some stage => exact h.stage_progress hcall ok

end Steps

def State.Quiet (s : State) : Prop := ∀ stage ∈ s.calls, ∃ r, stage = .finished r

theorem State.Quiet.counted {s : State} (h : s.Quiet) : s.counted = s.live := by
  have howed : s.owed = 0 := by
    apply tally_eq_zero
    intro stage hstage
    rcases h stage hstage with ⟨r, rfl⟩
    rfl
  have huncounted : s.uncounted.length = 0 := by
    rw [length_uncounted]
    apply tally_eq_zero
    intro stage hstage
    rcases h stage hstage with ⟨r, rfl⟩
    rfl
  rw [State.counted, howed, huncounted]
  rfl

/-- After any interleaving of calls, releases, losses and clock readings: every live connection is in
one place and no other is in any; no step uses a deleted connection; `m_total` is, modulo `2^32`,
the number of live connections when no call is in progress, and otherwise that number corrected
by what the calls have made, deleted and not yet counted; a connection that was taken was
connected, and young by the clock reading of its call; none is handed out too often. -/
theorem pool_sound (lim : Limits) (s : State)
    (h : Reachable State.init (Act.run lim) (fun _ _ => True) s) :
    (∀ p, s.places p = if (s.heap.get p).isSome then 1 else 0) ∧
    (∀ act : Act, ∃ s', act.run lim s = .done () s') ∧
    (s.total = UInt32.ofNat s.counted ∧ s.uncounted.length ≤ s.live ∧
      (s.live + s.owed < 2 ^ 32 → s.total.toNat = s.counted)) ∧
    (s.Quiet → s.counted = s.live) ∧
    (∀ t ∈ s.takes, t.conn.connected = true ∧
      t.now.toNat < t.conn.createTime.toNat + lim.maxAliveTime.toNat) ∧
    ∀ p, s.handouts.count p ≤ max 1 lim.maxRequest.toNat := by
  have hinv : Inv lim s := h.invariant inv_init fun s act s' hs _ hrun => step_inv hs hrun
  refine ⟨hinv.owned.places, hinv.owned.progress, ⟨hinv.balanced, hinv.owned.uncounted_le, ?_⟩,
    State.Quiet.counted, hinv.young, fun p => (hinv.owned.sound p).handed⟩
  intro hfew
  rw [hinv.balanced]
  apply UInt32.toNat_ofNat_of_lt'
  change s.counted < 4294967296
  rw [State.counted]
  omega

/-- A pool of one connection that lives for ten milliseconds. -/
def smallPool : Limits := ⟨1, 10, 5⟩

/-- A connection is made, used and put back, and the next call reads the clock. -/
def reuseRun : List Act :=
  [.getConnection, .step 0 true, .step 0 true, .step 0 true, .step 0 true, .step 0 true,
    .release 0, .step 1 true, .step 1 true, .getConnection]

theorem pool_sound_reuse :
    ∃ s, runAll (Act.run smallPool) reuseRun State.init = .done () s ∧ s.conns = [0] ∧
      s.total = 1 ∧ (∀ p, s.handouts.count p ≤ 5) ∧ s.places 0 = 1 := by
  refine ⟨_, rfl, rfl, rfl, ?_⟩
  have h := pool_sound smallPool _ (Reachable.init.runAll (l := reuseRun) rfl)
  exact ⟨h.2.2.2.2.2, h.1 0⟩

/-- The call is held up at the lock, and then takes a connection that is too old by then. -/
theorem stale_connection_taken :
    ∃ s, runAll (Act.run smallPool) (reuseRun ++ [.tick 20, .step 2 true]) State.init =
      .done () s ∧ ∃ t ∈ s.takes, t.now = 0 ∧
        t.conn.createTime.toNat + smallPool.maxAliveTime.toNat ≤ t.clock.toNat := by
  refine ⟨_, rfl, ⟨0, ⟨0, 1, true⟩, 0, 20⟩, ?_, rfl, by decide⟩
  exact List.mem_cons_self

/-- A call has passed the test of the limit and not yet counted its connection. -/
def Stage.between : Stage → ℕ
  | .connecting | .counting _ => 1
  | _ => 0

def State.between (s : State) : ℕ := tally Stage.between s.calls

/-- A call passes the test of the limit only while no other one is between its test and its count. -/
def Alone (lim : Limits) (s : State) : Act → Prop
  | .step i _ => s.calls[i]? = some .testing → ¬s.total ≥ lim.maxSize → s.between = 0
  | _ => True

instance (lim : Limits) (s : State) : (act : Act) → Decidable (Alone lim s act)
  | .step i _ => inferInstanceAs (Decidable (s.calls[i]? = some .testing →
      ¬s.total ≥ lim.maxSize → s.between = 0))
  | .tick _ | .disconnect _ | .getConnection | .release _ => .isTrue trivial

section Limit

variable {lim : Limits} {s s' : State} {act : Act} {i : ℕ} {a b : Stage}

/-- What `m_total` counts, with the calls that are going to count. -/
def State.Bounded (lim : Limits) (s : State) : Prop := s.counted + s.between ≤ lim.maxSize.toNat

theorem Owned.live_le (h : Owned lim s) : s.live ≤ s.counted + s.between := by
  have hnew : s.uncounted.length ≤ s.between := by
    rw [length_uncounted]
    apply tally_le_tally
    intro a
    cases a <;> simp [Stage.uncounted, Stage.between]
  have hle := h.uncounted_le
  rw [State.counted]
  omega

/-- Nobody else is going to count: the test sees what `m_total` counts. -/
theorem Inv.counted_lt (h : Inv lim s) (hbound : s.Bounded lim) (hpass : ¬s.total ≥ lim.maxSize) :
    s.counted < lim.maxSize.toNat := by
  have hsmall : s.counted < 2 ^ 32 := by
    have hmax := lim.maxSize.toNat_lt
    rw [State.Bounded] at hbound
    omega
  rw [h.balanced, ge_iff_le, UInt32.le_iff_toNat_le, UInt32.toNat_ofNat_of_lt' hsmall] at hpass
  omega

theorem between_set (hcall : s.calls[i]? = some a) (hcalls : s'.calls = s.calls.set i b) :
    s'.between + a.between = s.between + b.between := by
  rw [State.between, State.between, hcalls]
  exact tally_set hcall

/-- A step other than passing the limit. -/
theorem bounded_set (h : Owned lim s) (h' : Owned lim s') (hcall : s.calls[i]? = some a)
    (hcalls : s'.calls = s.calls.set i b)
    (hlive : s'.live + b.owed + a.uncounted.length + b.between ≤
      s.live + a.owed + b.uncounted.length + a.between)
    (hbound : s.Bounded lim) : s'.Bounded lim := by
  have hcount := counted_set h h' hcall hcalls
  have hset := between_set hcall hcalls
  rw [State.Bounded] at hbound ⊢
  omega

theorem Move.bounded (h : Inv lim s) (h' : Owned lim s') (hcall : s.calls[i]? = some a)
    (hmove : Move lim s i a s') (halone : a = .testing → ¬s.total ≥ lim.maxSize → s.between = 0)
    (hbound : s.Bounded lim) : s'.Bounded lim := by
  cases hmove with
  | @take now ptr invalid rest hconns hfound =>
    apply bounded_set (b := .purging ptr invalid invalid.length) h.owned h' hcall rfl _ hbound
    change s.live + (invalid.length - invalid.length) + 0 + 0 ≤ _
    omega
  | @delete ptr p todo size c hget =>
    have hlive := Heap.size_free hget
    have hfits : todo.length + 1 ≤ size := h.owned.fits _ (List.mem_of_getElem? hcall)
    apply bounded_set (b := .purging ptr todo size) h.owned h' hcall rfl _ hbound
    change (s.heap.free p).size + (size - todo.length) + 0 + 0 ≤
      s.heap.size + (size - (todo.length + 1)) + 0 + 0
    omega
  | @reuse p size =>
    exact bounded_set (b := .finished (some p)) h.owned h' hcall rfl (Nat.le_add_right s.live _)
      hbound
  | miss =>
    exact bounded_set (b := .testing) h.owned h' hcall rfl (Nat.le_add_right s.live _) hbound
  | full _ => exact bounded_set (b := .finished none) h.owned h' hcall rfl le_rfl hbound
  | pass htotal =>
    -- the only step that takes room: the test finds it, since nobody else is about to use it
    have hcount := counted_set (b := .connecting) h.owned h' hcall rfl
    have hset : (s.goto i .connecting).between + _ = _ := between_set (b := .connecting) hcall rfl
    have hnone := halone rfl htotal
    have hlt := h.counted_lt hbound htotal
    change _ + s.live + 0 + 0 = _ + s.live + 0 + 0 at hcount
    change _ + 0 = _ + 1 at hset
    rw [State.Bounded]
    omega
  | connect =>
    apply bounded_set (b := .counting s.heap.brk) h.owned h' hcall rfl _ hbound
    exact Nat.add_le_add_right (s.heap.size_alloc ⟨s.clock, 0, true⟩).le 1
  | fail => exact bounded_set (b := .finished none) h.owned h' hcall rfl (Nat.le_succ s.live) hbound
  | @count p => exact bounded_set (b := .finished (some p)) h.owned h' hcall rfl le_rfl hbound
  | @spend p c hget hspent =>
    apply bounded_set (b := .discarding p) h.owned h' hcall rfl _ hbound
    exact (Heap.size_set { c with request := c.request + 1 } hget).le
  | @keep p c hget hspent =>
    apply bounded_set (b := .returning p) h.owned h' hcall rfl _ hbound
    exact (Heap.size_set { c with request := c.request + 1 } hget).le
  | @discard p c hget =>
    apply bounded_set (b := .uncounting) h.owned h' hcall rfl _ hbound
    exact (Heap.size_free hget).le
  | uncount =>
    exact bounded_set (b := .finished none) h.owned h' hcall rfl (Nat.le_succ s.live) hbound
  | putBack => exact bounded_set (b := .finished none) h.owned h' hcall rfl le_rfl hbound
  | rest => exact hbound

theorem bounded_begin (howed : b.owed = 0) (hnew : b.uncounted = []) (hbetween : b.between = 0)
    (hbound : s.Bounded lim) : (s.begin b).Bounded lim := by
  have hsame : (s.begin b).between = s.between := by
    rw [State.between, State.begin, tally_concat, hbetween]
    rfl
  rw [State.Bounded, counted_begin howed hnew, hsame]
  exact hbound

theorem step_bounded (h : Inv lim s) (hrun : act.run lim s = .done () s') (halone : Alone lim s act)
    (hbound : s.Bounded lim) : s'.Bounded lim := by
  have hnext := (step_inv h hrun).owned
  rw [Act.run, Command.state_bind_apply] at hrun
  cases act with
  | tick now =>
    cases hrun
    exact hbound
  | disconnect p =>
    cases hget : s.heap.get p with
    | none =>
      simp only [hget] at hrun
      cases hrun
      exact hbound
    | some c =>
      simp only [hget] at hrun
      cases hrun
      change (s.heap.set p _).size - s.uncounted.length + s.owed + s.between ≤ _
      rw [Heap.size_set _ hget]
      exact hbound
  | getConnection =>
    cases hrun
    exact bounded_begin rfl rfl rfl hbound
  | release p =>
    simp only [Command.ite_apply] at hrun
    by_cases hp : p ∈ s.held
    · rw [if_pos hp] at hrun
      cases hrun
      exact bounded_begin (b := .releasing p) rfl rfl rfl hbound
    · rw [if_neg hp] at hrun
      cases hrun
      exact hbound
  | step i ok =>
    cases hcall : s.calls[i]? with
    | none =>
      simp only [hcall] at hrun
      cases hrun
      exact hbound
    | some stage =>
      simp only [hcall] at hrun
      apply (run_move hrun).bounded h hnext hcall _ hbound
      rintro rfl
      exact halone hcall

end Limit

/-- The connections, idle and handed out, do not exceed the limit in any run in which a call passes
the test only while no other one is between its test and its count. -/
theorem pool_bounded (lim : Limits) (s : State)
    (h : Reachable State.init (Act.run lim) (Alone lim) s) :
    s.conns.length + s.held.length ≤ s.live ∧ s.live ≤ lim.maxSize.toNat := by
  have hinv : Inv lim s ∧ s.Bounded lim := by
    apply h.invariant (I := fun s => Inv lim s ∧ s.Bounded lim)
    · exact ⟨inv_init, Nat.zero_le _⟩
    · intro s act s' hs halone hrun
      exact ⟨step_inv hs.1 hrun, step_bounded hs.1 hrun halone hs.2⟩
  exact ⟨hinv.1.owned.idle_add_held_le, hinv.1.owned.live_le.trans hinv.2⟩

theorem pool_bounded_reuse :
    ∃ s, runAll (Act.run smallPool) reuseRun State.init = .done () s ∧ s.conns = [0] ∧
      s.live ≤ 1 := by
  have halone : Along (Alone smallPool) (Act.run smallPool) reuseRun State.init := by
    decide +kernel
  exact ⟨_, rfl, rfl, (pool_bounded smallPool _ (Reachable.init.along halone rfl)).2⟩

/-- Two calls pass the test before either has made its connection. -/
theorem pool_exceeded :
    ∃ s, runAll (Act.run smallPool)
      [.getConnection, .getConnection, .step 0 true, .step 0 true, .step 1 true, .step 1 true,
        .step 0 true, .step 1 true, .step 0 true, .step 1 true, .step 0 true, .step 1 true]
      State.init = .done () s ∧ s.held = [1, 0] ∧ smallPool.maxSize.toNat < s.held.length :=
  ⟨_, rfl, rfl, by decide⟩

end Sylar.Pool
