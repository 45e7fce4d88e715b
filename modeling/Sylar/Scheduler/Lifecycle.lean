import Sylar.Scheduler.Possession

/-! # The life of a fiber

The table of fiber states in the README, against a thread in `Scheduler::run`. Two places of the
loop leave the table, both about the idle fiber: it is resumed after its function has thrown, and
it is put on hold also where it has yielded to `READY`.
-/
namespace Sylar.Scheduler
open Memory

variable {T C : Type}

/-- The transitions of the table. -/
def documented : FiberState → FiberState → Bool
  | .init, .exec => true
  | .exec, .term => true
  | .exec, .except => true
  | .exec, .ready => true
  | .exec, .hold => true
  | .ready, .exec => true
  | .hold, .exec => true
  | .term, .init => true
  | .except, .init => true
  | _, _ => false

/-- The fiber that has ended is in one of the two final states. -/
def Sane (s : Scheduler T C) : Prop :=
  ∀ f, (s.fiberAt f).context = .ended → (s.getState f).Finished

/-- What a thread relies on, where it is, in the fiber of a branch. -/
def Pc.Expects (pc : Pc) (k : Kind) (st : FiberState) : Prop :=
  match pc with
  | .dispatch => k = .fiber → st ≠ .exec
  | .resume k' => k = k' →
      match k with
      | .fiber => st ≠ .exec ∧ ¬st.Finished
      | .callback => st = .init
      | .idle => st ≠ .term
  | .running k' => k = k' → st = .exec
  | .back k' => k = k' → st ≠ .init ∧ st ≠ .hold
  | _ => True

/-- The thread has switched to its idle fiber although that has ended. -/
def Stuck (t : T) (s : Scheduler T C) : Prop :=
  (s.worker t).pc = .running .idle ∧
    ∃ f, (s.worker t).slot .idle = some f ∧ f < s.nextId ∧ (s.fiberAt f).context = .ended

structure Orderly (t : T) (s : Scheduler T C) : Prop where
  held : ∀ k f, (s.worker t).slot k = some f →
    f < s.nextId ∧ (s.worker t).pc.Expects k (s.getState f)
  queue : ∀ e ∈ s.fibers, ∀ f, e.task = .fiber f → f < s.nextId
  ended : Sane s ∨ Stuck t s

section Sane

variable {s : Scheduler T C}

theorem Sane.putFiber (h : Sane s) (f : ℕ) {x : Fiber C}
    (hx : x.context = .ended → x.state.Finished) : Sane (s.putFiber f x) := by
  intro g hg
  by_cases hgf : g = f
  · subst hgf
    simp only [Scheduler.putFiber, getState, Function.update_self] at hg ⊢
    exact hx hg
  · simp only [Scheduler.putFiber, getState, Function.update_of_ne hgf] at hg ⊢
    exact h g hg

theorem Sane.make (h : Sane s) {x : Fiber C} (hx : x.context = .ended → x.state.Finished) :
    Sane (s.make x) :=
  h.putFiber s.nextId hx

/-- A function that ends leaves a final state. -/
theorem ended_finished {x y : Fiber C} {b : Body} (hact : act x b = .ok y)
    (hy : y.context = .ended) : y.state.Finished := by
  rcases (act_inv hact).2 with ⟨hinside, -⟩ | ⟨-, hfin, -⟩
  · rw [hinside] at hy
    cases hy
  · exact hfin

end Sane

section States

variable {s : Scheduler T C} {t : T} {b : Body} {k : Kind} {f : ℕ}

@[simp] theorem getState_putFiber_self (x : Fiber C) : (s.putFiber f x).getState f = x.state := by
  simp [getState, putFiber]

theorem getState_putFiber_of_ne {g : ℕ} (hg : g ≠ f) (x : Fiber C) :
    (s.putFiber f x).getState g = s.getState g := by
  simp [getState, putFiber, hg]

theorem getState_make_of_lt {g : ℕ} (hg : g < s.nextId) (x : Fiber C) :
    (s.make x).getState g = s.getState g := by
  rw [getState, fiberAt_make_of_lt hg, getState]

theorem slot_drop {w : Worker T C} {k' : Kind} (h : (w.drop k).slot k' = some f) :
    w.slot k' = some f := by
  cases k <;> cases k' <;> first | exact h | cases h

theorem getState_countDown (k : Kind) (s : Scheduler T C) (f : ℕ) :
    (countDown k s).getState f = s.getState f := by
  rw [getState, fiberAt_countDown, getState]

theorem documented_putFiber {x : Fiber C} {g : ℕ}
    (hx : x.state ≠ s.getState f → documented (s.getState f) x.state = true)
    (hne : (s.putFiber f x).getState g ≠ s.getState g) :
    documented (s.getState g) ((s.putFiber f x).getState g) = true := by
  by_cases hg : g = f
  · subst hg
    rw [getState_putFiber_self] at hne ⊢
    exact hx hne
  · exact absurd (getState_putFiber_of_ne hg x) hne

/-- Before a switch the fiber is in a state from which the table leads to `EXEC`. -/
theorem Orderly.documented_swapIn (h : Orderly t s) (hpc : (s.worker t).pc = .resume k)
    (hslot : (s.worker t).slot k = some f) (hexec : s.getState f ≠ .exec)
    (hidle : k = .idle → s.getState f ≠ .except) :
    documented (s.getState f) .exec = true := by
  have hold := (h.held k f hslot).2
  rw [hpc] at hold
  cases k with
  | fiber =>
    have hfin := (hold rfl).2
    cases hst : s.getState f with
    | exec => exact absurd hst hexec
    | term => exact absurd (.inl hst) hfin
    | except => exact absurd (.inr hst) hfin
    | _ => rfl
  | callback =>
    have hinit : s.getState f = .init := hold rfl
    rw [hinit]
    rfl
  | idle =>
    cases hst : s.getState f with
    | exec => exact absurd hst hexec
    | term => exact absurd hst (hold rfl)
    | except => exact absurd hst (hidle rfl)
    | _ => rfl

theorem Orderly.documented_leave (h : Orderly t s) (hpc : (s.worker t).pc = .running k)
    (hslot : (s.worker t).slot k = some f) {x : Fiber C} (hact : act (s.fiberAt f) b = .ok x)
    (hne : x.state ≠ s.getState f) : documented (s.getState f) x.state = true := by
  have hold := (h.held k f hslot).2
  rw [hpc] at hold
  have hexec : s.getState f = .exec := hold rfl
  rw [hexec]
  rcases act_state hact with hsame | ⟨-, hready⟩ | ⟨hterm | hexc, -⟩
  · exact absurd hsame hne
  · rw [hready]
    rfl
  · rw [hterm]
    rfl
  · rw [hexc]
    rfl

/-- A fiber that gave the thread back without ending and without asking for its turn is on hold. -/
theorem Orderly.documented_hold (h : Orderly t s) (hpc : (s.worker t).pc = .back k)
    (hslot : (s.worker t).slot k = some f) (hready : s.getState f ≠ .ready)
    (hfin : ¬(s.getState f).Finished) : documented (s.getState f) .hold = true := by
  have hold := (h.held k f hslot).2
  rw [hpc] at hold
  rcases hold rfl with ⟨hinit, hhold⟩
  cases hst : s.getState f with
  | init => exact absurd hst hinit
  | hold => exact absurd hst hhold
  | ready => exact absurd hst hready
  | term => exact absurd (.inl hst) hfin
  | except => exact absurd (.inr hst) hfin
  | exec => rfl

theorem documented_reset {st : FiberState} (h : st.Finished) : documented st .init = true := by
  rcases h with rfl | rfl <;> rfl

end States

section Turns

variable [DecidableEq T] {s s' : Scheduler T C} {t : T} {b : Body} {k : Kind} {f : ℕ}

theorem Turn.act_ok (hturn : Turn t b s s') (hpc : (s.worker t).pc = .running k)
    (hslot : (s.worker t).slot k = some f) : ∃ x, act (s.fiberAt f) b = .ok x := by
  cases hturn with
  | leave hpc' hslot' hact =>
    rw [hpc] at hpc'
    cases hpc'
    rw [hslot] at hslot'
    cases hslot'
    exact ⟨_, hact⟩
  | _ => simp_all

/-- A thread that goes on has not resumed a fiber that has ended. -/
theorem Orderly.sane (h : Orderly t s) (hturn : Turn t b s s') : Sane s := by
  rcases h.ended with hsane | ⟨hpc, f, hslot, -, hended⟩
  · exact hsane
  · rcases hturn.act_ok hpc hslot with ⟨x, hact⟩
    exact absurd hended (act_inv hact).1

/-- Behind a switch the thread is at the top of the loop, with no fiber that it had not before. -/
theorem PutBack.slot (h : PutBack t s k f s') :
    (s'.worker t).pc = .scan ∧
      ∀ k' g, (s'.worker t).slot k' = some g → (s.worker t).slot k' = some g := by
  cases h with
  | requeue hk hready =>
    rw [worker_putWorker_self]
    exact ⟨by cases k <;> rfl, fun k' g => slot_drop⟩
  | hold hk hready hfin =>
    rw [worker_putWorker_self]
    exact ⟨by cases k <;> rfl, fun k' g => slot_drop⟩
  | forget hfin =>
    rw [worker_putWorker_self]
    exact ⟨rfl, fun k' g => slot_drop⟩
  | _ =>
    rw [worker_putWorker_self]
    exact ⟨rfl, fun k' g hg => by rwa [slot_goto] at hg⟩

theorem PutBack.sane (h : PutBack t s k f s') (hsane : Sane s) : Sane s' := by
  cases h with
  | requeue hk hready => exact hsane
  | hold hk hready hfin => exact hsane.putFiber f fun hended => absurd (hsane f hended) hfin
  | forget hfin => exact hsane
  | clear hfin => exact hsane.putFiber f nofun
  | rest hfin => exact hsane.putFiber f fun hended => absurd (hsane f hended) hfin
  | finished hfin => exact hsane

theorem PutBack.mem_fibers (h : PutBack t s k f s') {e : FiberAndThread T C} (he : e ∈ s'.fibers) :
    e ∈ s.fibers ∨ e = ⟨none, .fiber f⟩ := by
  cases h with
  | requeue hk hready => simpa [scheduleNoLock, putWorker] using he
  | _ => exact .inl he

theorem orderly_putWorker {w : Worker T C}
    (hheld : ∀ k f, w.slot k = some f → f < s.nextId ∧ w.pc.Expects k (s.getState f))
    (hqueue : ∀ e ∈ s.fibers, ∀ f, e.task = .fiber f → f < s.nextId)
    (hended : Sane s ∨ w.pc = .running .idle ∧
      ∃ f, w.slot .idle = some f ∧ f < s.nextId ∧ (s.fiberAt f).context = .ended) :
    Orderly t (s.putWorker t w) := by
  refine ⟨?_, hqueue, ?_⟩
  · rw [worker_putWorker_self]
    exact hheld
  · rw [Stuck, worker_putWorker_self]
    exact hended

/-- The thread goes on with the fibers that it has. -/
theorem Orderly.goto (h : Orderly t s) (hsane : Sane s) {pc : Pc}
    (hpc : ∀ k f, (s.worker t).slot k = some f → pc.Expects k (s.getState f)) :
    Orderly t (s.putWorker t ((s.worker t).goto pc)) := by
  apply orderly_putWorker _ h.queue (.inl hsane)
  intro k f hslot
  rw [slot_goto] at hslot
  exact ⟨(h.held k f hslot).1, hpc k f hslot⟩

theorem Orderly.swapIn (h : Orderly t s) (hsane : Sane s) (hpc : (s.worker t).pc = .resume k)
    (hslot : (s.worker t).slot k = some f) :
    Orderly t ((s.putFiber f { s.fiberAt f with state := .exec }).putWorker t
      ((s.worker t).goto (.running k))) := by
  refine orderly_putWorker ?_ h.queue ?_
  · intro k' g hg
    rw [slot_goto] at hg
    refine ⟨(h.held k' g hg).1, ?_⟩
    rintro rfl
    rw [hslot] at hg
    cases hg
    exact getState_putFiber_self _
  · by_cases hended : (s.fiberAt f).context = .ended
    · right
      have hfin := hsane f hended
      have hold := h.held k f hslot
      rw [hpc] at hold
      cases k with
      | fiber => exact absurd hfin (hold.2 rfl).2
      | callback =>
        have hinit : s.getState f = .init := hold.2 rfl
        rw [hinit] at hfin
        rcases hfin with hterm | hexc
        · cases hterm
        · cases hexc
      | idle =>
        refine ⟨rfl, f, hslot, hold.1, ?_⟩
        simpa [Scheduler.putFiber] using hended
    · exact .inl (hsane.putFiber f fun hx => absurd hx hended)

theorem Orderly.leave (h : Orderly t s) (hsane : Sane s) (hpc : (s.worker t).pc = .running k)
    (hslot : (s.worker t).slot k = some f) {x : Fiber C} (hact : act (s.fiberAt f) b = .ok x) :
    Orderly t ((s.putFiber f x).putWorker t ((s.worker t).goto (.back k))) := by
  refine orderly_putWorker ?_ h.queue (.inl (hsane.putFiber f (ended_finished hact)))
  intro k' g hg
  rw [slot_goto] at hg
  refine ⟨(h.held k' g hg).1, ?_⟩
  rintro rfl
  rw [hslot] at hg
  cases hg
  have hexec : s.getState f = .exec := by
    have hold := (h.held k' f hslot).2
    rw [hpc] at hold
    exact hold rfl
  rw [getState_putFiber_self]
  rcases act_state hact with hsame | ⟨-, hready⟩ | ⟨hterm | hexc, -⟩
  · rw [hsame]
    change s.getState f ≠ .init ∧ s.getState f ≠ .hold
    rw [hexec]
    exact ⟨nofun, nofun⟩
  · rw [hready]
    exact ⟨nofun, nofun⟩
  · rw [hterm]
    exact ⟨nofun, nofun⟩
  · rw [hexc]
    exact ⟨nofun, nofun⟩

/-- Every step of the thread keeps the order. -/
theorem Orderly.turn (h : Orderly t s) (hturn : Turn t b s s') : Orderly t s' := by
  have hsane := h.sane hturn
  cases hturn with
  | enter hpc =>
    have hnext : ((s.make .main).make .idle).nextId = s.nextId + 2 := rfl
    apply orderly_putWorker
    · intro k f hslot
      rw [hnext]
      cases k with
      | fiber => exact ⟨Nat.lt_add_right 2 (h.held .fiber f hslot).1, trivial⟩
      | callback => exact ⟨Nat.lt_add_right 2 (h.held .callback f hslot).1, trivial⟩
      | idle =>
        cases hslot
        exact ⟨Nat.lt_succ_self _, trivial⟩
    · intro e he f hf
      exact Nat.lt_add_right 2 (h.queue e he f hf)
    · exact .inl ((hsane.make fun h => by cases h).make fun h => by cases h)
  | rest hpc hfind =>
    refine orderly_putWorker ?_ h.queue (.inl hsane)
    intro k f hslot
    cases k with
    | fiber => cases hslot
    | callback => exact ⟨(h.held .callback f hslot).1, fun hk => by cases hk⟩
    | idle => exact ⟨(h.held .idle f hslot).1, fun hk => by cases hk⟩
  | take hpc hfind =>
    rename_i e
    refine orderly_putWorker ?_ ?_ (.inl hsane)
    · intro k f hslot
      cases k with
      | fiber =>
        rcases e with ⟨pin, g | c⟩
        · cases hslot
          have hexec := not_exec_of_find hfind
          exact ⟨h.queue _ (List.mem_of_find?_eq_some hfind) f rfl, fun _ => hexec⟩
        · cases hslot
      | callback => exact ⟨(h.held .callback f hslot).1, fun hk => by cases hk⟩
      | idle => exact ⟨(h.held .idle f hslot).1, fun hk => by cases hk⟩
    · intro e he f hf
      exact h.queue e (List.mem_of_mem_eraseP he) f hf
  | setOut hpc hft hfin =>
    rename_i pin f
    apply h.goto hsane
    rintro k g hg rfl
    rw [slot_fiber hft] at hg
    cases hg
    have hold := (h.held .fiber f (slot_fiber hft)).2
    rw [hpc] at hold
    exact ⟨hold rfl, hfin⟩
  | discard hpc hft hfin =>
    refine orderly_putWorker ?_ h.queue (.inl hsane)
    intro k g hg
    exact ⟨(h.held k g (slot_drop hg)).1, trivial⟩
  | reuse hpc hft hcb =>
    rename_i pin c f
    refine orderly_putWorker ?_ h.queue (.inl (hsane.putFiber f nofun))
    intro k g hg
    cases k with
    | fiber => cases hg
    | callback =>
      cases hg
      exact ⟨(h.held .callback f hcb).1, fun _ => getState_putFiber_self _⟩
    | idle => exact ⟨(h.held .idle g hg).1, fun hk => by cases hk⟩
  | create hpc hft hcb =>
    refine orderly_putWorker ?_ ?_ (.inl (hsane.make nofun))
    · intro k g hg
      cases k with
      | fiber => cases hg
      | callback =>
        cases hg
        exact ⟨Nat.lt_succ_self _, fun _ => getState_putFiber_self _⟩
      | idle => exact ⟨Nat.lt_succ_of_lt (h.held .idle g hg).1, fun hk => by cases hk⟩
    · intro e he f hf
      exact Nat.lt_succ_of_lt (h.queue e he f hf)
  | stop hpc hft hidle hterm => exact h.goto hsane fun _ _ _ => trivial
  | setOutIdle hpc hft hidle hterm =>
    rename_i f
    refine orderly_putWorker ?_ h.queue (.inl hsane)
    intro k g hg
    rw [slot_goto] at hg
    refine ⟨(h.held k g hg).1, ?_⟩
    rintro rfl
    cases hidle.symm.trans hg
    exact hterm
  | swapIn hpc hslot hexec => exact h.swapIn hsane hpc hslot
  | leave hpc hslot hact => exact h.leave hsane hpc hslot hact
  | settle hpc hslot hback =>
    rename_i k f
    rcases hback.slot with ⟨hscan, hslots⟩
    refine ⟨fun k' g hg => ?_, fun e he g hg => ?_, .inl (hback.sane ?_)⟩
    · rw [hback.nextId, nextId_countDown, hscan]
      have hold := hslots k' g hg
      rw [worker_countDown] at hold
      exact ⟨(h.held k' g hold).1, trivial⟩
    · rw [hback.nextId, nextId_countDown]
      rcases hback.mem_fibers he with hmem | rfl
      · rw [fibers_countDown] at hmem
        exact h.queue e hmem g hg
      · cases hg
        exact (h.held k f hslot).1
    · intro g hg
      rw [fiberAt_countDown] at hg
      rw [getState, fiberAt_countDown]
      exact hsane g hg
  | stopped hpc => exact h

/-- What a thread that reuses its callback fiber has made sure of. -/
theorem reuse_state {pin : Option T} {c : C} (hpc : (s.worker t).pc = .dispatch)
    (hft : (s.worker t).ft = some ⟨pin, .cb c⟩) (hcb : (s.worker t).cbFiber = some f)
    (hrun : step t b s = .done () s') : s.getState f = .init ∨ (s.getState f).Finished := by
  simp only [step, Command.state_bind_apply, hpc, dispatch, hft, hcb] at hrun
  rcases Command.bind_eq_done.mp hrun with ⟨_, s₁, hreset, -⟩
  by_contra hno
  rw [not_or, FiberState.Finished, not_or] at hno
  simp [reset, hno] at hreset

/-- Every change of state by a step of the thread is in the table, apart from the two about the
idle fiber. -/
theorem Orderly.table (h : Orderly t s) (hrun : step t b s = .done () s')
    (htame : ∀ f, (s.worker t).idleFiber = some f →
      ((s.worker t).pc = .resume .idle → s.getState f ≠ .except) ∧
      ((s.worker t).pc = .back .idle → s.getState f ≠ .ready))
    {g : ℕ} (hlt : g < s.nextId) (hne : s'.getState g ≠ s.getState g) :
    documented (s.getState g) (s'.getState g) = true := by
  cases step_turn hrun with
  | enter hpc =>
    exact absurd ((getState_make_of_lt (Nat.lt_succ_of_lt hlt) _).trans
      (getState_make_of_lt hlt _)) hne
  | create hpc hft hcb => exact absurd (getState_make_of_lt hlt _) hne
  | reuse hpc hft hcb =>
    apply documented_putFiber _ hne
    intro hchange
    rcases reuse_state hpc hft hcb hrun with hinit | hfin
    · exact absurd hinit.symm hchange
    · exact documented_reset hfin
  | swapIn hpc hslot hexec =>
    rename_i k f
    apply documented_putFiber _ hne
    intro _
    apply h.documented_swapIn hpc hslot hexec
    rintro rfl
    exact (htame f hslot).1 hpc
  | leave hpc hslot hact => exact documented_putFiber (h.documented_leave hpc hslot hact) hne
  | settle hpc hslot hback =>
    rename_i k f
    rw [← getState_countDown k s g] at hne ⊢
    cases hback with
    | hold hk hready hfin =>
      apply documented_putFiber _ hne
      rw [getState_countDown] at hready hfin ⊢
      exact fun _ => h.documented_hold hpc hslot hready hfin
    | clear hfin => exact documented_putFiber (fun _ => documented_reset hfin) hne
    | rest hfin =>
      apply documented_putFiber _ hne
      rw [getState_countDown] at hfin ⊢
      exact fun _ => h.documented_hold hpc hslot ((htame f hslot).2 hpc) hfin
    | _ => exact absurd rfl hne
  | _ => exact absurd rfl hne

theorem step_swapIn (hpc : (s.worker t).pc = .resume k) (hslot : (s.worker t).slot k = some f)
    (hexec : s.getState f ≠ .exec) :
    step t b s = .done () ((s.putFiber f { s.fiberAt f with state := .exec }).putWorker t
      ((s.worker t).goto (.running k))) := by
  simp only [step, Command.state_bind_apply, hpc, swapIn, hslot, if_neg hexec]
  rfl

theorem step_rest (hpc : (s.worker t).pc = .back .idle)
    (hslot : (s.worker t).slot .idle = some f) (hfin : ¬(s.getState f).Finished) :
    step t b s = .done () ((countIdle (-1) s |>.putFiber f
      { s.fiberAt f with state := .hold }).putWorker t ((s.worker t).goto .scan)) := by
  simp only [step, Command.state_bind_apply, hpc, settle, hslot, not_finished_iff,
    if_pos hfin]
  rfl

omit [DecidableEq T] in
theorem Orderly.alive (h : Orderly t s) (hpc : (s.worker t).pc = .resume k)
    (hslot : (s.worker t).slot k = some f) (hidle : k = .idle → s.getState f ≠ .except) :
    (s.fiberAt f).context ≠ .ended := by
  intro hended
  have hsane : Sane s := by
    rcases h.ended with hsane | ⟨hpc', -⟩
    · exact hsane
    · rw [hpc] at hpc'
      cases hpc'
  have hfin := hsane f hended
  have hexec : s.getState f ≠ .exec := by
    intro hexec
    rw [hexec] at hfin
    rcases hfin with hterm | hexc
    · cases hterm
    · cases hexc
  have hdoc := h.documented_swapIn hpc hslot hexec hidle
  rcases hfin with hterm | hexc
  · rw [hterm] at hdoc
    cases hdoc
  · rw [hexc] at hdoc
    cases hdoc

end Turns

section Queue

variable {s : Scheduler T C} {t : T}

theorem Orderly.scheduleNoLock (h : Orderly t s) {task : Option (Task ℕ C)} (pin : Option T)
    (hmade : ∀ f, task = some (.fiber f) → f < s.nextId) :
    Orderly t (scheduleNoLock task pin s) := by
  refine ⟨h.held, ?_, h.ended⟩
  intro e he f hf
  rcases List.mem_append.mp he with hold | hnew
  · exact h.queue e hold f hf
  · rcases task with _ | task
    · cases hnew
    · rw [Option.map_some, Option.toList_some, List.mem_singleton] at hnew
      subst hnew
      exact hmade f (congrArg some hf)

theorem Orderly.scheduleRange (h : Orderly t s) {tasks : List (Option (Task ℕ C))}
    (hmade : ∀ f, some (.fiber f) ∈ tasks → f < s.nextId) :
    Orderly t (tasks.foldl (fun s task => Scheduler.scheduleNoLock task none s) s) := by
  induction tasks generalizing s with
  | nil => exact h
  | cons task tasks ih =>
    rw [List.foldl_cons]
    apply ih
    · exact h.scheduleNoLock none fun f hf => hmade f (List.mem_cons.mpr (.inl hf.symm))
    · exact fun f hf => hmade f (List.mem_cons_of_mem _ hf)

theorem Orderly.make (h : Orderly t s) {x : Fiber C} (hx : x.context ≠ .ended) :
    Orderly t (s.make x) := by
  refine ⟨?_, ?_, ?_⟩
  · intro k f hslot
    have hold := h.held k f hslot
    rw [getState_make_of_lt hold.1]
    exact ⟨Nat.lt_succ_of_lt hold.1, hold.2⟩
  · intro e he f hf
    exact Nat.lt_succ_of_lt (h.queue e he f hf)
  · rcases h.ended with hsane | ⟨hpc, f, hslot, hlt, hended⟩
    · exact .inl (hsane.make fun hended => absurd hended hx)
    · refine .inr ⟨hpc, f, hslot, Nat.lt_succ_of_lt hlt, ?_⟩
      rw [fiberAt_make_of_lt hlt]
      exact hended

theorem getState_scheduleRange (tasks : List (Option (Task ℕ C))) (s : Scheduler T C) (f : ℕ) :
    (tasks.foldl (fun s task => Scheduler.scheduleNoLock task none s) s).getState f =
      s.getState f := by
  induction tasks generalizing s with
  | nil => rfl
  | cons task tasks ih => exact ih _

end Queue

section Runs

variable [DecidableEq T] {s s' : Scheduler T C} {t : T} {a : Action T C} {l : List (Action T C)}

/-- One thread runs the scheduler; fibers that exist may be scheduled by anyone. -/
def Solo (t : T) (s : Scheduler T C) : Action T C → Prop
  | .thread t' _ => t' = t
  | .schedule task _ => ∀ f, task = some (.fiber f) → f < s.nextId
  | .scheduleRange tasks => ∀ f, some (.fiber f) ∈ tasks → f < s.nextId
  | .newFiber _ => True

/-- The step changes states as the table says, and switches to no fiber that has ended. -/
structure Conforms (s : Scheduler T C) (a : Action T C) : Prop where
  table : ∀ s', a.run s = .done () s' → ∀ f < s.nextId, s'.getState f ≠ s.getState f →
    documented (s.getState f) (s'.getState f) = true
  alive : ∀ t b k f, a = .thread t b → (s.worker t).pc = .resume k →
    (s.worker t).slot k = some f → (s.fiberAt f).context ≠ .ended

/-- The thread is not about to resume its idle fiber after an exception, nor to go on after the
idle fiber has yielded to `READY`. -/
def Tame (s : Scheduler T C) : Action T C → Prop
  | .thread t _ => ∀ f, (s.worker t).idleFiber = some f →
      ((s.worker t).pc = .resume .idle → s.getState f ≠ .except) ∧
      ((s.worker t).pc = .back .idle → s.getState f ≠ .ready)
  | _ => True

omit [DecidableEq T] in
theorem init_orderly (t : T) : Orderly t (init : Scheduler T C) := by
  refine ⟨?_, nofun, .inl nofun⟩
  intro k f hslot
  cases k <;> cases hslot

theorem Orderly.step (h : Orderly t s) (ha : Solo t s a) (hrun : a.run s = .done () s') :
    Orderly t s' := by
  cases a with
  | thread t' b =>
    cases ha
    exact h.turn (step_turn hrun)
  | schedule task pin =>
    cases hrun
    exact h.scheduleNoLock pin ha
  | scheduleRange tasks =>
    cases hrun
    exact h.scheduleRange ha
  | newFiber cb =>
    cases hrun
    exact h.make nofun

theorem Orderly.conforms_iff_tame (h : Orderly t s) (ha : Solo t s a) :
    Conforms s a ↔ Tame s a := by
  cases a with
  | thread t' b =>
    cases ha
    constructor
    · intro hconf f hidle
      have hlt := (h.held .idle f hidle).1
      constructor
      · intro hpc hexc
        have hrun := step_swapIn (b := b) hpc hidle (by rw [hexc]; decide)
        have hdoc := hconf.table _ hrun f hlt
        have hnew : ((s.putFiber f { s.fiberAt f with state := .exec }).putWorker t
            ((s.worker t).goto (.running .idle))).getState f = .exec := getState_putFiber_self _
        rw [hnew, hexc] at hdoc
        exact absurd (hdoc nofun) (by decide)
      · intro hpc hready
        have hrun := step_rest (b := b) hpc hidle (by rw [hready]; decide)
        have hdoc := hconf.table _ hrun f hlt
        have hnew : ((countIdle (-1) s |>.putFiber f { s.fiberAt f with state := .hold }).putWorker t
            ((s.worker t).goto .scan)).getState f = .hold := getState_putFiber_self _
        rw [hnew, hready] at hdoc
        exact absurd (hdoc nofun) (by decide)
    · intro htame
      refine ⟨fun s' hrun f hlt hne => h.table hrun htame hlt hne, ?_⟩
      rintro t b k f ⟨⟩ hpc hslot
      apply h.alive hpc hslot
      rintro rfl
      exact (htame f hslot).1 hpc
  | schedule task pin =>
    refine ⟨fun _ => trivial, fun _ => ⟨?_, nofun⟩⟩
    rintro s' ⟨⟩ f hlt hne
    exact absurd rfl hne
  | scheduleRange tasks =>
    refine ⟨fun _ => trivial, fun _ => ⟨?_, nofun⟩⟩
    rintro s' ⟨⟩ f hlt hne
    exact absurd (getState_scheduleRange tasks s f) hne
  | newFiber cb =>
    refine ⟨fun _ => trivial, fun _ => ⟨?_, nofun⟩⟩
    rintro s' ⟨⟩ f hlt hne
    exact absurd (getState_make_of_lt hlt _) hne

/-- A run of one thread keeps to the table and resumes no fiber that has ended, exactly if its idle
fiber is never resumed after an exception and never gives the thread back as `READY`. -/
theorem conforms_iff (h : Along (Solo t) Action.run l (init : Scheduler T C)) :
    Along Conforms Action.run l init ↔ Along Tame Action.run l init :=
  h.iff_of_invariant (fun _ _ _ => Orderly.step) (fun _ _ => Orderly.conforms_iff_tame)
    (init_orderly t)

/-- The idle function of a thread without tasks waits once. -/
theorem conforms_iff_idle : Along Conforms Action.run
    [.thread () .finish, .thread () .finish, .thread () .finish, .thread () .finish,
      .thread () .yieldToHold, .thread () .finish] (init : Scheduler Unit Unit) := by
  refine (conforms_iff (t := ()) (by exact ⟨rfl, rfl, rfl, rfl, rfl, rfl, trivial⟩)).mpr ?_
  refine ⟨nofun, ?_, ?_, ?_, ?_, ?_, trivial⟩
  all_goals
    rintro f ⟨⟩
    exact ⟨fun _ => by decide, fun _ => by decide⟩

/-- Two ways out of the table. The idle function throws, the loop finds no task again and switches
to the idle fiber in the state `EXCEPT`, behind the end of its function. The idle function yields to
`READY`, and the loop puts its fiber on hold. -/
theorem idle_leaves_table :
    (∃ s s' : Scheduler Unit Unit, runAll Action.run [.thread () .finish, .thread () .finish,
        .thread () .finish, .thread () .finish, .thread () .throw, .thread () .finish,
        .thread () .finish, .thread () .finish] init = .done () s ∧
      (s.fiberAt 1).state = .except ∧ (s.fiberAt 1).context = .ended ∧
      Action.run (.thread () .finish) s = .done () s' ∧ (s'.fiberAt 1).state = .exec ∧
      Action.run (.thread () .finish) s' = .raised ⟨"never reach fiber_id="⟩ s') ∧
    ∃ s s' : Scheduler Unit Unit, runAll Action.run [.thread () .finish, .thread () .finish,
        .thread () .finish, .thread () .finish, .thread () .yieldToReady] init = .done () s ∧
      (s.fiberAt 1).state = .ready ∧ Action.run (.thread () .finish) s = .done () s' ∧
      (s'.fiberAt 1).state = .hold :=
  ⟨⟨_, _, rfl, rfl, rfl, rfl, rfl, rfl⟩, ⟨_, _, rfl, rfl, rfl, rfl⟩⟩

end Runs

end Sylar.Scheduler
