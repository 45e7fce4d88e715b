import Sylar.Scheduler.Model

/-! # The turns of a thread

What a step of a thread of `Scheduler::run` can do, one constructor for each exit of the loop body
and of the functions it calls. The part behind a switch falls into the counter access and the
rest.
-/
namespace Sylar.Scheduler
open Memory

variable {T C : Type}

def FiberState.Finished (st : FiberState) : Prop := st = .term ∨ st = .except

instance (st : FiberState) : Decidable st.Finished :=
  inferInstanceAs (Decidable (st = .term ∨ st = .except))

theorem not_finished_iff {st : FiberState} : st ≠ .term ∧ st ≠ .except ↔ ¬st.Finished := by
  rw [FiberState.Finished, not_or]

theorem finished_ne_exec {st : FiberState} (hfin : st.Finished) : st ≠ .exec := by
  rintro rfl
  rcases hfin with hterm | hexc
  · cases hterm
  · cases hexc

/-- The main fiber of a thread. -/
def Fiber.main : Fiber C := ⟨.exec, none, .inside⟩

/-- An idle fiber. -/
def Fiber.idle : Fiber C := ⟨.init, some .idle, .fresh⟩

def countActive (n : ℤ) (s : Scheduler T C) : Scheduler T C :=
  { s with activeThreadCount := s.activeThreadCount + n }

def countIdle (n : ℤ) (s : Scheduler T C) : Scheduler T C :=
  { s with idleThreadCount := s.idleThreadCount + n }

/-- The count that a branch has raised is lowered. -/
def countDown (k : Kind) (s : Scheduler T C) : Scheduler T C :=
  if k = .idle then countIdle (-1) s else countActive (-1) s

@[simp] theorem worker_countDown (k : Kind) (s : Scheduler T C) :
    (countDown k s).worker = s.worker := by
  rw [countDown]
  split_ifs <;> rfl

variable {s s' : Scheduler T C} {f : ℕ}

theorem putAway_eq (f : ℕ) (s : Scheduler T C) :
    putAway f s = .done () (if s.getState f = .ready then scheduleNoLock (some (.fiber f)) none s
      else if (s.getState f).Finished then s
      else s.putFiber f { s.fiberAt f with state := .hold }) := by
  rw [putAway, Command.state_bind_apply]
  simp only [Command.ite_apply, not_finished_iff, ite_not]
  split_ifs <;> rfl

theorem reset_inv {cb : Option (Func C)} (hrun : reset f cb s = .done () s') :
    s' = s.putFiber f ⟨.init, cb, .fresh⟩ := by
  rw [reset, Command.state_bind_apply, Command.ite_apply] at hrun
  split at hrun
  · cases hrun
    rfl
  · cases hrun

variable [DecidableEq T] {t : T} {k : Kind} {b : Body}

/-- What the loop does when the switch has returned and the count is lowered. -/
def putBack (t : T) (k : Kind) : Cmd T C Unit := do
  let s ← Command.state
  let w := s.worker t
  match w.slot k with
  | none => Command.abort .nullPointer
  | some f =>
    match k with
    | .fiber => do
      putAway f
      setWorker t (w.drop .fiber)
    | .callback =>
      if s.getState f = .ready then do
        schedule (some (.fiber f)) none
        setWorker t (w.drop .callback)
      else if s.getState f = .except ∨ s.getState f = .term then do
        reset f none
        setWorker t (w.goto .scan)
      else do
        setState f .hold
        setWorker t (w.drop .callback)
    | .idle =>
      if s.getState f ≠ .term ∧ s.getState f ≠ .except then do
        setState f .hold
        setWorker t (w.goto .scan)
      else setWorker t (w.goto .scan)

theorem settle_eq (t : T) (k : Kind) (s : Scheduler T C) :
    settle t k s = putBack t k (countDown k s) := by
  rw [settle, putBack, Command.state_bind_apply, Command.state_bind_apply, worker_countDown]
  cases (s.worker t).slot k with
  | none => rfl
  | some f => cases k <;> rfl

/-- What `putBack` can do with the fiber of the branch. -/
inductive PutBack (t : T) (s : Scheduler T C) : Kind → ℕ → Scheduler T C → Prop where
  | requeue {k : Kind} {f : ℕ} (hk : k ≠ .idle) (hready : s.getState f = .ready) :
      PutBack t s k f ((scheduleNoLock (some (.fiber f)) none s).putWorker t ((s.worker t).drop k))
  | hold {k : Kind} {f : ℕ} (hk : k ≠ .idle) (hready : s.getState f ≠ .ready)
      (hfin : ¬(s.getState f).Finished) :
      PutBack t s k f ((s.putFiber f { s.fiberAt f with state := .hold }).putWorker t
        ((s.worker t).drop k))
  | forget {f : ℕ} (hfin : (s.getState f).Finished) :
      PutBack t s .fiber f (s.putWorker t ((s.worker t).drop .fiber))
  | clear {f : ℕ} (hfin : (s.getState f).Finished) :
      PutBack t s .callback f ((s.putFiber f ⟨.init, none, .fresh⟩).putWorker t
        ((s.worker t).goto .scan))
  | rest {f : ℕ} (hfin : ¬(s.getState f).Finished) :
      PutBack t s .idle f ((s.putFiber f { s.fiberAt f with state := .hold }).putWorker t
        ((s.worker t).goto .scan))
  | finished {f : ℕ} (hfin : (s.getState f).Finished) :
      PutBack t s .idle f (s.putWorker t ((s.worker t).goto .scan))

theorem putBack_inv (hrun : putBack t k s = .done () s') :
    ∃ f, (s.worker t).slot k = some f ∧ PutBack t s k f s' := by
  rw [putBack, Command.state_bind_apply] at hrun
  cases hslot : (s.worker t).slot k with
  | none => simp [hslot] at hrun
  | some f =>
    refine ⟨f, rfl, ?_⟩
    simp only [hslot] at hrun
    cases k with
    | fiber =>
      simp only [Command.bind_done (putAway_eq _ _), setWorker, Command.modify_apply,
        Outcome.done.injEq] at hrun
      rw [← hrun.2]
      split_ifs with hready hfin
      · exact .requeue nofun hready
      · exact .forget hfin
      · exact .hold nofun hready hfin
    | callback =>
      simp only [Command.ite_apply] at hrun
      by_cases hready : s.getState f = .ready
      · rw [if_pos hready] at hrun
        cases hrun
        exact .requeue nofun hready
      · rw [if_neg hready] at hrun
        by_cases hfin : s.getState f = .except ∨ s.getState f = .term
        · rw [if_pos hfin] at hrun
          rcases Command.bind_eq_done.mp hrun with ⟨_, s₁, hreset, hset⟩
          cases hset
          rw [reset_inv hreset]
          exact .clear hfin.symm
        · rw [if_neg hfin] at hrun
          cases hrun
          exact .hold nofun hready fun h => hfin h.symm
    | idle =>
      simp only [Command.ite_apply, not_finished_iff, ite_not] at hrun
      by_cases hfin : (s.getState f).Finished
      · rw [if_pos hfin] at hrun
        cases hrun
        exact .finished hfin
      · rw [if_neg hfin] at hrun
        cases hrun
        exact .rest hfin

/-- The first eligible entry is taken out and counted. -/
def dequeue (t : T) (s : Scheduler T C) : Scheduler T C :=
  countActive 1 { s with fibers := s.fibers.eraseP (s.eligible t) }

/-- What a thread can do in a step. -/
inductive Turn (t : T) (b : Body) (s : Scheduler T C) : Scheduler T C → Prop where
  | enter (hpc : (s.worker t).pc = .outside) :
      Turn t b s (((s.make .main).make .idle).putWorker t
        { s.worker t with pc := .scan, idleFiber := some (s.make .main).nextId })
  | rest (hpc : (s.worker t).pc = .scan) (hfind : s.fibers.find? (s.eligible t) = none) :
      Turn t b s (s.putWorker t { s.worker t with pc := .dispatch, ft := none })
  | take {e : FiberAndThread T C} (hpc : (s.worker t).pc = .scan)
      (hfind : s.fibers.find? (s.eligible t) = some e) :
      Turn t b s ((s.dequeue t).putWorker t { s.worker t with pc := .dispatch, ft := some e })
  | setOut {pin : Option T} {f : ℕ} (hpc : (s.worker t).pc = .dispatch)
      (hft : (s.worker t).ft = some ⟨pin, .fiber f⟩) (hfin : ¬(s.getState f).Finished) :
      Turn t b s (s.putWorker t ((s.worker t).goto (.resume .fiber)))
  | discard {pin : Option T} {f : ℕ} (hpc : (s.worker t).pc = .dispatch)
      (hft : (s.worker t).ft = some ⟨pin, .fiber f⟩) (hfin : (s.getState f).Finished) :
      Turn t b s ((countActive (-1) s).putWorker t ((s.worker t).drop .fiber))
  | reuse {pin : Option T} {c : C} {f : ℕ} (hpc : (s.worker t).pc = .dispatch)
      (hft : (s.worker t).ft = some ⟨pin, .cb c⟩) (hcb : (s.worker t).cbFiber = some f) :
      Turn t b s ((s.putFiber f ⟨.init, some (.user c), .fresh⟩).putWorker t
        { s.worker t with pc := .resume .callback, ft := none, cbFiber := some f })
  | create {pin : Option T} {c : C} (hpc : (s.worker t).pc = .dispatch)
      (hft : (s.worker t).ft = some ⟨pin, .cb c⟩) (hcb : (s.worker t).cbFiber = none) :
      Turn t b s ((s.make ⟨.init, some (.user c), .fresh⟩).putWorker t
        { s.worker t with pc := .resume .callback, ft := none, cbFiber := some s.nextId })
  | stop {f : ℕ} (hpc : (s.worker t).pc = .dispatch) (hft : (s.worker t).ft = none)
      (hidle : (s.worker t).idleFiber = some f) (hterm : s.getState f = .term) :
      Turn t b s (s.putWorker t ((s.worker t).goto .stopped))
  | setOutIdle {f : ℕ} (hpc : (s.worker t).pc = .dispatch) (hft : (s.worker t).ft = none)
      (hidle : (s.worker t).idleFiber = some f) (hterm : s.getState f ≠ .term) :
      Turn t b s ((countIdle 1 s).putWorker t ((s.worker t).goto (.resume .idle)))
  | swapIn {k : Kind} {f : ℕ} (hpc : (s.worker t).pc = .resume k)
      (hslot : (s.worker t).slot k = some f) (hexec : s.getState f ≠ .exec) :
      Turn t b s ((s.putFiber f { s.fiberAt f with state := .exec }).putWorker t
        ((s.worker t).goto (.running k)))
  | leave {k : Kind} {f : ℕ} {x : Fiber C} (hpc : (s.worker t).pc = .running k)
      (hslot : (s.worker t).slot k = some f) (hact : act (s.fiberAt f) b = .ok x) :
      Turn t b s ((s.putFiber f x).putWorker t ((s.worker t).goto (.back k)))
  | settle {k : Kind} {f : ℕ} {s' : Scheduler T C} (hpc : (s.worker t).pc = .back k)
      (hslot : (s.worker t).slot k = some f) (hback : PutBack t (countDown k s) k f s') :
      Turn t b s s'
  | stopped (hpc : (s.worker t).pc = .stopped) : Turn t b s s

theorem take_turn (hpc : (s.worker t).pc = .scan) (hrun : take t s = .done () s') :
    Turn t b s s' := by
  rw [take, Command.state_bind_apply] at hrun
  cases hfind : s.fibers.find? (s.eligible t) with
  | none =>
    simp only [hfind] at hrun
    cases hrun
    exact .rest hpc hfind
  | some e =>
    simp only [hfind] at hrun
    cases hrun
    exact .take hpc hfind

theorem dispatch_turn (hpc : (s.worker t).pc = .dispatch) (hrun : dispatch t s = .done () s') :
    Turn t b s s' := by
  rw [dispatch, Command.state_bind_apply] at hrun
  cases hft : (s.worker t).ft with
  | none =>
    cases hidle : (s.worker t).idleFiber with
    | none => simp [hft, hidle] at hrun
    | some f =>
      simp only [hft, hidle, Command.ite_apply] at hrun
      split_ifs at hrun with hterm
      · cases hrun
        exact .stop hpc hft hidle hterm
      · cases hrun
        exact .setOutIdle hpc hft hidle hterm
  | some e =>
    rcases e with ⟨pin, f | c⟩
    · simp only [hft, Command.ite_apply, not_finished_iff, ite_not] at hrun
      split_ifs at hrun with hfin
      · cases hrun
        exact .discard hpc hft hfin
      · cases hrun
        exact .setOut hpc hft hfin
    · cases hcb : (s.worker t).cbFiber with
      | none =>
        simp only [hft, hcb] at hrun
        cases hrun
        exact .create hpc hft hcb
      | some f =>
        simp only [hft, hcb] at hrun
        rcases Command.bind_eq_done.mp hrun with ⟨_, s₁, hreset, hset⟩
        cases hset
        rw [reset_inv hreset]
        exact .reuse hpc hft hcb

theorem swapIn_turn (hpc : (s.worker t).pc = .resume k) (hrun : swapIn t k s = .done () s') :
    Turn t b s s' := by
  rw [swapIn, Command.state_bind_apply] at hrun
  cases hslot : (s.worker t).slot k with
  | none => simp [hslot] at hrun
  | some f =>
    by_cases hexec : s.getState f = .exec
    · simp [hslot, hexec] at hrun
    · simp only [hslot, if_neg hexec] at hrun
      cases hrun
      exact .swapIn hpc hslot hexec

theorem leave_turn (hpc : (s.worker t).pc = .running k) (hrun : leave t k b s = .done () s') :
    Turn t b s s' := by
  rw [leave, Command.state_bind_apply] at hrun
  cases hslot : (s.worker t).slot k with
  | none => simp [hslot] at hrun
  | some f =>
    cases hact : act (s.fiberAt f) b with
    | error e => simp [hslot, hact] at hrun
    | ok x =>
      simp only [hslot, hact] at hrun
      cases hrun
      exact .leave hpc hslot hact

theorem settle_turn (hpc : (s.worker t).pc = .back k) (hrun : settle t k s = .done () s') :
    Turn t b s s' := by
  rw [settle_eq] at hrun
  obtain ⟨f, hslot, hback⟩ := putBack_inv hrun
  rw [worker_countDown] at hslot
  exact .settle hpc hslot hback

theorem step_turn (hrun : step t b s = .done () s') : Turn t b s s' := by
  rw [step, Command.state_bind_apply] at hrun
  cases hpc : (s.worker t).pc with
  | outside =>
    rw [hpc] at hrun
    cases hrun
    exact .enter hpc
  | scan =>
    rw [hpc] at hrun
    exact take_turn hpc hrun
  | dispatch =>
    rw [hpc] at hrun
    exact dispatch_turn hpc hrun
  | resume k =>
    rw [hpc] at hrun
    exact swapIn_turn hpc hrun
  | running k =>
    rw [hpc] at hrun
    exact leave_turn hpc hrun
  | back k =>
    rw [hpc] at hrun
    exact settle_turn hpc hrun
  | stopped =>
    rw [hpc] at hrun
    cases hrun
    exact .stopped hpc

section Frame

variable {t' : T} {g : ℕ}

@[simp] theorem worker_putWorker_self (t : T) (w : Worker T C) : (s.putWorker t w).worker t = w :=
  Function.update_self _ _ _

theorem worker_putWorker_of_ne (ht : t' ≠ t) (w : Worker T C) :
    (s.putWorker t w).worker t' = s.worker t' :=
  Function.update_of_ne ht _ _

omit [DecidableEq T] in
theorem fiberAt_putFiber_of_ne (hg : g ≠ f) (x : Fiber C) :
    (s.putFiber f x).fiberAt g = s.fiberAt g :=
  Function.update_of_ne hg _ _

omit [DecidableEq T] in
@[simp] theorem fiberAt_countDown (k : Kind) (s : Scheduler T C) :
    (countDown k s).fiberAt = s.fiberAt := by
  rw [countDown]
  split_ifs <;> rfl

omit [DecidableEq T] in
@[simp] theorem fibers_countDown (k : Kind) (s : Scheduler T C) :
    (countDown k s).fibers = s.fibers := by
  rw [countDown]
  split_ifs <;> rfl

omit [DecidableEq T] in
@[simp] theorem nextId_countDown (k : Kind) (s : Scheduler T C) :
    (countDown k s).nextId = s.nextId := by
  rw [countDown]
  split_ifs <;> rfl

theorem PutBack.nextId (h : PutBack t s k f s') : s'.nextId = s.nextId := by
  cases h <;> rfl

theorem PutBack.worker_of_ne (h : PutBack t s k f s') (ht : t' ≠ t) :
    s'.worker t' = s.worker t' := by
  cases h <;> exact worker_putWorker_of_ne ht _

/-- A thread changes its own variables only. -/
theorem Turn.worker_of_ne (h : Turn t b s s') (ht : t' ≠ t) : s'.worker t' = s.worker t' := by
  cases h with
  | settle hpc hslot hback => rw [hback.worker_of_ne ht, worker_countDown]
  | stopped hpc => rfl
  | _ => exact worker_putWorker_of_ne ht _

theorem PutBack.fiberAt_of_ne (h : PutBack t s k f s') (hg : g ≠ f) :
    s'.fiberAt g = s.fiberAt g := by
  cases h with
  | requeue hk hready => rfl
  | hold hk hready hfin => exact fiberAt_putFiber_of_ne hg _
  | forget hfin => rfl
  | clear hfin => exact fiberAt_putFiber_of_ne hg _
  | rest hfin => exact fiberAt_putFiber_of_ne hg _
  | finished hfin => rfl

omit [DecidableEq T] in
theorem fiberAt_make_of_lt (hg : g < s.nextId) (x : Fiber C) : (s.make x).fiberAt g = s.fiberAt g :=
  Function.update_of_ne (Nat.ne_of_lt hg) _ _

/-- A thread changes the fibers that it holds and those that it makes. -/
theorem Turn.fiberAt_of_ne (h : Turn t b s s') (hlt : g < s.nextId)
    (hg : ∀ k, (s.worker t).slot k ≠ some g) : s'.fiberAt g = s.fiberAt g := by
  cases h with
  | enter hpc =>
    exact (fiberAt_make_of_lt (Nat.lt_succ_of_lt hlt) _).trans (fiberAt_make_of_lt hlt _)
  | create hpc hft hcb => exact fiberAt_make_of_lt hlt _
  | reuse hpc hft hcb =>
    apply fiberAt_putFiber_of_ne
    rintro rfl
    exact hg .callback hcb
  | swapIn hpc hslot hexec =>
    apply fiberAt_putFiber_of_ne
    rintro rfl
    exact hg _ hslot
  | leave hpc hslot hact =>
    apply fiberAt_putFiber_of_ne
    rintro rfl
    exact hg _ hslot
  | settle hpc hslot hback =>
    rw [hback.fiberAt_of_ne, fiberAt_countDown]
    rintro rfl
    exact hg _ hslot
  | _ => rfl

/-- The thread has dequeued an entry and not yet returned from it. -/
def Worker.isActive (w : Worker T C) : Bool :=
  match w.pc with
  | .dispatch => w.ft.isSome
  | .resume k => k ≠ .idle
  | .running k => k ≠ .idle
  | .back k => k ≠ .idle
  | _ => false

theorem PutBack.inactive (h : PutBack t s k f s') : (s'.worker t).isActive = false := by
  cases h with
  | requeue hk hready =>
    rw [worker_putWorker_self]
    cases k <;> rfl
  | hold hk hready hfin =>
    rw [worker_putWorker_self]
    cases k <;> rfl
  | _ =>
    rw [worker_putWorker_self]
    rfl

theorem PutBack.activeThreadCount (h : PutBack t s k f s') :
    s'.activeThreadCount = s.activeThreadCount := by
  cases h <;> rfl

/-- The counter follows the thread. -/
theorem Turn.activeThreadCount (h : Turn t b s s') :
    s'.activeThreadCount + (s.worker t).isActive.toNat =
      s.activeThreadCount + (s'.worker t).isActive.toNat := by
  cases h with
  | settle hpc hslot hback =>
    rename_i k f
    rw [hback.inactive, hback.activeThreadCount, countDown, Worker.isActive, hpc]
    cases k with
    | fiber =>
      change s.activeThreadCount + -1 + 1 = s.activeThreadCount + 0
      omega
    | callback =>
      change s.activeThreadCount + -1 + 1 = s.activeThreadCount + 0
      omega
    | idle => rfl
  | take hpc hfind => simp [Worker.isActive, hpc, dequeue, countActive, putWorker]
  | discard hpc hft hfin =>
    rw [worker_putWorker_self, Worker.isActive, hpc, hft]
    change s.activeThreadCount + -1 + 1 = s.activeThreadCount + 0
    omega
  | stopped hpc => rfl
  | enter hpc => simp [Worker.isActive, hpc, make, putFiber, putWorker]
  | rest hpc hfind => simp [Worker.isActive, hpc, putWorker]
  | setOut hpc hft hfin => simp [Worker.isActive, Worker.goto, hpc, hft, putWorker]
  | reuse hpc hft hcb => simp [Worker.isActive, hpc, hft, putFiber, putWorker]
  | create hpc hft hcb => simp [Worker.isActive, hpc, hft, make, putFiber, putWorker]
  | stop hpc hft hidle hterm => simp [Worker.isActive, Worker.goto, hpc, hft, putWorker]
  | setOutIdle hpc hft hidle hterm =>
    simp [Worker.isActive, Worker.goto, hpc, hft, countIdle, putWorker]
  | swapIn hpc hslot hexec => simp [Worker.isActive, Worker.goto, hpc, putFiber, putWorker]
  | leave hpc hslot hact => simp [Worker.isActive, Worker.goto, hpc, putFiber, putWorker]

end Frame

end Sylar.Scheduler
