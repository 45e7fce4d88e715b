import Sylar.Scheduler.Possession

/-! # No fiber on two threads

If fibers are scheduled and yield as `Allowed` says, a fiber that is about to run, runs or has just
run is held in one place only, and it is queued at most once. Without this proviso the check under
the lock is not enough.
-/
namespace Sylar.Scheduler
open Memory

variable {T C : Type}

/-- What the holder of a fiber relies on. Only a finished fiber of the queue may have several
holders: nobody will switch to it again. -/
def discipline : Discipline (T × Kind) Stage (Sheet C) where
  good x := x.queued ≤ 1 ∧ (0 < x.queued → x.made)
  ok p a x := x.made ∧
    match a with
    | .parked => match p.2 with
      | .fiber => x.fiber.state.Finished ∨ x.fiber.state ≠ .exec ∧ x.queued = 0
      | .callback => x.fiber.state = .init ∧ x.queued = 0
      | .idle => x.fiber.state ≠ .exec ∧ x.queued = 0
    | .resume => x.fiber.state ≠ .exec ∧ x.queued = 0 ∧ (p.2 = .fiber → ¬x.fiber.state.Finished)
    | .running => x.fiber.state = .exec ∧ (p.2 = .idle → x.queued = 0)
    | .back => (x.fiber.state = .exec ∨ x.queued = 0 ∨ x.fiber.state.Finished ∧ p.2 = .fiber) ∧
      (p.2 = .idle → x.queued = 0)
  shared p a x := p.2 = .fiber ∧ (a = .parked ∨ a = .back) ∧ x.fiber.state.Finished

def Safe (s : Scheduler T C) : Prop := s.ledger.Inv discipline

/-- Whoever holds a fiber that is queued and not executing shares it. -/
theorem shared_of_queued {p : T × Kind} {a : Stage} {x : Sheet C} (hok : discipline.ok p a x)
    (hexec : x.fiber.state ≠ .exec) (hqueued : x.queued ≠ 0) : discipline.shared p a x := by
  rcases p with ⟨t, k⟩
  rcases hok with ⟨-, hok⟩
  cases a with
  | parked =>
    cases k with
    | fiber =>
      rcases hok with hfin | ⟨-, hzero⟩
      · exact ⟨rfl, .inl rfl, hfin⟩
      · exact absurd hzero hqueued
    | callback => exact absurd hok.2 hqueued
    | idle => exact absurd hok.2 hqueued
  | resume => exact absurd hok.2.1 hqueued
  | running => exact absurd hok.1 hexec
  | back =>
    rcases hok.1 with h | hzero | ⟨hfin, hk⟩
    · exact absurd h hexec
    · exact absurd hzero hqueued
    · exact ⟨hk, .inr rfl, hfin⟩

/-- A shared holding does not depend on the queue. -/
theorem ok_of_shared {p : T × Kind} {a : Stage} {x : Sheet C} (hmade : x.made)
    (hshared : discipline.shared p a x) : discipline.ok p a x := by
  rcases p with ⟨t, k⟩
  rcases hshared with ⟨rfl, rfl | rfl, hfin⟩
  · exact ⟨hmade, .inl hfin⟩
  · refine ⟨hmade, .inr (.inr ⟨hfin, rfl⟩), ?_⟩
    intro hidle
    cases hidle

/-- A fiber does not yield to `READY` while it is queued, nor end while it is queued if it runs a
callback. -/
def MayLeave (k : Kind) (x : Sheet C) (b : Body) : Prop :=
  b = .yieldToReady ∨ k = .callback ∧ Ends x.fiber b → x.queued = 0

theorem allows_of_passes {t : T} {k : Kind} {a : Stage} {x x' : Sheet C} {stage : Option Stage}
    (hgood : (discipline : Discipline (T × Kind) Stage (Sheet C)).good x)
    (hok : discipline.ok (t, k) a x) (hpass : Passes MayLeave k a x stage x') :
    discipline.Allows (t, k) a x stage x' := by
  obtain ⟨hmade, hok⟩ := hok
  cases hpass with
  | setOut hfin =>
    obtain ⟨hexec, hqueued⟩ := hok.resolve_left hfin
    refine ⟨hgood, ?_, fun h => absurd h.2.2 hfin⟩
    rintro b ⟨⟩
    exact ⟨hmade, hexec, hqueued, fun _ => hfin⟩
  | reuse c =>
    refine ⟨hgood, ?_, fun h => nomatch h.1⟩
    rintro b ⟨⟩
    exact ⟨hmade, nofun, hok.2, nofun⟩
  | stop =>
    refine ⟨hgood, ?_, fun h => nomatch h.1⟩
    rintro b ⟨⟩
    exact ⟨hmade, hok⟩
  | setOutIdle =>
    refine ⟨hgood, ?_, fun h => nomatch h.1⟩
    rintro b ⟨⟩
    exact ⟨hmade, hok.1, hok.2, nofun⟩
  | swapIn =>
    refine ⟨hgood, ?_, fun h => by rcases h.2.1 with h | h <;> cases h⟩
    rintro b ⟨⟩
    exact ⟨hmade, rfl, fun _ => hok.2.1⟩
  | leave hmay hact =>
    refine ⟨hgood, ?_, fun h => by rcases h.2.1 with h | h <;> cases h⟩
    rintro b ⟨⟩
    refine ⟨hmade, ?_, hok.2⟩
    rcases act_state hact with hsame | ⟨hb, -⟩ | ⟨hfin, hends⟩
    · exact .inl (hsame.trans hok.1)
    · exact .inr (.inl (hmay (.inl hb)))
    · cases k with
      | fiber => exact .inr (.inr ⟨hfin, rfl⟩)
      | callback => exact .inr (.inl (hmay (.inr ⟨rfl, hends⟩)))
      | idle => exact .inr (.inl (hok.2 rfl))
  | requeue hready =>
    have hfin : ¬x.fiber.state.Finished := by
      rw [hready]
      decide
    have hzero : x.queued = 0 := by
      rcases hok.1 with hexec | hzero | ⟨hfinished, -⟩
      · rw [hready] at hexec
        cases hexec
      · exact hzero
      · exact absurd hfinished hfin
    exact ⟨⟨Nat.succ_le_succ (Nat.le_of_eq hzero), fun _ => hmade⟩, nofun, fun h => absurd h.2.2 hfin⟩
  | hold hfin => exact ⟨hgood, nofun, fun h => absurd h.2.2 hfin⟩
  | clear hfin =>
    refine ⟨hgood, ?_, fun h => nomatch h.1⟩
    rintro b ⟨⟩
    refine ⟨hmade, rfl, ?_⟩
    rcases hok.1 with hexec | hzero | ⟨-, hfiber⟩
    · exact absurd hexec (finished_ne_exec hfin)
    · exact hzero
    · cases hfiber
  | rest =>
    refine ⟨hgood, ?_, fun h => nomatch h.1⟩
    rintro b ⟨⟩
    exact ⟨hmade, nofun, hok.2 rfl⟩
  | finished hfin =>
    refine ⟨hgood, ?_, fun h => nomatch h.1⟩
    rintro b ⟨⟩
    exact ⟨hmade, finished_ne_exec hfin, hok.2 rfl⟩

theorem fair_discipline :
    Fair MayLeave (discipline : Discipline (T × Kind) Stage (Sheet C)) where
  queued _ h := h.2
  made _ _ _ h := h.1
  fresh _ := ⟨Nat.zero_le 1, fun _ => trivial⟩
  callback _ _ := ⟨trivial, nofun, rfl, nofun⟩
  idle _ := ⟨trivial, nofun, rfl⟩
  pass _ _ _ _ _ _ := allows_of_passes
  take t x hgood hpos hexec := by
    have hzero : x.taken.queued = 0 := Nat.sub_eq_zero_of_le hgood.1
    have hmade := hgood.2 hpos
    refine ⟨⟨Nat.le_succ_of_le (Nat.le_of_eq hzero), fun _ => hmade⟩, ⟨hmade, .inr ⟨hexec, hzero⟩⟩, ?_⟩
    intro q b hok
    have hshared := shared_of_queued hok hexec (Nat.pos_iff_ne_zero.mp hpos)
    exact ⟨ok_of_shared (x := x.taken) hmade hshared, hshared, rfl, .inl rfl, hshared.2.2⟩

section Queue

variable {s : Scheduler T C} {f : ℕ}

/-- The fiber exists and is not queued; whoever holds it executes it or has just done so, and is
not the idle loop; or it has finished and is no callback or idle fiber. -/
def MaySchedule (s : Scheduler T C) (f : ℕ) : Prop :=
  f < s.nextId ∧ s.queued f = 0 ∧ ∀ t k, (s.worker t).slot k = some f →
    k ≠ .idle ∧ ((s.worker t).pc = .running k ∨ (s.worker t).pc = .back k) ∧
        s.getState f = .exec ∨
      k = .fiber ∧ (s.getState f).Finished

theorem MaySchedule.ok (hmay : MaySchedule s f) (h : Safe s) {t : T} {k : Kind}
    (hslot : (s.worker t).slot k = some f) :
    discipline.ok (t, k) ((s.worker t).pc.stage k) { s.sheet f with queued := s.queued f + 1 } := by
  rcases hmay with ⟨hmade, -, hholders⟩
  rcases hholders t k hslot with ⟨hk, hpc, hexec⟩ | ⟨rfl, hfin⟩
  · have hidle : k = .idle → s.queued f + 1 = 0 := fun hidle => absurd hidle hk
    rcases hpc with hpc | hpc
    · rw [hpc, stage_running]
      exact ⟨hmade, hexec, hidle⟩
    · rw [hpc, stage_back]
      exact ⟨hmade, .inl hexec, hidle⟩
  · have hok := h.ok (t, .fiber) f _ (hold_eq hslot rfl)
    cases hstage : (s.worker t).pc.stage .fiber with
    | parked => exact ⟨hmade, .inl hfin⟩
    | back => exact ⟨hmade, .inr (.inr ⟨hfin, rfl⟩), nofun⟩
    | resume =>
      rw [hstage] at hok
      exact absurd hfin (hok.2.2.2 rfl)
    | running =>
      rw [hstage] at hok
      exact absurd hok.2.1 (finished_ne_exec hfin)

theorem scheduleNoLock_safe (h : Safe s) {task : Option (Task ℕ C)} (pin : Option T)
    (hmay : ∀ f, task = some (.fiber f) → MaySchedule s f) :
    Safe (scheduleNoLock task pin s) := by
  apply scheduleNoLock_inv h
  intro f hf
  have hf := hmay f hf
  refine ⟨⟨Nat.succ_le_succ (Nat.le_of_eq hf.2.1), fun _ => hf.1⟩, ?_⟩
  intro t k hslot
  exact ⟨hf.ok h hslot, id⟩

end Queue

/-- What the caller of `schedule(begin, end)` has to see to. -/
def MayScheduleAll : Scheduler T C → List (Option (Task ℕ C)) → Prop
  | _, [] => True
  | s, task :: tasks => (∀ f, task = some (.fiber f) → MaySchedule s f) ∧
      MayScheduleAll (scheduleNoLock task none s) tasks

/-- Fibers are scheduled with care, and a fiber does not yield to `READY` while it is queued, nor
end while it is queued if it runs a callback. -/
def Allowed (s : Scheduler T C) : Action T C → Prop
  | .thread t b => ∀ k f, (s.worker t).pc = .running k → (s.worker t).slot k = some f →
      b = .yieldToReady ∨ k = .callback ∧ Ends (s.fiberAt f) b → s.queued f = 0
  | .schedule task _ => ∀ f, task = some (.fiber f) → MaySchedule s f
  | .scheduleRange tasks => MayScheduleAll s tasks
  | .newFiber _ => True

theorem scheduleRange_safe {tasks : List (Option (Task ℕ C))} {s : Scheduler T C} (h : Safe s)
    (hmay : MayScheduleAll s tasks) :
    Safe (tasks.foldl (fun s task => scheduleNoLock task none s) s) := by
  induction tasks generalizing s with
  | nil => exact h
  | cons task tasks ih => exact ih (scheduleNoLock_safe h none hmay.1) hmay.2

theorem init_safe : Safe (init : Scheduler T C) := by
  constructor
  · intro f
    exact ⟨Nat.zero_le 1, fun hpos => absurd hpos (lt_irrefl 0)⟩
  · rintro ⟨t, k⟩ f a hp
    cases k <;> cases hp
  · rintro ⟨t, k⟩ q f a b hp
    cases k <;> cases hp

variable [DecidableEq T]

theorem Reachable.safe {s : Scheduler T C} (h : Reachable Allowed s) : Safe s := by
  apply h.invariant init_safe
  intro s a s' hsafe hallowed hrun
  cases a with
  | thread t b => exact fair_discipline.turn hsafe hallowed (step_turn hrun)
  | schedule task pin =>
    cases hrun
    exact scheduleNoLock_safe hsafe pin hallowed
  | scheduleRange tasks =>
    cases hrun
    exact scheduleRange_safe hsafe hallowed
  | newFiber cb =>
    cases hrun
    exact fair_discipline.make hsafe _

def Executes (s : Scheduler T C) (t : T) (f : ℕ) : Prop :=
  ∃ k, (s.worker t).pc = .running k ∧ (s.worker t).slot k = some f

theorem executes_on_one_thread {s : Scheduler T C} (h : Reachable Allowed s) :
    (∀ t t' f, Executes s t f → Executes s t' f → t = t') ∧
      ∀ t k s', (s.worker t).pc = .resume k → swapIn t k s ≠ .raised ⟨"m_state != EXEC"⟩ s' := by
  have hsafe := h.safe
  constructor
  · rintro t t' f ⟨k, hpc, hslot⟩ ⟨k', hpc', hslot'⟩
    have hhold : (s.worker t).hold k = some (f, .running) := hold_eq hslot (by simp [hpc])
    have hhold' : (s.worker t').hold k' = some (f, .running) := hold_eq hslot' (by simp [hpc'])
    have hsole := Ledger.Inv.sole (p := (t, k)) (q := (t', k')) hsafe hhold (by simp [discipline])
      hhold'
    exact (congrArg Prod.fst hsole).symm
  · intro t k s' hpc hraised
    rw [swapIn, Command.state_bind_apply] at hraised
    cases hslot : (s.worker t).slot k with
    | none => simp [hslot] at hraised
    | some f =>
      have hhold : (s.worker t).hold k = some (f, .resume) := hold_eq hslot (by simp [hpc])
      have hexec : s.getState f ≠ .exec := (hsafe.ok (t, k) f _ hhold).2.1
      simp [hslot, hexec, setState, setWorker] at hraised

theorem executes_on_one_thread_first : ∃ s : Scheduler Bool Unit,
    Reachable Allowed s ∧ Executes s true 4 ∧ ¬Executes s false 4 := by
  have h₀ : Reachable Allowed (init : Scheduler Bool Unit) := .init
  have h₁ := h₀.step (a := .thread true .finish) (by intro k f hpc; cases hpc) rfl
  have h₂ := h₁.step (a := .thread false .finish) (by intro k f hpc; cases hpc) rfl
  have h₃ := h₂.step (a := .newFiber (some ())) (by exact trivial) rfl
  have h₄ := h₃.step (a := .schedule (some (.fiber 4)) none) (by
    intro f hf
    cases hf
    refine ⟨by decide, rfl, ?_⟩
    intro t k hslot
    cases t <;> cases k <;> cases hslot) rfl
  have h₅ := h₄.step (a := .thread true .finish) (by intro k f hpc; cases hpc) rfl
  have h₆ := h₅.step (a := .thread true .finish) (by intro k f hpc; cases hpc) rfl
  have h₇ := h₆.step (a := .thread true .finish) (by intro k f hpc; cases hpc) rfl
  refine ⟨_, h₇, ⟨.fiber, rfl, rfl⟩, ?_⟩
  intro hother
  cases (executes_on_one_thread h₇).1 true false 4 ⟨.fiber, rfl, rfl⟩ hother

def twoThreads : List (Action Bool Unit) :=
  [.thread true .finish, .thread false .finish, .newFiber (some ())]

/-- The fiber is queued twice, and both threads dequeue it before either has switched to it. -/
def queuedTwice : List (Action Bool Unit) :=
  twoThreads ++ [.schedule (some (.fiber 4)) none, .schedule (some (.fiber 4)) none,
    .thread true .finish, .thread false .finish, .thread true .finish, .thread false .finish,
    .thread true .finish]

/-- The fiber schedules itself twice and yields to `READY`; the other thread switches to it, and
the first one takes it for a fiber that holds. -/
def scheduledItself : List (Action Bool Unit) :=
  twoThreads ++ [.schedule (some (.fiber 4)) none, .thread true .finish, .thread true .finish,
    .thread true .finish, .schedule (some (.fiber 4)) none, .schedule (some (.fiber 4)) none,
    .thread true .yieldToReady, .thread false .finish, .thread false .finish,
    .thread false .finish, .thread true .finish, .thread true .finish, .thread true .finish,
    .thread true .finish]

theorem executes_on_two_threads :
    (∃ s s' : Scheduler Bool Unit, Reachable (fun _ _ => True) s ∧
      step false .finish s = .raised ⟨"m_state != EXEC"⟩ s') ∧
    ∃ s : Scheduler Bool Unit, Reachable (fun _ _ => True) s ∧
      Executes s true 4 ∧ Executes s false 4 := by
  have hinit : Reachable (fun _ _ => True) (init : Scheduler Bool Unit) := .init
  constructor
  · exact ⟨_, _, hinit.runAll (l := queuedTwice) rfl, rfl⟩
  · exact ⟨_, hinit.runAll (l := scheduledItself) rfl, ⟨.fiber, rfl, rfl⟩, ⟨.fiber, rfl, rfl⟩⟩

end Sylar.Scheduler
