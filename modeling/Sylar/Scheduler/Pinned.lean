import Sylar.Scheduler.Lifecycle

/-! # Tasks for one thread

Beside the state runs a record of the thread that a fiber is meant for: the one it was scheduled
with, or the callback that it is running. The queue keeps the thread of an entry, but an entry that
the loop makes for a fiber that has yielded is for any thread.
-/
namespace Sylar.Scheduler
open Memory

variable {T C : Type}

/-- The thread may switch to the fiber without finding an entry for it. -/
def Worker.Reaches (w : Worker T C) (f : ℕ) : Prop :=
  ∃ k, w.slot k = some f ∧ (k = .idle ∨ k = .fiber ∧ w.pc = .dispatch ∨ w.pc = .resume k)

/-- Nobody but thread `t` can switch to the fiber as things are. -/
structure Confined (s : Scheduler T C) (t : T) (f : ℕ) : Prop where
  entries : ∀ e ∈ s.fibers, e.task = .fiber f → e.thread = some t
  holders : ∀ t', (s.worker t').Reaches f → t' = t

section Record

variable [DecidableEq T]

/-- The thread that a fiber is meant for, until its function ends. -/
abbrev Pins (T : Type) := ℕ → Option T

/-- The thread of the callback that a worker turns to. -/
def Worker.turnsTo (w : Worker T C) : Option (Option T) :=
  match w.pc, w.ft with
  | .dispatch, some ⟨pin, .cb _⟩ => some pin
  | _, _ => none

/-- The fiber whose function ends in the step of a thread. -/
def ending (s : Scheduler T C) (t : T) (b : Body) : Option ℕ :=
  match (s.worker t).pc with
  | .running k => ((s.worker t).slot k).filter fun f =>
      match act (s.fiberAt f) b with
      | .ok x => x.context = .ended
      | .error _ => false
  | _ => none

def repin (s : Scheduler T C) (pins : Pins T) : Action T C → Pins T
  | .schedule (some (.fiber f)) (some t) => Function.update pins f (some t)
  | .thread t b =>
    match (s.worker t).turnsTo with
    | some pin => Function.update pins ((s.worker t).cbFiber.getD s.nextId) pin
    | none =>
      match ending s t b with
      | some f => Function.update pins f none
      | none => pins
  | _ => pins

def pinned (a : Action T C) : Command Assertion (Scheduler T C × Pins T) Unit :=
  Command.focus Prod.fst (fun s' x => (s', repin x.1 x.2 a)) a.run

/-- A fiber that is meant for a thread does not yield to `READY`, and is scheduled for this thread
only; when it is scheduled for it at first, and when a function for it is started on a fiber that
is reused, no other thread can switch to it. -/
def Steady (x : Scheduler T C × Pins T) : Action T C → Prop
  | .thread t _ =>
    (∀ k f, k ≠ .idle → (x.1.worker t).pc = .back k → (x.1.worker t).slot k = some f →
      x.1.getState f = .ready → x.2 f = none) ∧
    ∀ t' f, (x.1.worker t).turnsTo = some (some t') → (x.1.worker t).cbFiber = some f →
      Confined x.1 t f
  | .schedule task pin => ∀ f, task = some (.fiber f) → f < x.1.nextId ∧
      (∀ t, x.2 f = some t → pin = some t) ∧ ∀ t, pin = some t → Confined x.1 t f
  | .scheduleRange tasks => ∀ f, some (.fiber f) ∈ tasks → f < x.1.nextId ∧ x.2 f = none
  | .newFiber _ => True

abbrev PinRun : Scheduler T C × Pins T → Prop :=
  Memory.Reachable (init, fun _ => none) pinned Steady

/-- What every step keeps. -/
structure Settled (s : Scheduler T C) (pins : Pins T) : Prop where
  held : ∀ t k f, (s.worker t).slot k = some f → f < s.nextId
  queue : ∀ e ∈ s.fibers, ∀ f, e.task = .fiber f → f < s.nextId
  made : ∀ f t, pins f = some t → f < s.nextId
  fits : ∀ t t' task, (s.worker t).pc = .dispatch → (s.worker t).ft = some ⟨some t', task⟩ →
    t' = t
  confined : ∀ f t, pins f = some t → Confined s t f

end Record

section Reaches

variable {s : Scheduler T C} {w : Worker T C} {t t' : T} {b : Body} {f : ℕ}

theorem turnsTo_eq_some {pin : Option T} :
    w.turnsTo = some pin ↔ w.pc = .dispatch ∧ ∃ c, w.ft = some ⟨pin, .cb c⟩ := by
  rcases w with ⟨pc, ft, cb, idle⟩
  cases pc with
  | dispatch =>
    rcases ft with _ | ⟨pin', f | c⟩
    · simp [Worker.turnsTo]
    · simp [Worker.turnsTo]
    · simp [Worker.turnsTo]
  | _ => simp [Worker.turnsTo]

/-- A fiber is meant for a thread because it was before, or because it gets a callback now. -/
theorem repin_thread {pins : Pins T} (hpin : repin s pins (.thread t b) f = some t') :
    (s.worker t).turnsTo = some (some t') ∧ (s.worker t).cbFiber.getD s.nextId = f ∨
      pins f = some t' ∧
        ∀ pin, (s.worker t).turnsTo = some pin → (s.worker t).cbFiber.getD s.nextId ≠ f := by
  rw [repin] at hpin
  cases hturns : (s.worker t).turnsTo with
  | some pin =>
    simp only [hturns] at hpin
    by_cases hf : (s.worker t).cbFiber.getD s.nextId = f
    · rw [hf, Function.update_self] at hpin
      exact .inl ⟨by rw [hpin], hf⟩
    · rw [Function.update_of_ne (Ne.symm hf)] at hpin
      exact .inr ⟨hpin, fun _ _ => hf⟩
  | none =>
    simp only [hturns] at hpin
    refine .inr ⟨?_, nofun⟩
    cases hend : ending s t b with
    | none =>
      simp only [hend] at hpin
      exact hpin
    | some g =>
      simp only [hend] at hpin
      by_cases hg : f = g
      · rw [hg, Function.update_self] at hpin
        cases hpin
      · rwa [Function.update_of_ne hg] at hpin

theorem reaches_drop {k : Kind} (h : (w.drop k).Reaches f) : w.Reaches f := by
  rcases h with ⟨k', hslot, hk⟩
  have hscan : (w.drop k).pc = .scan := by cases k <;> rfl
  rw [hscan] at hk
  refine ⟨k', slot_drop hslot, .inl ?_⟩
  simpa using hk

/-- A thread that goes on reaches the fibers that it reached, unless it is behind the lock. -/
theorem reaches_goto {pc : Pc} (h : (w.goto pc).Reaches f) (hpc : pc ≠ .dispatch)
    (hresume : ∀ k, pc = .resume k → k = .idle ∨ k = .fiber ∧ w.pc = .dispatch) :
    w.Reaches f := by
  rcases h with ⟨k, hslot, hk⟩
  rw [slot_goto] at hslot
  rcases hk with hidle | ⟨-, hdispatch⟩ | hres
  · exact ⟨k, hslot, .inl hidle⟩
  · exact absurd hdispatch hpc
  · rcases hresume k hres with hidle | hfiber
    · exact ⟨k, hslot, .inl hidle⟩
    · exact ⟨k, hslot, .inr (.inl hfiber)⟩

end Reaches

section Turns

variable [DecidableEq T] {s s' : Scheduler T C} {t t' : T} {b : Body} {k : Kind} {f g : ℕ}

theorem PutBack.reaches (h : PutBack t s k f s') (hr : (s'.worker t').Reaches g) :
    (s.worker t').Reaches g := by
  by_cases ht : t' = t
  · subst ht
    cases h with
    | requeue hk hready =>
      rw [worker_putWorker_self] at hr
      exact reaches_drop hr
    | hold hk hready hfin =>
      rw [worker_putWorker_self] at hr
      exact reaches_drop hr
    | forget hfin =>
      rw [worker_putWorker_self] at hr
      exact reaches_drop hr
    | _ =>
      rw [worker_putWorker_self] at hr
      exact reaches_goto hr nofun nofun
  · rwa [h.worker_of_ne ht] at hr

/-- How a thread comes to a fiber: by an entry that it may take, by making it, or by turning to
a callback. -/
theorem Turn.reaches (hturn : Turn t b s s') (hr : (s'.worker t').Reaches g) :
    (s.worker t').Reaches g ∨ t' = t ∧
      ((∃ pin, ⟨pin, .fiber g⟩ ∈ s.fibers ∧ (pin = none ∨ pin = some t)) ∨ s.nextId ≤ g ∨
        (s.worker t).cbFiber = some g ∧ ∃ pin, (s.worker t).turnsTo = some pin) := by
  by_cases ht : t' = t
  · subst ht
    cases hturn with
    | enter hpc =>
      rw [worker_putWorker_self] at hr
      rcases hr with ⟨k, hslot, hk⟩
      have hidle : k = .idle := by simpa using hk
      subst hidle
      cases hslot
      exact .inr ⟨rfl, .inr (.inl (Nat.le_succ _))⟩
    | rest hpc hfind =>
      rw [worker_putWorker_self] at hr
      rcases hr with ⟨k, hslot, rfl | ⟨rfl, -⟩ | hres⟩
      · exact .inl ⟨.idle, hslot, .inl rfl⟩
      · cases hslot
      · cases hres
    | take hpc hfind =>
      rename_i e
      rw [worker_putWorker_self] at hr
      rcases hr with ⟨k, hslot, rfl | ⟨rfl, -⟩ | hres⟩
      · exact .inl ⟨.idle, hslot, .inl rfl⟩
      · rcases e with ⟨pin, f | c⟩
        · cases hslot
          refine .inr ⟨rfl, .inl ⟨pin, List.mem_of_find?_eq_some hfind, ?_⟩⟩
          have hfits := List.find?_some hfind
          simp only [eligible, Bool.and_eq_true, Bool.or_eq_true, Option.isNone_iff_eq_none,
            decide_eq_true_eq] at hfits
          exact hfits.1
        · cases hslot
      · cases hres
    | setOut hpc hft hfin =>
      rw [worker_putWorker_self] at hr
      refine .inl (reaches_goto hr (by rintro ⟨⟩) ?_)
      rintro k ⟨⟩
      exact .inr ⟨rfl, hpc⟩
    | discard hpc hft hfin =>
      rw [worker_putWorker_self] at hr
      exact .inl (reaches_drop hr)
    | reuse hpc hft hcb =>
      rw [worker_putWorker_self] at hr
      rcases hr with ⟨k, hslot, rfl | ⟨rfl, -⟩ | hres⟩
      · exact .inl ⟨.idle, hslot, .inl rfl⟩
      · cases hslot
      · cases hres
        cases hslot
        exact .inr ⟨rfl, .inr (.inr ⟨hcb, _, turnsTo_eq_some.mpr ⟨hpc, _, hft⟩⟩)⟩
    | create hpc hft hcb =>
      rw [worker_putWorker_self] at hr
      rcases hr with ⟨k, hslot, rfl | ⟨rfl, -⟩ | hres⟩
      · exact .inl ⟨.idle, hslot, .inl rfl⟩
      · cases hslot
      · cases hres
        cases hslot
        exact .inr ⟨rfl, .inr (.inl le_rfl)⟩
    | stop hpc hft hidle hterm =>
      rw [worker_putWorker_self] at hr
      exact .inl (reaches_goto hr (by rintro ⟨⟩) (by rintro k ⟨⟩))
    | setOutIdle hpc hft hidle hterm =>
      rw [worker_putWorker_self] at hr
      refine .inl (reaches_goto hr (by rintro ⟨⟩) ?_)
      rintro k ⟨⟩
      exact .inl rfl
    | swapIn hpc hslot hexec =>
      rw [worker_putWorker_self] at hr
      exact .inl (reaches_goto hr (by rintro ⟨⟩) (by rintro k ⟨⟩))
    | leave hpc hslot hact =>
      rw [worker_putWorker_self] at hr
      exact .inl (reaches_goto hr (by rintro ⟨⟩) (by rintro k ⟨⟩))
    | settle hpc hslot hback =>
      have hold := hback.reaches hr
      rw [worker_countDown] at hold
      exact .inl hold
    | stopped hpc => exact .inl hr
  · rw [hturn.worker_of_ne ht] at hr
    exact .inl hr

/-- The only entry that the loop makes is for a fiber that has yielded to `READY`. -/
theorem Turn.mem_fibers (hturn : Turn t b s s') {e : FiberAndThread T C} (he : e ∈ s'.fibers) :
    e ∈ s.fibers ∨ ∃ k f, k ≠ .idle ∧ (s.worker t).pc = .back k ∧
      (s.worker t).slot k = some f ∧ s.getState f = .ready ∧ e = ⟨none, .fiber f⟩ := by
  cases hturn with
  | take hpc hfind => exact .inl (List.mem_of_mem_eraseP he)
  | settle hpc hslot hback =>
    rename_i k f
    cases hback with
    | requeue hk hready =>
      rw [getState_countDown] at hready
      have hmem : e ∈ s.fibers ∨ e = ⟨none, .fiber f⟩ := by
        simpa [scheduleNoLock, putWorker] using he
      rcases hmem with hold | rfl
      · exact .inl hold
      · exact .inr ⟨k, f, hk, hpc, hslot, hready, rfl⟩
    | _ => exact .inl (by simpa [putWorker, putFiber] using he)
  | _ => exact .inl he

theorem Turn.nextId_le (hturn : Turn t b s s') : s.nextId ≤ s'.nextId := by
  cases hturn with
  | enter hpc => exact Nat.le_add_right _ 2
  | create hpc hft hcb => exact Nat.le_succ _
  | settle hpc hslot hback => rw [hback.nextId, nextId_countDown]
  | _ => exact le_rfl

/-- Where the fibers of a thread come from. -/
theorem Turn.slot (hturn : Turn t b s s') (hslot : (s'.worker t').slot k = some f) :
    (s.worker t').slot k = some f ∨ (∃ e ∈ s.fibers, e.task = .fiber f) ∨ f < s'.nextId := by
  by_cases ht : t' = t
  · subst ht
    cases hturn with
    | enter hpc =>
      rw [worker_putWorker_self] at hslot
      cases k with
      | idle =>
        cases hslot
        exact .inr (.inr (Nat.lt_succ_self _))
      | _ => exact .inl hslot
    | rest hpc hfind =>
      rw [worker_putWorker_self] at hslot
      cases k with
      | fiber => cases hslot
      | _ => exact .inl hslot
    | take hpc hfind =>
      rename_i e
      rw [worker_putWorker_self] at hslot
      cases k with
      | fiber =>
        rcases e with ⟨pin, g | c⟩
        · cases hslot
          exact .inr (.inl ⟨_, List.mem_of_find?_eq_some hfind, rfl⟩)
        · cases hslot
      | _ => exact .inl hslot
    | discard hpc hft hfin =>
      rw [worker_putWorker_self] at hslot
      exact .inl (slot_drop hslot)
    | reuse hpc hft hcb =>
      rw [worker_putWorker_self] at hslot
      cases k with
      | fiber => cases hslot
      | callback =>
        cases hslot
        exact .inl hcb
      | idle => exact .inl hslot
    | create hpc hft hcb =>
      rw [worker_putWorker_self] at hslot
      cases k with
      | fiber => cases hslot
      | callback =>
        cases hslot
        exact .inr (.inr (Nat.lt_succ_self _))
      | idle => exact .inl hslot
    | settle hpc hslot' hback =>
      have hold := hback.slot.2 k f hslot
      rw [worker_countDown] at hold
      exact .inl hold
    | stopped hpc => exact .inl hslot
    | _ =>
      rw [worker_putWorker_self, slot_goto] at hslot
      exact .inl hslot
  · rw [hturn.worker_of_ne ht] at hslot
    exact .inl hslot

/-- An entry that a thread has taken is for this thread, if it is for any. -/
theorem Turn.fits (hturn : Turn t b s s')
    (h : ∀ u u' task, (s.worker u).pc = .dispatch →
      (s.worker u).ft = some ⟨some u', task⟩ → u' = u)
    {u u' : T} {task : Task ℕ C} (hpc' : (s'.worker u).pc = .dispatch)
    (hft' : (s'.worker u).ft = some ⟨some u', task⟩) : u' = u := by
  by_cases ht : u = t
  · subst ht
    cases hturn with
    | rest hpc hfind =>
      rw [worker_putWorker_self] at hft'
      cases hft'
    | take hpc hfind =>
      rw [worker_putWorker_self] at hft'
      cases hft'
      have hfits := List.find?_some hfind
      simp only [eligible, Bool.and_eq_true, Bool.or_eq_true, Option.isNone_some,
        decide_eq_true_eq] at hfits
      rcases hfits.1 with hnone | hsame
      · cases hnone
      · cases hsame
        rfl
    | settle hpc hslot hback =>
      rw [hback.slot.1] at hpc'
      cases hpc'
    | stopped hpc => exact h u u' task hpc' hft'
    | _ =>
      rw [worker_putWorker_self] at hpc'
      cases hpc'
  · rw [hturn.worker_of_ne ht] at hpc' hft'
    exact h u u' task hpc' hft'

end Turns

section Steps

variable [DecidableEq T] {s s' : Scheduler T C} {pins : Pins T} {t t' : T} {b : Body} {f : ℕ}

theorem Turn.callback (hturn : Turn t b s s') {pin : Option T}
    (hturns : (s.worker t).turnsTo = some pin) :
    (s'.worker t).slot .callback = some ((s.worker t).cbFiber.getD s.nextId) := by
  rcases turnsTo_eq_some.mp hturns with ⟨hpc, c, hft⟩
  cases hturn with
  | reuse hpc' hft' hcb =>
    rw [worker_putWorker_self, hcb]
    rfl
  | create hpc' hft' hcb =>
    rw [worker_putWorker_self, hcb]
    rfl
  | _ => simp_all

omit [DecidableEq T] in
/-- Nobody can switch to the fiber for a callback before the callback has got it. -/
theorem Settled.callback (h : Settled s pins) (hsteady : Steady (s, pins) (.thread t b))
    (hturns : (s.worker t).turnsTo = some (some t')) :
    t' = t ∧ Confined s t ((s.worker t).cbFiber.getD s.nextId) := by
  rcases turnsTo_eq_some.mp hturns with ⟨hpc, c, hft⟩
  refine ⟨h.fits t t' _ hpc hft, ?_⟩
  cases hcb : (s.worker t).cbFiber with
  | some f => exact hsteady.2 t' f hturns hcb
  | none =>
    constructor
    · intro e he hf
      exact absurd (h.queue e he _ hf) (Nat.lt_irrefl _)
    · rintro u ⟨k, hslot, -⟩
      exact absurd (h.held u k _ hslot) (Nat.lt_irrefl _)

/-- What a step of thread `t` leaves of the confinement to a thread: it must not queue the fiber
anew, and what it comes to must be for it. -/
theorem Confined.turn (hconf : Confined s t' f) (hturn : Turn t b s s')
    (hready : ∀ k, k ≠ .idle → (s.worker t).pc = .back k → (s.worker t).slot k = some f →
      s.getState f ≠ .ready)
    (hnew : s.nextId ≤ f ∨ (s.worker t).cbFiber = some f ∧
      (∃ pin, (s.worker t).turnsTo = some pin) → t = t') : Confined s' t' f := by
  constructor
  · intro e he hf
    rcases hturn.mem_fibers he with hmem | ⟨k, g, hk, hpc, hslot, hst, rfl⟩
    · exact hconf.entries e hmem hf
    · cases hf
      exact absurd hst (hready k hk hpc hslot)
  · intro u hr
    rcases hturn.reaches hr with hr | ⟨rfl, ⟨pin, hmem, hpin⟩ | hnew'⟩
    · exact hconf.holders u hr
    · have hthread := hconf.entries _ hmem rfl
      rcases hpin with rfl | rfl
      · cases hthread
      · cases hthread
        rfl
    · exact hnew hnew'

theorem Settled.turn (h : Settled s pins) (hsteady : Steady (s, pins) (.thread t b))
    (hturn : Turn t b s s') : Settled s' (repin s pins (.thread t b)) := by
  have hnext := hturn.nextId_le
  have hheld : ∀ t' k f, (s'.worker t').slot k = some f → f < s'.nextId := by
    intro t' k f hslot
    rcases hturn.slot hslot with hold | ⟨e, he, hf⟩ | hnew
    · exact Nat.lt_of_lt_of_le (h.held t' k f hold) hnext
    · exact Nat.lt_of_lt_of_le (h.queue e he f hf) hnext
    · exact hnew
  refine ⟨hheld, ?_, ?_, ?_, ?_⟩
  · intro e he f hf
    rcases hturn.mem_fibers he with hold | ⟨k, g, -, -, hslot, -, rfl⟩
    · exact Nat.lt_of_lt_of_le (h.queue e hold f hf) hnext
    · cases hf
      exact Nat.lt_of_lt_of_le (h.held t k f hslot) hnext
  · intro f t' hpin
    rcases repin_thread hpin with ⟨hturns, rfl⟩ | ⟨hold, -⟩
    · exact hheld t .callback _ (hturn.callback hturns)
    · exact Nat.lt_of_lt_of_le (h.made f t' hold) hnext
  · intro u u' task hpc hft
    exact hturn.fits h.fits hpc hft
  · intro f t' hpin
    rcases repin_thread hpin with ⟨hturns, rfl⟩ | ⟨hold, hother⟩
    · rcases h.callback hsteady hturns with ⟨rfl, hconf⟩
      refine hconf.turn hturn ?_ fun _ => rfl
      intro k hk hpc
      rw [(turnsTo_eq_some.mp hturns).1] at hpc
      cases hpc
    · apply (h.confined f t' hold).turn hturn
      · intro k hk hpc hslot hst
        have hnone : pins f = none := hsteady.1 k f hk hpc hslot hst
        rw [hold] at hnone
        cases hnone
      · rintro (hge | ⟨hcb, pin, hturns⟩)
        · exact absurd (h.made f t' hold) (Nat.not_lt.mpr hge)
        · refine absurd ?_ (hother pin hturns)
          rw [hcb]
          rfl

end Steps

section Queue

variable {s : Scheduler T C} {pins pins' : Pins T} {t : T} {f : ℕ}

theorem mem_scheduleNoLock {task : Option (Task ℕ C)} {pin : Option T}
    {e : FiberAndThread T C} (he : e ∈ (scheduleNoLock task pin s).fibers) :
    e ∈ s.fibers ∨ task = some e.task ∧ e.thread = pin := by
  rcases List.mem_append.mp he with hold | hnew
  · exact .inl hold
  · cases task with
    | none => cases hnew
    | some task =>
      rw [Option.map_some, Option.toList_some, List.mem_singleton] at hnew
      subst hnew
      exact .inr ⟨rfl, rfl⟩

theorem Settled.scheduleNoLock (h : Settled s pins) {task : Option (Task ℕ C)} (pin : Option T)
    (hmade : ∀ f, task = some (.fiber f) → f < s.nextId)
    (hpins : ∀ f t, pins' f = some t → f < s.nextId ∧ Confined s t f ∧
      (task = some (.fiber f) → pin = some t)) :
    Settled (scheduleNoLock task pin s) pins' := by
  refine ⟨h.held, ?_, fun f t hpin => (hpins f t hpin).1, h.fits, ?_⟩
  · intro e he f hf
    rcases mem_scheduleNoLock he with hold | ⟨htask, -⟩
    · exact h.queue e hold f hf
    · rw [hf] at htask
      exact hmade f htask
  · intro f t hpin
    rcases hpins f t hpin with ⟨-, hconf, hsame⟩
    refine ⟨?_, hconf.holders⟩
    intro e he hf
    rcases mem_scheduleNoLock he with hold | ⟨htask, hthread⟩
    · exact hconf.entries e hold hf
    · rw [hf] at htask
      rw [hthread]
      exact hsame htask

theorem Settled.scheduleRange (h : Settled s pins) {tasks : List (Option (Task ℕ C))}
    (hfree : ∀ f, some (.fiber f) ∈ tasks → f < s.nextId ∧ pins f = none) :
    Settled (tasks.foldl (fun s task => Scheduler.scheduleNoLock task none s) s) pins := by
  induction tasks generalizing s with
  | nil => exact h
  | cons task tasks ih =>
    rw [List.foldl_cons]
    apply ih
    · apply h.scheduleNoLock
      · intro f hf
        exact (hfree f (List.mem_cons.mpr (.inl hf.symm))).1
      · intro f t hpin
        refine ⟨h.made f t hpin, h.confined f t hpin, fun hf => ?_⟩
        rw [(hfree f (List.mem_cons.mpr (.inl hf.symm))).2] at hpin
        cases hpin
    · exact fun f hf => hfree f (List.mem_cons_of_mem _ hf)

theorem Settled.make (h : Settled s pins) (x : Fiber C) : Settled (s.make x) pins where
  held t k f hslot := Nat.lt_succ_of_lt (h.held t k f hslot)
  queue e he f hf := Nat.lt_succ_of_lt (h.queue e he f hf)
  made f t hpin := Nat.lt_succ_of_lt (h.made f t hpin)
  fits := h.fits
  confined f t hpin := ⟨(h.confined f t hpin).entries, (h.confined f t hpin).holders⟩

/-- A fiber that is scheduled for a thread is meant for it from then on. -/
theorem Settled.schedule (h : Settled s pins) {task : Option (Task ℕ C)} {pin : Option T}
    (hsteady : Steady (s, pins) (.schedule task pin)) :
    Settled (Scheduler.scheduleNoLock task pin s) (repin s pins (.schedule task pin)) := by
  apply h.scheduleNoLock pin fun f hf => (hsteady f hf).1
  intro f t hpin
  rcases task with _ | g | c
  · exact ⟨h.made f t hpin, h.confined f t hpin, nofun⟩
  · rcases hsteady g rfl with ⟨hlt, hsame, hconf⟩
    cases pin with
    | none =>
      refine ⟨h.made f t hpin, h.confined f t hpin, ?_⟩
      rintro ⟨⟩
      exact hsame t hpin
    | some u =>
      rw [repin] at hpin
      by_cases hf : f = g
      · subst hf
        rw [Function.update_self] at hpin
        cases hpin
        exact ⟨hlt, hconf t rfl, fun _ => rfl⟩
      · rw [Function.update_of_ne hf] at hpin
        refine ⟨h.made f t hpin, h.confined f t hpin, ?_⟩
        rintro ⟨⟩
        exact absurd rfl hf
  · exact ⟨h.made f t hpin, h.confined f t hpin, nofun⟩

end Queue

section Runs

variable [DecidableEq T] {s : Scheduler T C} {pins : Pins T}

theorem PinRun.settled {x : Scheduler T C × Pins T} (hreach : PinRun x) : Settled x.1 x.2 := by
  apply hreach.invariant
  · refine ⟨?_, nofun, nofun, nofun, nofun⟩
    intro t k f hslot
    cases k <;> cases hslot
  · intro x a x' h hsteady hrun
    rcases Command.focus_eq_done.mp hrun with ⟨s', hact, rfl⟩
    cases a with
    | thread t b => exact h.turn hsteady (step_turn hact)
    | schedule task pin =>
      cases hact
      exact h.schedule hsteady
    | scheduleRange tasks =>
      cases hact
      exact h.scheduleRange hsteady
    | newFiber cb =>
      cases hact
      exact h.make _

/-- In every run in which tasks that were scheduled for a thread do not yield to `READY`, and are
not scheduled for others, a thread that switches to such a task is the one it was scheduled for. -/
theorem switches_where_pinned (hreach : PinRun (s, pins)) {t t' : T} {k : Kind} {f : ℕ}
    (hpc : (s.worker t).pc = .resume k) (hslot : (s.worker t).slot k = some f)
    (hpin : pins f = some t') : t = t' :=
  (hreach.settled.confined f t' hpin).holders t ⟨k, hslot, .inr (.inr hpc)⟩

/-- A callback for the first of two threads, about to be started. -/
theorem switches_where_pinned_first : ∃ (s : Scheduler Bool Unit) (pins : Pins Bool),
    PinRun (s, pins) ∧ (s.worker true).pc = .resume .callback ∧ pins 4 = some true ∧
      ∀ t, (s.worker t).pc = .resume .callback → (s.worker t).slot .callback = some 4 →
        t = true := by
  have h₀ : PinRun ((init, fun _ => none) : Scheduler Bool Unit × Pins Bool) := .init
  have h₁ := h₀.step (a := .thread true .finish)
    (by exact ⟨by rintro k f - ⟨⟩, by rintro t f ⟨⟩⟩) rfl
  have h₂ := h₁.step (a := .thread false .finish)
    (by exact ⟨by rintro k f - ⟨⟩, by rintro t f ⟨⟩⟩) rfl
  have h₃ := h₂.step (a := .schedule (some (.cb ())) (some true)) (by rintro f ⟨⟩) rfl
  have h₄ := h₃.step (a := .thread true .finish)
    (by exact ⟨by rintro k f - ⟨⟩, by rintro t f ⟨⟩⟩) rfl
  have h₅ := h₄.step (a := .thread true .finish)
    (by exact ⟨by rintro k f - ⟨⟩, by rintro t f - ⟨⟩⟩) rfl
  refine ⟨_, _, h₅, rfl, rfl, ?_⟩
  intro t hpc hslot
  exact switches_where_pinned h₅ hpc hslot rfl

/-- A callback for the first thread yields to `READY` once. -/
def yieldingCallback : List (Action Bool Unit) :=
  [.thread true .finish, .thread false .finish, .schedule (some (.cb ())) (some true),
    .thread true .finish, .thread true .finish, .thread true .finish, .thread true .yieldToReady,
    .thread true .finish, .thread false .finish, .thread false .finish]

/-- The second thread goes on with it. -/
theorem pin_lost_after_yield : ∃ (s : Scheduler Bool Unit) (pins : Pins Bool),
    runAll pinned yieldingCallback (init, fun _ => none) = .done () (s, pins) ∧
      pins 4 = some true ∧ (s.worker false).pc = .resume .fiber ∧
      (s.worker false).slot .fiber = some 4 := by
  have hseen : (runAll pinned yieldingCallback (init, fun _ => none)).returned.map (fun x =>
      (x.2 4, (x.1.worker false).pc, (x.1.worker false).slot .fiber)) =
        some (some true, .resume .fiber, some 4) := by
    decide +kernel
  rcases Option.map_eq_some_iff.mp hseen with ⟨x, hrun, hx⟩
  rw [Prod.mk.injEq, Prod.mk.injEq] at hx
  rcases Outcome.returned_eq_some.mp hrun with ⟨u, hrun⟩
  exact ⟨x.1, x.2, hrun, hx⟩

end Runs

end Sylar.Scheduler
