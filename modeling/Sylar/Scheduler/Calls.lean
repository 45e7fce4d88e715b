import Sylar.Memory.Census
import Sylar.Scheduler.Ownership

/-! # What becomes of a callback

Beside the state runs a record of the callbacks that were queued, of the fibers that were made for
callbacks, and of the functions that were started on these fibers, with the thread. Every callback
that was queued is in the queue, with a thread that has not started it yet, or started.
-/
namespace Sylar.Scheduler
open Memory

variable {T C : Type}

structure History (T C : Type) where
  placed : List C
  made : List ℕ
  started : List (T × C)
deriving DecidableEq, Repr

def callOf : Option (Task ℕ C) → Option C
  | some (.cb c) => some c
  | _ => none

/-- The function that a switch to the fiber starts. -/
def Fiber.starts (x : Fiber C) : Option C :=
  match x.context, x.cb with
  | .fresh, some (.user c) => some c
  | _, _ => none

/-- What a thread has started when it switches to its fiber. -/
def startedBy (s : Scheduler T C) (h : History T C) (t : T) (k : Kind) : Option C :=
  ((s.worker t).slot k).bind fun f => if f ∈ h.made then (s.fiberAt f).starts else none

def record (s : Scheduler T C) (h : History T C) : Action T C → History T C
  | .schedule task _ => { h with placed := h.placed ++ (callOf task).toList }
  | .scheduleRange tasks => { h with placed := h.placed ++ tasks.filterMap callOf }
  | .newFiber _ => h
  | .thread t _ =>
    match (s.worker t).pc, (s.worker t).ft, (s.worker t).cbFiber with
    | .dispatch, some ⟨_, .cb _⟩, none => { h with made := s.nextId :: h.made }
    | .resume k, _, _ =>
      { h with started := h.started ++ ((startedBy s h t k).map (Prod.mk t)).toList }
    | _, _, _ => h

/-- What the caller of `schedule(begin, end)` has to see to. -/
def MayQueueAll : Scheduler T C → List (Option (Task ℕ C)) → Prop
  | _, [] => True
  | s, task :: tasks => (∀ f, task = some (.fiber f) → MayQueue s f) ∧
      MayQueueAll (scheduleNoLock task none s) tasks

/-- The fiber of a callback is scheduled only while it executes, and is not queued when it yields
to `READY` or ends. -/
def Careful (s : Scheduler T C) : Action T C → Prop
  | .thread t b => ∀ f, (s.worker t).pc = .running .callback → (s.worker t).cbFiber = some f →
      b = .yieldToReady ∨ Ends (s.fiberAt f) b → s.queued f = 0
  | .schedule task _ => ∀ f, task = some (.fiber f) → MayQueue s f
  | .scheduleRange tasks => MayQueueAll s tasks
  | .newFiber _ => True

/-- The entry is for any thread or for this one, and is no fiber that executes. -/
def Fits (s : Scheduler T C) (t : T) (e : FiberAndThread T C) : Prop :=
  (e.thread = none ∨ e.thread = some t) ∧ ∀ f, e.task = .fiber f → s.getState f ≠ .exec

variable [DecidableEq T]

def recorded (a : Action T C) : Command Assertion (Scheduler T C × History T C) Unit :=
  Command.focus Prod.fst (fun s' x => (s', record x.1 x.2 a)) a.run

abbrev Recorded (allowed : Scheduler T C → Action T C → Prop) :
    Scheduler T C × History T C → Prop :=
  Memory.Reachable (init, ⟨[], [], []⟩) recorded fun x a => allowed x.1 a

/-- The callback that a thread has taken and not started. -/
def calling (s : Scheduler T C) (t : T) : Option C :=
  match (s.worker t).pc with
  | .dispatch => (s.worker t).ft.bind fun e => callOf (some e.task)
  | .resume .callback => (s.worker t).cbFiber.bind fun f => (s.fiberAt f).starts
  | _ => none

section Turns

variable {s s' : Scheduler T C} {t : T} {b : Body} {k : Kind} {f : ℕ}

theorem eligible_iff {e : FiberAndThread T C} : s.eligible t e = true ↔ Fits s t e := by
  rw [eligible, Fits, Bool.and_eq_true, Bool.or_eq_true, Option.isNone_iff_eq_none,
    decide_eq_true_iff]
  rcases e with ⟨pin, f | c⟩ <;> simp

/-- A thread takes the first entry that fits. -/
theorem take_first (hrun : take t s = .done () s') :
    ((s'.worker t).ft = none ∧ s'.fibers = s.fibers ∧ ∀ e ∈ s.fibers, ¬Fits s t e) ∨
      ∃ skipped e rest, s.fibers = skipped ++ e :: rest ∧ (∀ e' ∈ skipped, ¬Fits s t e') ∧
        Fits s t e ∧ (s'.worker t).ft = some e ∧ s'.fibers = skipped ++ rest := by
  rw [take, Command.state_bind_apply] at hrun
  cases hfind : s.fibers.find? (s.eligible t) with
  | none =>
    simp only [hfind] at hrun
    cases hrun
    refine .inl ⟨by simp [putWorker], rfl, ?_⟩
    intro e he
    rw [← eligible_iff]
    exact List.find?_eq_none.mp hfind e he
  | some e =>
    simp only [hfind] at hrun
    cases hrun
    obtain ⟨hfits, skipped, rest, hsplit, hnot⟩ := List.find?_eq_some_iff_append.mp hfind
    refine .inr ⟨skipped, e, rest, hsplit, ?_, eligible_iff.mp hfits, by simp [putWorker], ?_⟩
    · intro e' he'
      rw [← eligible_iff]
      simpa using hnot e' he'
    · change s.fibers.eraseP (s.eligible t) = _
      rw [hsplit, List.eraseP_append_right _ (by simpa using hnot), List.eraseP_cons_of_pos hfits]

theorem cbFiber_putWorker {w : Worker T C} {c : Option ℕ} (h : w.cbFiber = c) :
    ((s.putWorker t w).worker t).cbFiber = c := by
  rw [worker_putWorker_self, h]

theorem PutBack.cbFiber (h : PutBack t s k f s') :
    (s'.worker t).cbFiber = (s.worker t).cbFiber ∨
      k = .callback ∧ (s'.worker t).cbFiber = none := by
  cases h with
  | requeue hk hready =>
    cases k with
    | fiber => exact .inl (cbFiber_putWorker rfl)
    | callback => exact .inr ⟨rfl, cbFiber_putWorker rfl⟩
    | idle => exact absurd rfl hk
  | hold hk hready hfin =>
    cases k with
    | fiber => exact .inl (cbFiber_putWorker rfl)
    | callback => exact .inr ⟨rfl, cbFiber_putWorker rfl⟩
    | idle => exact absurd rfl hk
  | _ => exact .inl (cbFiber_putWorker rfl)

theorem Turn.made (hturn : Turn t b s s') (h : History T C) :
    (record s h (.thread t b)).made = h.made ∧ s.nextId ≤ s'.nextId ∨
      (record s h (.thread t b)).made = s.nextId :: h.made ∧ s'.nextId = s.nextId + 1 ∧
        (s'.worker t).cbFiber = some s.nextId := by
  cases hturn with
  | create hpc hft hcb =>
    exact .inr ⟨by simp [record, hpc, hft, hcb], rfl, cbFiber_putWorker rfl⟩
  | reuse hpc hft hcb => exact .inl ⟨by simp [record, hpc, hft, hcb], le_refl _⟩
  | setOut hpc hft hfin => exact .inl ⟨by simp [record, hpc, hft], le_refl _⟩
  | discard hpc hft hfin => exact .inl ⟨by simp [record, hpc, hft], le_refl _⟩
  | stop hpc hft hidle hterm => exact .inl ⟨by simp [record, hpc, hft], le_refl _⟩
  | setOutIdle hpc hft hidle hterm => exact .inl ⟨by simp [record, hpc, hft], le_refl _⟩
  | settle hpc hslot hback =>
    exact .inl ⟨by simp [record, hpc], by rw [hback.nextId, nextId_countDown]⟩
  | enter hpc => exact .inl ⟨by simp [record, hpc], Nat.le_add_right s.nextId 2⟩
  | rest hpc hfind => exact .inl ⟨by simp [record, hpc], le_refl _⟩
  | take hpc hfind => exact .inl ⟨by simp [record, hpc], le_refl _⟩
  | swapIn hpc hslot hexec => exact .inl ⟨by simp [record, hpc], le_refl _⟩
  | leave hpc hslot hact => exact .inl ⟨by simp [record, hpc], le_refl _⟩
  | stopped hpc => exact .inl ⟨by simp [record, hpc], le_refl _⟩

/-- A thread lets go of its callback fiber only behind a switch to it. -/
theorem Turn.cbFiber (h : Turn t b s s') :
    (s'.worker t).cbFiber = (s.worker t).cbFiber ∨
      (s.worker t).pc = .back .callback ∧ (s'.worker t).cbFiber = none ∨
      (s.worker t).cbFiber = none ∧ (s'.worker t).cbFiber = some s.nextId ∧ ∀ h : History T C,
        (record s h (.thread t b)).made = s.nextId :: h.made := by
  cases h with
  | create hpc hft hcb =>
    refine .inr (.inr ⟨hcb, by rw [worker_putWorker_self], ?_⟩)
    intro h
    simp [record, hpc, hft, hcb]
  | reuse hpc hft hcb => exact .inl (by rw [worker_putWorker_self, hcb])
  | settle hpc hslot hback =>
    rcases hback.cbFiber with hsame | ⟨rfl, hnone⟩
    · exact .inl (by rw [hsame, worker_countDown])
    · exact .inr (.inl ⟨hpc, hnone⟩)
  | stopped hpc => exact .inl rfl
  | _ => exact .inl (cbFiber_putWorker rfl)

theorem PutBack.context (h : PutBack t s k f s') {g : ℕ}
    (hfresh : (s'.fiberAt g).context = .fresh) :
    (s.fiberAt g).context = .fresh ∨ k = .callback ∧ (s'.worker t).cbFiber = (s.worker t).cbFiber ∧
      g = f := by
  by_cases hg : g = f
  · subst hg
    cases h with
    | requeue hk hready => exact .inl hfresh
    | hold hk hready hfin => exact .inl (by simpa [putWorker, putFiber] using hfresh)
    | forget hfin => exact .inl hfresh
    | clear hfin => exact .inr ⟨rfl, cbFiber_putWorker rfl, rfl⟩
    | rest hfin => exact .inl (by simpa [putWorker, putFiber] using hfresh)
    | finished hfin => exact .inl hfresh
  · rw [h.fiberAt_of_ne hg] at hfresh
    exact .inl hfresh

/-- A fiber becomes fresh as the callback fiber of the thread. -/
theorem Turn.context (h : Turn t b s s') {g : ℕ} (hlt : g < s.nextId)
    (hfresh : (s'.fiberAt g).context = .fresh) :
    (s.fiberAt g).context = .fresh ∨ (s'.worker t).cbFiber = some g := by
  by_cases hg : ∀ k, (s.worker t).slot k ≠ some g
  · rw [h.fiberAt_of_ne hlt hg] at hfresh
    exact .inl hfresh
  cases h with
  | enter hpc =>
    rw [← fiberAt_make_of_lt hlt .main, ← fiberAt_make_of_lt (s := s.make .main)
      (Nat.lt_succ_of_lt hlt) .idle]
    exact .inl hfresh
  | create hpc hft hcb =>
    rw [← fiberAt_make_of_lt hlt]
    exact .inl hfresh
  | reuse hpc hft hcb =>
    rename_i f
    by_cases hf : g = f
    · exact .inr (by rw [worker_putWorker_self, hf])
    · rw [← fiberAt_putFiber_of_ne hf]
      exact .inl hfresh
  | swapIn hpc hslot hexec =>
    rename_i f
    by_cases hf : g = f
    · subst hf
      exact .inl (by simpa [putWorker, putFiber] using hfresh)
    · rw [← fiberAt_putFiber_of_ne hf]
      exact .inl hfresh
  | leave hpc hslot hact =>
    rename_i f x
    by_cases hf : g = f
    · subst hf
      have hx : x.context = .fresh := by simpa [putWorker, putFiber] using hfresh
      exact absurd hx (act_context hact)
    · rw [← fiberAt_putFiber_of_ne hf]
      exact .inl hfresh
  | settle hpc hslot hback =>
    rcases hback.context hfresh with hold | ⟨rfl, hcb, rfl⟩
    · rw [fiberAt_countDown] at hold
      exact .inl hold
    · rw [worker_countDown] at hcb
      exact .inr (hcb.trans hslot)
  | _ => exact .inl hfresh

end Turns

section Balance

variable {s s' : Scheduler T C} {t : T} {b : Body} {k : Kind} {f : ℕ} {h : History T C}

theorem PutBack.calling (hback : PutBack t s k f s') : s'.calling t = none := by
  cases hback with
  | requeue hk hready => cases k <;> simp [Scheduler.calling, Worker.drop]
  | hold hk hready hfin => cases k <;> simp [Scheduler.calling, Worker.drop]
  | _ => simp [Scheduler.calling, Worker.drop, Worker.goto]

omit [DecidableEq T]

theorem record_started (h : History T C) (hpc : ∀ k, (s.worker t).pc ≠ .resume k) (b : Body) :
    (record s h (.thread t b)).started = h.started := by
  rw [record]
  split
  · rfl
  · rename_i hk
    exact absurd hk (hpc _)
  · rfl

theorem record_started_resume (h : History T C) (hpc : (s.worker t).pc = .resume k) (b : Body) :
    (record s h (.thread t b)).started =
      h.started ++ ((startedBy s h t k).map (Prod.mk t)).toList := by
  rw [record, hpc]

theorem calling_congr (hw : s'.worker t = s.worker t)
    (hf : ∀ f, (s.worker t).cbFiber = some f → s'.fiberAt f = s.fiberAt f) :
    s'.calling t = s.calling t := by
  rw [calling, calling, hw]
  cases hcb : (s.worker t).cbFiber with
  | none => rfl
  | some f => rw [Option.bind_some, Option.bind_some, hf f hcb]

theorem mem_record_made (hf : f ∈ h.made) (t : T) (b : Body) :
    f ∈ (record s h (.thread t b)).made := by
  rw [record]
  split
  · exact List.mem_cons_of_mem _ hf
  · exact hf
  · exact hf

/-- The callback that a thread has taken is what its next switch starts. -/
theorem startedBy_callback (hkept : ∀ f, (s.worker t).cbFiber = some f → f ∈ h.made)
    (hpc : (s.worker t).pc = .resume .callback) : startedBy s h t .callback = s.calling t := by
  rw [startedBy, calling, hpc]
  change (s.worker t).cbFiber.bind _ = _
  cases hcb : (s.worker t).cbFiber with
  | none => rfl
  | some f => exact if_pos (hkept f hcb)

theorem startedBy_eq_none (howned : Owned s)
    (hfresh : ∀ f ∈ h.made, (s.fiberAt f).context = .fresh → ∃ t, (s.worker t).cbFiber = some f)
    (hk : k ≠ .callback) : startedBy s h t k = none := by
  rw [startedBy]
  cases hslot : (s.worker t).slot k with
  | none => rfl
  | some f =>
    rw [Option.bind_some]
    split_ifs with hmade
    · cases hcontext : (s.fiberAt f).context with
      | fresh =>
        obtain ⟨t', hcb⟩ := hfresh f hmade hcontext
        have hsole := howned.sole hcb (p := (t, k)) hslot
        exact absurd (congrArg Prod.snd hsole) hk
      | inside => simp [Fiber.starts, hcontext]
      | ended => simp [Fiber.starts, hcontext]
    · rfl

variable [DecidableEq C]

/-- The number of entries of the queue for a callback. -/
def waiting (s : Scheduler T C) (c : C) : ℕ := s.fibers.countP fun e => e.task = .cb c

theorem waiting_congr (hfibers : s'.fibers = s.fibers) (c : C) : s'.waiting c = s.waiting c := by
  rw [waiting, hfibers, waiting]

theorem waiting_scheduleNoLock (task : Option (Task ℕ C)) (pin : Option T) (c : C) :
    (scheduleNoLock task pin s).waiting c = s.waiting c + (callOf task).toList.count c := by
  rw [waiting, scheduleNoLock, List.countP_append, waiting]
  rcases task with _ | f | c'
  · rfl
  · rfl
  · by_cases hc : c' = c <;> simp [callOf, hc]

/-- A step that neither takes nor starts a callback. -/
theorem balance_of_quiet (hpc : ∀ k, (s.worker t).pc ≠ .resume k) (hfibers : s'.fibers = s.fibers)
    (hcall : s'.calling t = s.calling t) (c : C) :
    s'.waiting c + (decide (s'.calling t = some c)).toNat +
        ((record s h (.thread t b)).started.map Prod.snd).count c =
      s.waiting c + (decide (s.calling t = some c)).toNat +
        (h.started.map Prod.snd).count c := by
  rw [record_started h hpc, waiting_congr hfibers, hcall]

theorem swapIn_balance (howned : Owned s)
    (hkept : ∀ f, (s.worker t).cbFiber = some f → f ∈ h.made)
    (hfresh : ∀ f ∈ h.made, (s.fiberAt f).context = .fresh → ∃ t, (s.worker t).cbFiber = some f)
    (hpc : (s.worker t).pc = .resume k) (c : C) :
    ((record s h (.thread t b)).started.map Prod.snd).count c =
      (decide (s.calling t = some c)).toNat + (h.started.map Prod.snd).count c := by
  have hcall : startedBy s h t k = s.calling t := by
    cases k with
    | callback => exact startedBy_callback hkept hpc
    | fiber => rw [startedBy_eq_none howned hfresh (by decide), calling, hpc]
    | idle => rw [startedBy_eq_none howned hfresh (by decide), calling, hpc]
  rw [record_started_resume h hpc, hcall, List.map_append, List.count_append, Nat.add_comm]
  cases s.calling t with
  | none => simp
  | some c' => by_cases hc : c' = c <;> simp [hc]

variable [DecidableEq T]

theorem PutBack.waiting (hback : PutBack t s k f s') (c : C) : s'.waiting c = s.waiting c := by
  cases hback with
  | requeue hk hready => exact waiting_scheduleNoLock _ none c
  | _ => rfl

theorem take_balance {e : FiberAndThread T C}
    (hfind : s.fibers.find? (s.eligible t) = some e) {s' : Scheduler T C}
    (hs : s' = (s.dequeue t).putWorker t { s.worker t with pc := .dispatch, ft := some e }) (c : C) :
    s'.waiting c + (decide (s'.calling t = some c)).toNat = s.waiting c := by
  have hnew : s'.calling t = some c ↔ e.task = .cb c := by
    rcases e with ⟨pin, f | c'⟩ <;> simp [hs, calling, callOf]
  have hcount := countP_eraseP_add (q := fun e => decide (e.task = .cb c)) hfind
  simp only [hnew]
  rw [waiting, waiting, ← hcount, hs]
  by_cases he : e.task = .cb c <;> simp [he, dequeue, countActive, putWorker]

/-- A callback goes from the queue to a thread and from there to those that were started. -/
theorem Turn.balance (hturn : Turn t b s s') (howned : Owned s)
    (hkept : ∀ f, (s.worker t).cbFiber = some f → f ∈ h.made)
    (hfresh : ∀ f ∈ h.made, (s.fiberAt f).context = .fresh → ∃ t, (s.worker t).cbFiber = some f)
    (c : C) :
    s'.waiting c + (decide (s'.calling t = some c)).toNat +
        ((record s h (.thread t b)).started.map Prod.snd).count c =
      s.waiting c + (decide (s.calling t = some c)).toNat +
        (h.started.map Prod.snd).count c := by
  cases hturn with
  | take hpc hfind =>
    rw [record_started h (by simp [hpc]), take_balance hfind rfl]
    simp [calling, hpc]
  | swapIn hpc hslot hexec =>
    rw [swapIn_balance howned hkept hfresh hpc, ← Nat.add_assoc]
    congr 2
    simp [calling, Worker.goto, waiting, putWorker, putFiber]
  | settle hpc hslot hback =>
    rw [record_started h (by simp [hpc]), hback.waiting, hback.calling,
      waiting_congr (fibers_countDown _ s)]
    simp [calling, hpc]
  | stopped hpc => exact balance_of_quiet (by simp [hpc]) rfl rfl c
  | enter hpc =>
    apply balance_of_quiet (by simp [hpc]) (by exact rfl)
    simp [calling, hpc]
  | rest hpc hfind =>
    apply balance_of_quiet (by simp [hpc]) (by exact rfl)
    simp [calling, hpc]
  | setOut hpc hft hfin =>
    apply balance_of_quiet (by simp [hpc]) (by exact rfl)
    simp [calling, hpc, hft, callOf, Worker.goto]
  | discard hpc hft hfin =>
    apply balance_of_quiet (by simp [hpc]) (by exact rfl)
    simp [calling, hpc, hft, callOf, Worker.drop]
  | reuse hpc hft hcb =>
    apply balance_of_quiet (by simp [hpc]) (by exact rfl)
    simp [calling, hpc, hft, callOf, Fiber.starts, putFiber, putWorker]
  | create hpc hft hcb =>
    apply balance_of_quiet (by simp [hpc]) (by exact rfl)
    simp [calling, hpc, hft, callOf, Fiber.starts, make, putFiber, putWorker]
  | stop hpc hft hidle hterm =>
    apply balance_of_quiet (by simp [hpc]) (by exact rfl)
    simp [calling, hpc, hft, Worker.goto]
  | setOutIdle hpc hft hidle hterm =>
    apply balance_of_quiet (by simp [hpc]) (by exact rfl)
    simp [calling, hpc, hft, Worker.goto]
  | leave hpc hslot hact =>
    apply balance_of_quiet (by simp [hpc]) (by exact rfl)
    simp [calling, hpc, Worker.goto]

end Balance

section Runs

variable [DecidableEq C] [Fintype T] {s s' : Scheduler T C} {t : T} {b : Body} {h : History T C}

/-- The threads that have taken a callback and not started it. -/
def holders (s : Scheduler T C) (c : C) : ℕ := census fun t => s.calling t = some c

/-- The threads that have dequeued an entry and not yet returned from it. -/
def activeThreads (s : Scheduler T C) : ℕ := census fun t => (s.worker t).isActive

structure Kept (s : Scheduler T C) (h : History T C) : Prop where
  owned : Owned s
  made : ∀ f ∈ h.made, f < s.nextId
  kept : ∀ t f, (s.worker t).cbFiber = some f → f ∈ h.made
  fresh : ∀ f ∈ h.made, (s.fiberAt f).context = .fresh → ∃ t, (s.worker t).cbFiber = some f
  balance : ∀ c, h.placed.count c = s.waiting c + s.holders c + (h.started.map Prod.snd).count c
  active : s.activeThreadCount = s.activeThreads

omit [DecidableEq T]

theorem init_kept : Kept (init : Scheduler T C) ⟨[], [], []⟩ := by
  refine ⟨?_, nofun, nofun, nofun, ?_, ?_⟩
  · constructor
    · intro f hpos
      exact absurd hpos (lt_irrefl 0)
    · rintro ⟨t, k⟩ f a hp
      cases k <;> cases hp
    · rintro ⟨t, k⟩ q f a b hp
      cases k <;> cases hp
  · intro c
    have hnobody : (init : Scheduler T C).holders c = 0 := census_eq_zero.mpr fun _ => rfl
    rw [hnobody]
    rfl
  · have hnobody : (init : Scheduler T C).activeThreads = 0 := census_eq_zero.mpr fun _ => rfl
    rw [hnobody]
    rfl

theorem Kept.scheduleNoLock (hk : Kept s h) {task : Option (Task ℕ C)} (pin : Option T)
    (hmay : ∀ f, task = some (.fiber f) → MayQueue s f) :
    Kept (scheduleNoLock task pin s) { h with placed := h.placed ++ (callOf task).toList } := by
  refine ⟨scheduleNoLock_owned hk.owned pin hmay, hk.made, hk.kept, hk.fresh, ?_, hk.active⟩
  intro c
  rw [List.count_append, hk.balance c, waiting_scheduleNoLock]
  change _ = _ + _ + s.holders c + (h.started.map Prod.snd).count c
  omega

theorem Kept.scheduleRange {tasks : List (Option (Task ℕ C))} (hk : Kept s h)
    (hmay : MayQueueAll s tasks) :
    Kept (tasks.foldl (fun s task => Scheduler.scheduleNoLock task none s) s)
      { h with placed := h.placed ++ tasks.filterMap callOf } := by
  induction tasks generalizing s h with
  | nil =>
    rw [List.filterMap_nil, List.append_nil]
    exact hk
  | cons task tasks ih =>
    have hrest := ih (hk.scheduleNoLock none hmay.1) hmay.2
    have hplaced : h.placed ++ (callOf task).toList ++ tasks.filterMap callOf =
        h.placed ++ (task :: tasks).filterMap callOf := by
      cases hcall : callOf task <;> simp [hcall]
    rw [← hplaced]
    exact hrest

theorem Kept.make (hk : Kept s h) (x : Fiber C) : Kept (s.make x) h := by
  have hcall : ∀ t, (s.make x).calling t = s.calling t := by
    intro t
    apply calling_congr (by exact rfl)
    intro f hcb
    exact fiberAt_make_of_lt (hk.owned.made (k := .callback) hcb) x
  refine ⟨fair_callDiscipline.make hk.owned x, ?_, hk.kept, ?_, ?_, hk.active⟩
  · intro f hf
    exact Nat.lt_succ_of_lt (hk.made f hf)
  · intro f hf hfresh
    rw [fiberAt_make_of_lt (hk.made f hf)] at hfresh
    exact hk.fresh f hf hfresh
  · intro c
    have hholders : (s.make x).holders c = s.holders c := by
      rw [holders, holders]
      simp only [hcall]
    rw [hholders]
    exact hk.balance c

variable [DecidableEq T]

/-- A thread does not meddle with what another has taken. -/
theorem Kept.calling_turn (hk : Kept s h) (hturn : Turn t b s s') {t' : T} (ht : t' ≠ t) :
    s'.calling t' = s.calling t' := by
  apply calling_congr (hturn.worker_of_ne ht)
  intro f hcb
  apply hturn.fiberAt_of_ne (hk.owned.made (k := .callback) hcb)
  intro k hslot
  have hsole := hk.owned.sole hcb (p := (t, k)) hslot
  exact ht (congrArg Prod.fst hsole).symm

/-- A fresh callback fiber stays with its thread. -/
theorem Kept.fresh_turn (hk : Kept s h) (hturn : Turn t b s s') {f : ℕ} (hf : f ∈ h.made)
    (hfresh : (s'.fiberAt f).context = .fresh) : ∃ t, (s'.worker t).cbFiber = some f := by
  rcases hturn.context (hk.made f hf) hfresh with hold | hnew
  · obtain ⟨t₀, hcb⟩ := hk.fresh f hf hold
    by_cases ht : t₀ = t
    · subst ht
      rcases hturn.cbFiber with hsame | ⟨hpc, -⟩ | ⟨hnone, -, -⟩
      · exact ⟨t₀, hsame.trans hcb⟩
      · have hok := hk.owned.callOk hcb
        rw [hpc, stage_back] at hok
        exact absurd hold hok.1
      · rw [hnone] at hcb
        cases hcb
    · exact ⟨t₀, (congrArg Worker.cbFiber (hturn.worker_of_ne ht)).trans hcb⟩
  · exact ⟨t, hnew⟩

theorem Kept.turn (hk : Kept s h)
    (hallowed : ∀ f, (s.worker t).pc = .running .callback → (s.worker t).cbFiber = some f →
      b = .yieldToReady ∨ Ends (s.fiberAt f) b → s.queued f = 0)
    (hturn : Turn t b s s') : Kept s' (record s h (.thread t b)) := by
  have hmay (k : Kind) (f : ℕ) (hpc : (s.worker t).pc = .running k)
      (hslot : (s.worker t).slot k = some f) : MayEnd k (s.sheet f) b := by
    rintro rfl
    exact hallowed f hpc hslot
  refine ⟨fair_callDiscipline.turn hk.owned hmay hturn, ?_, ?_, ?_, ?_, ?_⟩
  · intro f hf
    rcases hturn.made h with ⟨hsame, hle⟩ | ⟨hcons, hnext, -⟩
    · rw [hsame] at hf
      exact (hk.made f hf).trans_le hle
    · rw [hcons, List.mem_cons] at hf
      rcases hf with rfl | hf
      · omega
      · have := hk.made f hf
        omega
  · intro t' f hcb
    by_cases ht : t' = t
    · subst ht
      rcases hturn.cbFiber with hsame | ⟨-, hnone⟩ | ⟨-, hnew, hmade⟩
      · rw [hsame] at hcb
        exact mem_record_made (hk.kept t' f hcb) t' b
      · rw [hnone] at hcb
        cases hcb
      · rw [hnew, Option.some.injEq] at hcb
        rw [hmade h, hcb]
        exact List.mem_cons_self
    · rw [hturn.worker_of_ne ht] at hcb
      exact mem_record_made (hk.kept t' f hcb) t b
  · intro f hf hfresh
    have hold : f ∈ h.made ∨ (s'.worker t).cbFiber = some f := by
      rcases hturn.made h with ⟨hsame, -⟩ | ⟨hcons, -, hnew⟩
      · rw [hsame] at hf
        exact .inl hf
      · rw [hcons, List.mem_cons] at hf
        rcases hf with rfl | hf
        · exact .inr hnew
        · exact .inl hf
    rcases hold with hold | hnew
    · exact hk.fresh_turn hturn hold hfresh
    · exact ⟨t, hnew⟩
  · intro c
    have hbal := hturn.balance hk.owned (hk.kept t) hk.fresh c
    have hcensus : s'.holders c + (decide (s.calling t = some c)).toNat =
        s.holders c + (decide (s'.calling t = some c)).toNat := by
      apply census_change (p := fun t => s.calling t = some c) (q := fun t => s'.calling t = some c)
      intro t' ht
      rw [hk.calling_turn hturn ht]
    have hplaced : (record s h (.thread t b)).placed = h.placed := by
      rw [record]
      split <;> rfl
    rw [hplaced, hk.balance c]
    omega
  · have hcount := hturn.activeThreadCount
    have hcensus : s'.activeThreads + (s.worker t).isActive.toNat =
        s.activeThreads + (s'.worker t).isActive.toNat := by
      apply census_change (p := fun t => (s.worker t).isActive) (q := fun t => (s'.worker t).isActive)
      intro t' ht
      rw [hturn.worker_of_ne ht]
    have hold := hk.active
    omega

theorem Recorded.kept {x : Scheduler T C × History T C} (hreach : Recorded Careful x) :
    Kept x.1 x.2 := by
  apply hreach.invariant init_kept
  intro x a x' hk hallowed hrun
  obtain ⟨s', hact, rfl⟩ := Command.focus_eq_done.mp hrun
  cases a with
  | thread t b => exact hk.turn hallowed (step_turn hact)
  | schedule task pin =>
    cases hact
    exact hk.scheduleNoLock pin hallowed
  | scheduleRange tasks =>
    cases hact
    exact hk.scheduleRange hallowed
  | newFiber cb =>
    cases hact
    exact hk.make _

theorem callbacks_kept (hreach : Recorded Careful (s, h)) :
    (∀ c, h.placed.count c = s.waiting c + s.holders c + (h.started.map Prod.snd).count c) ∧
    (∀ t s', (s.worker t).pc = .scan → take t s = .done () s' →
      ((s'.worker t).ft = none ∧ s'.fibers = s.fibers ∧ ∀ e ∈ s.fibers, ¬Fits s t e) ∨
      ∃ skipped e rest, s.fibers = skipped ++ e :: rest ∧ (∀ e' ∈ skipped, ¬Fits s t e') ∧
        Fits s t e ∧ (s'.worker t).ft = some e ∧ s'.fibers = skipped ++ rest) ∧
    s.activeThreadCount = s.activeThreads := by
  have hk := hreach.kept
  exact ⟨hk.balance, fun t s' _ hrun => take_first hrun, hk.active⟩

end Runs

/-- A callback that one of two threads has started. -/
theorem callbacks_kept_one : ∃ (s : Scheduler Bool Unit) (h : History Bool Unit),
    Recorded Careful (s, h) ∧ h.placed = [()] ∧ h.started = [(true, ())] ∧
      s.waiting () + s.holders () = 0 ∧ s.activeThreadCount = 1 := by
  have h₀ : Recorded Careful
      ((init, ⟨[], [], []⟩) : Scheduler Bool Unit × History Bool Unit) := .init
  have h₁ := h₀.step (a := .thread true .finish) (by intro f hpc; cases hpc) rfl
  have h₂ := h₁.step (a := .thread false .finish) (by intro f hpc; cases hpc) rfl
  have h₃ := h₂.step (a := .schedule (some (.cb ())) none) (by rintro f ⟨⟩) rfl
  have h₄ := h₃.step (a := .thread true .finish) (by intro f hpc; cases hpc) rfl
  have h₅ := h₄.step (a := .thread true .finish) (by intro f hpc; cases hpc) rfl
  have h₆ := h₅.step (a := .thread true .finish) (by intro f hpc; cases hpc) rfl
  refine ⟨_, _, h₆, rfl, rfl, ?_, ?_⟩
  · have hbal := (callbacks_kept h₆).1 ()
    change 1 = _ + 1 at hbal
    omega
  · exact (callbacks_kept h₆).2.2.trans (by decide)

/-- The first callback schedules its own fiber and returns. The other thread takes the fiber when
it has been reset, and runs it while it has no function; behind that switch it puts the fiber on
hold although the second callback is running on it by now. When that one schedules its fiber, it
is started anew. -/
def sharedFiber : List (Action Bool ℕ) :=
  [.thread true .finish, .thread false .finish, .schedule (some (.cb 1)) none,
    .thread true .finish, .thread true .finish, .thread true .finish,
    .schedule (some (.fiber 4)) none, .thread true .finish,
    .thread false .finish, .thread true .finish, .thread false .finish, .thread false .finish,
    .thread false .finish,
    .schedule (some (.cb 2)) none, .thread true .finish, .thread true .finish,
    .thread true .finish, .thread false .finish,
    .schedule (some (.fiber 4)) none, .thread false .finish, .thread false .finish,
    .thread false .finish]

theorem callback_started_twice : ∃ (s : Scheduler Bool ℕ) (h : History Bool ℕ),
    Recorded (fun _ _ => True) (s, h) ∧ h.placed = [1, 2] ∧
      h.started = [(true, 1), (true, 2), (false, 2)] := by
  have hinit : Recorded (fun _ _ => True)
      ((init, ⟨[], [], []⟩) : Scheduler Bool ℕ × History Bool ℕ) := .init
  have hhist : (runAll recorded sharedFiber (init, ⟨[], [], []⟩)).returned.map Prod.snd =
      some ⟨[1, 2], [4], [(true, 1), (true, 2), (false, 2)]⟩ := by
    decide +kernel
  rcases Option.map_eq_some_iff.mp hhist with ⟨x, hrun, hx⟩
  rcases Outcome.returned_eq_some.mp hrun with ⟨u, hrun⟩
  refine ⟨x.1, x.2, hinit.runAll hrun, ?_⟩
  rw [hx]
  exact ⟨rfl, rfl⟩

section Stops

variable [DecidableEq C] [Fintype T] {s : Scheduler T C} {t : T} {c : C} {h : History T C}

/-- `Scheduler::stopping`, which reads everything under the lock. -/
def stopping (autoStop stopping : Bool) (s : Scheduler T C) : Bool :=
  autoStop && stopping && s.fibers.isEmpty && decide (s.activeThreadCount = 0)

omit [DecidableEq T] [DecidableEq C] [Fintype T] in
theorem isActive_of_calling (hcall : s.calling t = some c) : (s.worker t).isActive = true := by
  rw [calling] at hcall
  rw [Worker.isActive]
  cases hpc : (s.worker t).pc with
  | dispatch =>
    rw [hpc] at hcall
    obtain ⟨e, hft, -⟩ := Option.bind_eq_some_iff.mp hcall
    exact Option.isSome_of_eq_some hft
  | resume k =>
    rw [hpc] at hcall
    cases k <;> first | rfl | cases hcall
  | _ =>
    rw [hpc] at hcall
    cases hcall

/-- When `stopping` answers true, no thread is inside a task and every callback that was ever queued
has been started, each as often as it was queued. -/
theorem stopping_started (hreach : Recorded Careful (s, h)) {autoStop isStopping : Bool}
    (hstop : s.stopping autoStop isStopping = true) :
    (∀ t, (s.worker t).isActive = false) ∧
      ∀ c, (h.started.map Prod.snd).count c = h.placed.count c := by
  have hk : Kept s h := hreach.kept
  simp only [stopping, Bool.and_eq_true, List.isEmpty_iff, decide_eq_true_eq] at hstop
  have hidle : ∀ t, (s.worker t).isActive = false := by
    apply census_eq_zero.mp
    have hactive := hk.active
    rw [activeThreads] at hactive
    omega
  refine ⟨hidle, fun c => ?_⟩
  have hwaiting : s.waiting c = 0 := by
    rw [waiting, hstop.1.2]
    rfl
  have hholders : s.holders c = 0 := by
    apply census_eq_zero.mpr
    intro t
    rw [decide_eq_false_iff_not]
    intro hcall
    exact absurd (isActive_of_calling hcall) (by simp [hidle])
  have hbalance := hk.balance c
  omega

end Stops

theorem stopping_started_one : ∃ (s : Scheduler Bool Unit) (h : History Bool Unit),
    Recorded Careful (s, h) ∧ h.placed = [()] ∧ s.stopping true true = true ∧
      (h.started.map Prod.snd).count () = 1 := by
  have h₀ : Recorded Careful
      ((init, ⟨[], [], []⟩) : Scheduler Bool Unit × History Bool Unit) := .init
  have h₁ := h₀.step (a := .thread true .finish) (by intro f hpc; cases hpc) rfl
  have h₂ := h₁.step (a := .schedule (some (.cb ())) none) (by rintro f ⟨⟩) rfl
  have h₃ := h₂.step (a := .thread true .finish) (by intro f hpc; cases hpc) rfl
  have h₄ := h₃.step (a := .thread true .finish) (by intro f hpc; cases hpc) rfl
  have h₅ := h₄.step (a := .thread true .finish) (by intro f hpc; cases hpc) rfl
  have h₆ := h₅.step (a := .thread true .finish) (by rintro f - ⟨⟩ -; rfl) rfl
  have h₇ := h₆.step (a := .thread true .finish) (by intro f hpc; cases hpc) rfl
  refine ⟨_, _, h₇, rfl, rfl, ?_⟩
  exact (stopping_started h₇ (show stopping true true _ = true from rfl)).2 ()

end Sylar.Scheduler
