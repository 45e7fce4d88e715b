import Sylar.Scheduler.Turns
import Sylar.Memory.Ledger

/-! # One fiber, one thread

Every branch of every thread is a place that holds at most one fiber: the entry
it dequeued, its callback fiber, its idle fiber. A discipline for these places is
kept by every step of every thread if it is kept by what a step does to one fiber.
-/
namespace Sylar.Scheduler
open Memory

/-- How far the holder of a fiber has come with it. -/
inductive Stage where
  | parked
  | resume
  | running
  | back
deriving DecidableEq, Repr

/-- What the system knows of a fiber. -/
structure Sheet (C : Type) where
  fiber : Fiber C
  queued : ℕ
  made : Prop

variable {T C : Type}

def FiberAndThread.isFor (f : ℕ) (e : FiberAndThread T C) : Bool :=
  match e.task with
  | .fiber g => g = f
  | .cb _ => false

/-- The number of entries of the queue for a fiber. -/
def queued (s : Scheduler T C) (f : ℕ) : ℕ := s.fibers.countP (FiberAndThread.isFor f)

def Pc.stage : Pc → Kind → Stage
  | .resume k', k => if k' = k then .resume else .parked
  | .running k', k => if k' = k then .running else .parked
  | .back k', k => if k' = k then .back else .parked
  | _, _ => .parked

def Worker.hold (w : Worker T C) (k : Kind) : Option (ℕ × Stage) :=
  (w.slot k).map fun f => (f, w.pc.stage k)

def sheet (s : Scheduler T C) (f : ℕ) : Sheet C := ⟨s.fiberAt f, s.queued f, f < s.nextId⟩

def ledger (s : Scheduler T C) : Ledger (T × Kind) ℕ Stage (Sheet C) :=
  ⟨fun p => (s.worker p.1).hold p.2, s.sheet⟩

@[simp] theorem stage_resume (k : Kind) : (Pc.resume k).stage k = .resume := if_pos rfl

@[simp] theorem stage_running (k : Kind) : (Pc.running k).stage k = .running := if_pos rfl

@[simp] theorem stage_back (k : Kind) : (Pc.back k).stage k = .back := if_pos rfl

@[simp] theorem slot_goto (w : Worker T C) (pc : Pc) (k : Kind) :
    (w.goto pc).slot k = w.slot k := by
  cases k <;> rfl

/-- Away from the branch that a thread is in, its program counter does not matter. -/
theorem hold_goto {pc : Pc} {w : Worker T C} {k : Kind} (hold : w.pc.stage k = .parked)
    (hnew : pc.stage k = .parked) : (w.goto pc).hold k = w.hold k := by
  rw [Worker.hold, Worker.hold, slot_goto, hold, Worker.goto, hnew]

theorem hold_drop_self (w : Worker T C) (k : Kind) : (w.drop k).hold k = none := by
  cases k <;> rfl

theorem hold_drop {w : Worker T C} {k k' : Kind} (hk : k' ≠ k) (hold : w.pc.stage k' = .parked) :
    (w.drop k).hold k' = w.hold k' := by
  rw [Worker.hold, Worker.hold, hold]
  cases k <;> cases k' <;> first | exact absurd rfl hk | rfl

theorem hold_eq {w : Worker T C} {k : Kind} {f : ℕ} {a : Stage} (hslot : w.slot k = some f)
    (hstage : w.pc.stage k = a) : w.hold k = some (f, a) := by
  rw [Worker.hold, hslot, hstage, Option.map_some]

theorem hold_goto_eq {w : Worker T C} {k : Kind} {f : ℕ} (hslot : w.slot k = some f) (pc : Pc) :
    (w.goto pc).hold k = some (f, pc.stage k) :=
  hold_eq ((slot_goto w pc k).trans hslot) rfl

/-- The function returns or throws; calling a null function throws. -/
def Ends (x : Fiber C) (b : Body) : Prop := b = .finish ∨ b = .throw ∨ x.cb = none

/-- A function that has ended does not go on; another one is left inside, or it ends. -/
theorem act_inv {x y : Fiber C} {b : Body} (hact : act x b = .ok y) :
    x.context ≠ .ended ∧
      (y.context = .inside ∧ (y.state = x.state ∨ b = .yieldToReady ∧ y.state = .ready) ∨
        y.context = .ended ∧ y.state.Finished ∧ Ends x b) := by
  unfold act at hact
  by_cases hended : x.context = .ended
  · rw [if_pos hended] at hact
    cases hact
  refine ⟨hended, ?_⟩
  rw [if_neg hended] at hact
  by_cases hnull : x.context = .fresh ∧ x.cb = none
  · rw [if_pos hnull] at hact
    cases hact
    exact .inr ⟨rfl, .inr rfl, .inr (.inr hnull.2)⟩
  · rw [if_neg hnull] at hact
    cases b with
    | yieldToReady =>
      dsimp only at hact
      split_ifs at hact
      cases hact
      exact .inl ⟨rfl, .inr ⟨rfl, rfl⟩⟩
    | yieldToHold =>
      dsimp only at hact
      split_ifs at hact
      cases hact
      exact .inl ⟨rfl, .inl rfl⟩
    | swapOut =>
      cases hact
      exact .inl ⟨rfl, .inl rfl⟩
    | finish =>
      cases hact
      exact .inr ⟨rfl, .inl rfl, .inl rfl⟩
    | throw =>
      cases hact
      exact .inr ⟨rfl, .inr rfl, .inr (.inl rfl)⟩

theorem act_state {x y : Fiber C} {b : Body} (hact : act x b = .ok y) :
    y.state = x.state ∨ b = .yieldToReady ∧ y.state = .ready ∨ y.state.Finished ∧ Ends x b := by
  rcases (act_inv hact).2 with ⟨-, h | h⟩ | ⟨-, h⟩
  · exact .inl h
  · exact .inr (.inl h)
  · exact .inr (.inr h)

/-- Taking the first match out of a list lowers the count of its kind. -/
theorem countP_eraseP_add {α : Type} {p q : α → Bool} {l : List α} {a : α}
    (hfind : l.find? p = some a) :
    (l.eraseP p).countP q + (if q a then 1 else 0) = l.countP q := by
  rcases List.find?_eq_some_iff_append.mp hfind with ⟨hp, as, bs, rfl, hnot⟩
  rw [List.eraseP_append_right _ (by simpa using hnot), List.eraseP_cons_of_pos hp,
    List.countP_append, List.countP_append, List.countP_cons, Nat.add_assoc]

section Taken

variable [DecidableEq T] {s : Scheduler T C} {t : T} {e : FiberAndThread T C} {g : ℕ}

theorem queued_dequeue (hfind : s.fibers.find? (s.eligible t) = some e) (g : ℕ) :
    (s.dequeue t).queued g + (if e.isFor g then 1 else 0) = s.queued g :=
  countP_eraseP_add hfind

theorem queued_dequeue_of_not (hfind : s.fibers.find? (s.eligible t) = some e)
    (hg : e.isFor g = false) : (s.dequeue t).queued g = s.queued g := by
  rw [← queued_dequeue hfind g, hg]
  rfl

theorem not_exec_of_find {pin : Option T}
    (hfind : s.fibers.find? (s.eligible t) = some ⟨pin, .fiber g⟩) : s.getState g ≠ .exec := by
  have heligible := List.find?_some hfind
  simp only [eligible, Bool.and_eq_true, decide_eq_true_eq] at heligible
  exact heligible.2

end Taken

section Sheets

variable {s : Scheduler T C} {f g : ℕ}

@[simp] theorem sheet_putFiber_self (f : ℕ) (x : Fiber C) :
    (s.putFiber f x).sheet f = { s.sheet f with fiber := x } := by
  simp [sheet, putFiber, queued]

theorem sheet_putFiber_of_ne (x : Fiber C) (g : ℕ) (hg : g ≠ f) :
    (s.putFiber f x).sheet g = s.sheet g := by
  simp [sheet, putFiber, queued, hg]

theorem sheet_make_of_ne (x : Fiber C) (g : ℕ) (hg : g ≠ s.nextId) :
    (s.make x).sheet g = s.sheet g := by
  have hlt : g < s.nextId + 1 ↔ g < s.nextId := by omega
  simp [sheet, make, putFiber, queued, hg, hlt]

@[simp] theorem sheet_scheduleNoLock_self (f : ℕ) (pin : Option T) :
    (scheduleNoLock (some (.fiber f)) pin s).sheet f =
      { s.sheet f with queued := s.queued f + 1 } := by
  simp [sheet, scheduleNoLock, queued, FiberAndThread.isFor]

theorem sheet_scheduleNoLock_of_ne (pin : Option T) (g : ℕ) (hg : g ≠ f) :
    (scheduleNoLock (some (.fiber f)) pin s).sheet g = s.sheet g := by
  simp [sheet, scheduleNoLock, queued, FiberAndThread.isFor, Ne.symm hg]

end Sheets

section Places

variable {s s' : Scheduler T C} {t : T} {k : Kind} {f : ℕ}

theorem hold_drop_back (hpc : (s.worker t).pc = .back k) (k' : Kind) (hk : k' ≠ k) :
    ((s.worker t).drop k).hold k' = (s.worker t).hold k' :=
  hold_drop hk (by rw [hpc]; exact if_neg hk.symm)

theorem slot_fiber {pin : Option T} (hft : (s.worker t).ft = some ⟨pin, .fiber f⟩) :
    (s.worker t).slot .fiber = some f := by
  rw [Worker.slot, hft]

/-- A thread that turns from a function to its fiber keeps its other fibers. -/
theorem hold_setOutCallback (hpc : (s.worker t).pc = .dispatch) {pin : Option T} {c : C}
    (hft : (s.worker t).ft = some ⟨pin, .cb c⟩) (k' : Kind) (hk : k' ≠ .callback) :
    ({ s.worker t with pc := .resume .callback, ft := none, cbFiber := some f } : Worker T C).hold
      k' = (s.worker t).hold k' := by
  cases k' with
  | fiber => simp [Worker.hold, Worker.slot, hft]
  | callback => exact absurd rfl hk
  | idle => simp [Worker.hold, Worker.slot, hpc, Pc.stage]

/-- A thread that comes out of the locked part keeps its callback and idle fibers. -/
theorem hold_scanned (hpc : (s.worker t).pc = .scan) (ft : Option (FiberAndThread T C)) (k' : Kind)
    (hk : k' ≠ .fiber) :
    ({ s.worker t with pc := .dispatch, ft := ft } : Worker T C).hold k' =
      (s.worker t).hold k' := by
  cases k' with
  | fiber => exact absurd rfl hk
  | callback => simp [Worker.hold, Worker.slot, hpc, Pc.stage]
  | idle => simp [Worker.hold, Worker.slot, hpc, Pc.stage]

variable [DecidableEq T] {w : Worker T C}

/-- A step of a thread concerns one of its places and what is known of one fiber. -/
theorem ledger_change (f : ℕ) (stage : Option Stage) (hs : s'.worker = s.worker)
    (hkeep : ∀ k', k' ≠ k → w.hold k' = (s.worker t).hold k')
    (hhold : w.hold k = stage.map fun a => (f, a)) (hsheet : ∀ g, g ≠ f → s'.sheet g = s.sheet g) :
    (s'.putWorker t w).ledger = s.ledger.change (t, k) f stage (s'.sheet f) := by
  refine Ledger.eq_change ?_ ?_ hsheet
  · rw [← hhold]
    simp [ledger, putWorker]
  · rintro ⟨t', k'⟩ hp
    by_cases ht : t' = t
    · subst ht
      have hk : k' ≠ k := by
        rintro rfl
        exact hp rfl
      simp [ledger, putWorker, hkeep k' hk]
    · simp [ledger, putWorker, hs, Function.update_of_ne ht]

end Places

section Discipline

/-- What a thread can do with a fiber that it holds. -/
inductive Passes (may : Kind → Sheet C → Body → Prop) :
    Kind → Stage → Sheet C → Option Stage → Sheet C → Prop where
  | setOut {x : Sheet C} (hfin : ¬x.fiber.state.Finished) :
      Passes may .fiber .parked x (some .resume) x
  | reuse {x : Sheet C} (c : C) :
      Passes may .callback .parked x (some .resume) { x with fiber := ⟨.init, some (.user c), .fresh⟩ }
  | stop {x : Sheet C} : Passes may .idle .parked x (some .parked) x
  | setOutIdle {x : Sheet C} : Passes may .idle .parked x (some .resume) x
  | swapIn {k : Kind} {x : Sheet C} :
      Passes may k .resume x (some .running) { x with fiber := { x.fiber with state := .exec } }
  | leave {k : Kind} {x : Sheet C} {b : Body} {y : Fiber C} (hmay : may k x b)
      (hact : act x.fiber b = .ok y) : Passes may k .running x (some .back) { x with fiber := y }
  | requeue {k : Kind} {x : Sheet C} (hready : x.fiber.state = .ready) :
      Passes may k .back x none { x with queued := x.queued + 1 }
  | hold {k : Kind} {x : Sheet C} (hfin : ¬x.fiber.state.Finished) :
      Passes may k .back x none { x with fiber := { x.fiber with state := .hold } }
  | clear {x : Sheet C} (hfin : x.fiber.state.Finished) :
      Passes may .callback .back x (some .parked) { x with fiber := ⟨.init, none, .fresh⟩ }
  | rest {x : Sheet C} :
      Passes may .idle .back x (some .parked) { x with fiber := { x.fiber with state := .hold } }
  | finished {x : Sheet C} (hfin : x.fiber.state.Finished) :
      Passes may .idle .back x (some .parked) x

theorem Passes.made {may : Kind → Sheet C → Body → Prop} {k : Kind} {a : Stage}
    {x x' : Sheet C} {stage : Option Stage} (h : Passes may k a x stage x') : x'.made = x.made := by
  cases h <;> rfl

/-- An entry for the fiber is taken out of the queue. -/
def Sheet.taken (x : Sheet C) : Sheet C := { x with queued := x.queued - 1 }

/-- A discipline that is kept by what a step does to a fiber, if fibers are left as `may` says. -/
structure Fair (may : Kind → Sheet C → Body → Prop)
    (D : Discipline (T × Kind) Stage (Sheet C)) : Prop where
  queued : ∀ x, D.good x → 0 < x.queued → x.made
  made : ∀ p a x, D.ok p a x → x.made
  fresh : ∀ y, D.good ⟨y, 0, True⟩
  callback : ∀ t c, D.ok (t, .callback) .resume ⟨⟨.init, some (.user c), .fresh⟩, 0, True⟩
  idle : ∀ t, D.ok (t, .idle) .parked ⟨.idle, 0, True⟩
  pass : ∀ t k a x stage x', D.good x → D.ok (t, k) a x → Passes may k a x stage x' →
    D.Allows (t, k) a x stage x'
  take : ∀ t x, D.good x → 0 < x.queued → x.fiber.state ≠ .exec →
    D.good x.taken ∧ D.ok (t, .fiber) .parked x.taken ∧ ∀ q b, D.ok q b x →
      D.ok q b x.taken ∧ D.shared q b x.taken ∧ D.shared (t, .fiber) .parked x.taken

variable {D : Discipline (T × Kind) Stage (Sheet C)} {may : Kind → Sheet C → Body → Prop}
  {s s' : Scheduler T C} {t : T} {k : Kind} {f : ℕ}

/-- Nobody holds a fiber that has not been made. -/
theorem Fair.unheld (hD : Fair may D) (h : s.ledger.Inv D) (q : T × Kind) (b : Stage) :
    s.ledger.holds q ≠ some (s.nextId, b) := by
  intro hq
  exact absurd (hD.made _ _ _ (h.ok q _ b hq)) (lt_irrefl s.nextId)

theorem Fair.sheet_make (hD : Fair may D) (h : s.ledger.Inv D) (x : Fiber C) :
    (s.make x).sheet s.nextId = ⟨x, 0, True⟩ := by
  have hzero : s.queued s.nextId = 0 := by
    by_contra hne
    exact absurd (hD.queued _ (h.good s.nextId) (Nat.pos_of_ne_zero hne)) (lt_irrefl s.nextId)
  rw [← hzero]
  simp [sheet, Scheduler.make, putFiber, Scheduler.queued]

/-- What is known of a fiber changes, and nothing else. -/
theorem setSheet_inv (h : s.ledger.Inv D) (hs : s'.worker = s.worker)
    (hsheet : ∀ g, g ≠ f → s'.sheet g = s.sheet g) (hgood : D.good (s'.sheet f))
    (hholders : ∀ p a, s.ledger.holds p = some (f, a) → D.ok p a (s'.sheet f) ∧
      (D.shared p a (s.sheet f) → D.shared p a (s'.sheet f))) : s'.ledger.Inv D := by
  have hledger : s'.ledger = ⟨s.ledger.holds, Function.update s.ledger.record f (s'.sheet f)⟩ := by
    apply Ledger.ext
    · funext p
      simp [ledger, hs]
    · exact Function.eq_update_iff.mpr ⟨rfl, hsheet⟩
  rw [hledger]
  exact h.setRecord hgood hholders

theorem Fair.make (hD : Fair may D) (h : s.ledger.Inv D) (x : Fiber C) :
    (s.make x).ledger.Inv D := by
  apply setSheet_inv h (by exact rfl) (sheet_make_of_ne x)
  · rw [hD.sheet_make h]
    exact hD.fresh x
  · intro p a hp
    exact absurd hp (hD.unheld h p a)

theorem scheduleNoLock_inv (h : s.ledger.Inv D) {task : Option (Task ℕ C)} (pin : Option T)
    (hmay : ∀ f, task = some (.fiber f) → D.good { s.sheet f with queued := s.queued f + 1 } ∧
      ∀ t k, (s.worker t).slot k = some f →
        D.ok (t, k) ((s.worker t).pc.stage k) { s.sheet f with queued := s.queued f + 1 } ∧
        (D.shared (t, k) ((s.worker t).pc.stage k) (s.sheet f) →
          D.shared (t, k) ((s.worker t).pc.stage k) { s.sheet f with queued := s.queued f + 1 })) :
    (scheduleNoLock task pin s).ledger.Inv D := by
  rcases task with _ | f | c
  · have hsame : scheduleNoLock none pin s = s := by simp [scheduleNoLock]
    rwa [hsame]
  · obtain ⟨hgood, hholders⟩ := hmay f rfl
    apply setSheet_inv h (by exact rfl) (sheet_scheduleNoLock_of_ne pin)
    · rwa [sheet_scheduleNoLock_self]
    · rintro ⟨t, k⟩ a hp
      obtain ⟨g, hslot, hpair⟩ := Option.map_eq_some_iff.mp hp
      cases hpair
      rw [sheet_scheduleNoLock_self]
      exact hholders t k hslot
  · have hledger : (scheduleNoLock (some (.cb c)) pin s).ledger = s.ledger := by
      apply Ledger.ext
      · rfl
      · funext g
        simp [ledger, sheet, scheduleNoLock, queued, FiberAndThread.isFor]
    rwa [hledger]

variable [DecidableEq T] {w : Worker T C} {b : Body}

theorem release_inv (h : s.ledger.Inv D) (k : Kind) (hs : s'.worker = s.worker)
    (hkeep : ∀ k', k' ≠ k → w.hold k' = (s.worker t).hold k') (hhold : w.hold k = none)
    (hsheet : s'.sheet = s.sheet) : (s'.putWorker t w).ledger.Inv D := by
  have hledger := ledger_change 0 none hs hkeep hhold (fun g _ => by rw [hsheet])
  rw [Ledger.change, hsheet] at hledger
  rw [hledger]
  have hrelease := h.release (t, k)
  rwa [← Function.update_eq_self 0 s.ledger.record] at hrelease

/-- A step of a thread with a fiber that it holds. -/
theorem Fair.passed (hD : Fair may D) (h : s.ledger.Inv D) (stage : Option Stage)
    (hslot : (s.worker t).slot k = some f) (hs : s'.worker = s.worker)
    (hkeep : ∀ k', k' ≠ k → w.hold k' = (s.worker t).hold k')
    (hhold : w.hold k = stage.map fun a => (f, a)) (hsheet : ∀ g, g ≠ f → s'.sheet g = s.sheet g)
    (hpass : Passes may k ((s.worker t).pc.stage k) (s.sheet f) stage (s'.sheet f)) :
    (s'.putWorker t w).ledger.Inv D := by
  have hp : s.ledger.holds (t, k) = some (f, (s.worker t).pc.stage k) := hold_eq hslot rfl
  rw [ledger_change f stage hs hkeep hhold hsheet]
  exact h.move hp (hD.pass _ _ _ _ _ _ (h.good f) (h.ok _ _ _ hp) hpass)

/-- The thread goes on with the fiber. -/
theorem Fair.goto (hD : Fair may D) (h : s.ledger.Inv D) {pc : Pc}
    (hslot : (s.worker t).slot k = some f) (hs : s'.worker = s.worker)
    (hold : ∀ k', k' ≠ k → (s.worker t).pc.stage k' = .parked)
    (hnew : ∀ k', k' ≠ k → pc.stage k' = .parked) (hsheet : ∀ g, g ≠ f → s'.sheet g = s.sheet g)
    (hpass : Passes may k ((s.worker t).pc.stage k) (s.sheet f) (some (pc.stage k)) (s'.sheet f)) :
    (s'.putWorker t ((s.worker t).goto pc)).ledger.Inv D := by
  apply hD.passed h _ hslot hs _ (hold_goto_eq hslot pc) hsheet hpass
  intro k' hk
  exact hold_goto (hold k' hk) (hnew k' hk)

theorem Fair.take_inv (hD : Fair may D) (h : s.ledger.Inv D) (hpc : (s.worker t).pc = .scan)
    {e : FiberAndThread T C} (hfind : s.fibers.find? (s.eligible t) = some e) :
    ((s.dequeue t).putWorker t
      { s.worker t with pc := .dispatch, ft := some e }).ledger.Inv D := by
  have hother (g : ℕ) (hg : e.isFor g = false) : (s.dequeue t).sheet g = s.sheet g :=
    congrArg (Sheet.mk (s.fiberAt g) · (g < s.nextId)) (queued_dequeue_of_not hfind hg)
  rcases e with ⟨pin, f | c⟩
  · have htaken := queued_dequeue hfind f
    simp only [FiberAndThread.isFor, decide_true, if_true] at htaken
    have hsheet : (s.dequeue t).sheet f = (s.sheet f).taken :=
      congrArg (Sheet.mk (s.fiberAt f) · (f < s.nextId)) (Nat.eq_sub_of_add_eq htaken)
    obtain ⟨hgood, hok, hothers⟩ := hD.take t (s.sheet f) (h.good f)
      (show 0 < s.queued f by omega) (not_exec_of_find hfind)
    rw [ledger_change f (some .parked) (by exact rfl) (hold_scanned hpc _) (by exact rfl)
      (fun g hg => hother g (decide_eq_false hg.symm)), hsheet]
    apply h.change hgood
    · rintro a ⟨⟩
      exact hok
    · intro q a _ hq
      obtain ⟨hokq, hsharedq, hshared⟩ := hothers q a (h.ok q f a hq)
      refine ⟨hokq, hsharedq, ?_⟩
      rintro b ⟨⟩
      exact hshared
  · exact release_inv h .fiber (by exact rfl) (hold_scanned hpc _) rfl (funext fun g => hother g rfl)

theorem Fair.putBack_inv (hD : Fair may D) (h : s.ledger.Inv D)
    (hpc : (s.worker t).pc = .back k) (hslot : (s.worker t).slot k = some f)
    (hback : PutBack t s k f s') : s'.ledger.Inv D := by
  have hstage : (s.worker t).pc.stage k = .back := by
    rw [hpc, stage_back]
  have hparked : ∀ k', k' ≠ k → (s.worker t).pc.stage k' = .parked := by
    intro k' hk
    rw [hpc]
    exact if_neg hk.symm
  cases hback with
  | requeue hk hready =>
    apply hD.passed h none hslot (by exact rfl) (hold_drop_back hpc) (hold_drop_self _ k)
      (sheet_scheduleNoLock_of_ne none)
    rw [hstage, sheet_scheduleNoLock_self]
    exact .requeue hready
  | hold hk hready hfin =>
    apply hD.passed h none hslot (by exact rfl) (hold_drop_back hpc) (hold_drop_self _ k)
      (sheet_putFiber_of_ne _)
    rw [hstage, sheet_putFiber_self]
    exact .hold hfin
  | forget hfin => exact release_inv h .fiber rfl (hold_drop_back hpc) (hold_drop_self _ _) rfl
  | clear hfin =>
    apply hD.goto h hslot (by exact rfl) hparked (fun _ _ => rfl) (sheet_putFiber_of_ne _)
    rw [hstage, sheet_putFiber_self]
    exact .clear hfin
  | rest hfin =>
    apply hD.goto h hslot (by exact rfl) hparked (fun _ _ => rfl) (sheet_putFiber_of_ne _)
    rw [hstage, sheet_putFiber_self]
    exact .rest
  | finished hfin =>
    apply hD.goto h hslot (by exact rfl) hparked (fun _ _ => rfl) (fun _ _ => rfl)
    rw [hstage]
    exact .finished hfin

/-- Every step of a thread keeps the discipline. -/
theorem Fair.turn (hD : Fair may D) (h : s.ledger.Inv D)
    (hmay : ∀ k f, (s.worker t).pc = .running k → (s.worker t).slot k = some f → may k (s.sheet f) b)
    (hturn : Turn t b s s') : s'.ledger.Inv D := by
  have haway {k : Kind} {pc : Pc} (hpc : (s.worker t).pc = pc)
      (hstage : ∀ k', k' ≠ k → pc.stage k' = .parked) (k' : Kind) (hk : k' ≠ k) :
      (s.worker t).pc.stage k' = .parked := by
    rw [hpc]
    exact hstage k' hk
  cases hturn with
  | enter hpc =>
    have h₁ := hD.make h .main
    rw [ledger_change (s := s.make .main) (k := .idle) (s.make .main).nextId (some .parked)
      (by exact rfl) _ (by exact rfl) (sheet_make_of_ne _), hD.sheet_make h₁]
    · apply h₁.changeNew (hD.unheld h₁) (hD.fresh _)
      rintro a ⟨⟩
      exact hD.idle t
    · intro k' hk
      cases k' with
      | fiber => simp [Worker.hold, Worker.slot, hpc, Pc.stage, Scheduler.make, putFiber]
      | callback => simp [Worker.hold, Worker.slot, hpc, Pc.stage, Scheduler.make, putFiber]
      | idle => exact absurd rfl hk
  | rest hpc hfind => exact release_inv h .fiber rfl (hold_scanned hpc _) rfl rfl
  | take hpc hfind => exact hD.take_inv h hpc hfind
  | setOut hpc hft hfin =>
    apply hD.goto h (slot_fiber hft) (by exact rfl) (haway hpc fun _ _ => rfl)
      (by exact fun k' hk => if_neg hk.symm) (fun _ _ => rfl)
    rw [hpc]
    exact .setOut hfin
  | discard hpc hft hfin =>
    apply release_inv h .fiber (by exact rfl) _ (hold_drop_self _ _) rfl
    intro k' hk
    exact hold_drop hk (by rw [hpc]; rfl)
  | reuse hpc hft hcb =>
    apply hD.passed (k := .callback) h (some .resume) hcb (by exact rfl)
      (hold_setOutCallback hpc hft) (by exact rfl) (sheet_putFiber_of_ne _)
    rw [hpc, sheet_putFiber_self]
    exact .reuse _
  | create hpc hft hcb =>
    rw [ledger_change (k := .callback) s.nextId (some .resume) (by exact rfl)
      (hold_setOutCallback hpc hft) (by exact rfl) (sheet_make_of_ne _), hD.sheet_make h]
    apply h.changeNew (hD.unheld h) (hD.fresh _)
    rintro a ⟨⟩
    exact hD.callback t _
  | stop hpc hft hidle hterm =>
    apply hD.goto (k := .idle) h hidle (by exact rfl) (haway hpc fun _ _ => rfl) (fun _ _ => rfl)
      (fun _ _ => rfl)
    rw [hpc]
    exact .stop
  | setOutIdle hpc hft hidle hterm =>
    apply hD.goto (k := .idle) h hidle (by exact rfl) (haway hpc fun _ _ => rfl)
      (by exact fun k' hk => if_neg hk.symm) (fun _ _ => rfl)
    rw [hpc]
    exact .setOutIdle
  | swapIn hpc hslot hexec =>
    apply hD.goto h hslot (by exact rfl) (haway hpc fun k' hk => if_neg hk.symm)
      (by exact fun k' hk => if_neg hk.symm) (sheet_putFiber_of_ne _)
    rw [hpc, stage_resume, stage_running, sheet_putFiber_self]
    exact .swapIn
  | leave hpc hslot hact =>
    apply hD.goto h hslot (by exact rfl) (haway hpc fun k' hk => if_neg hk.symm)
      (by exact fun k' hk => if_neg hk.symm) (sheet_putFiber_of_ne _)
    rw [hpc, stage_running, stage_back, sheet_putFiber_self]
    exact .leave (hmay _ _ hpc hslot) hact
  | settle hpc hslot hback =>
    rename_i k f
    have hcount : (countDown k s).ledger.Inv D := by
      rw [countDown]
      split_ifs
      · exact h
      · exact h
    rw [← worker_countDown k s] at hpc hslot
    exact hD.putBack_inv hcount hpc hslot hback
  | stopped hpc => exact h

end Discipline

end Sylar.Scheduler
