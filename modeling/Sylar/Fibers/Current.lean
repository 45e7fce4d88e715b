import Sylar.Fibers.Model

/-! # The current fiber

`t_thread_current_fiber` designates the fiber whose stack is running as long as no fiber is made or
destroyed and every switch goes to a context that its own fiber has saved.
-/
namespace Sylar.Fibers
open Memory
open Scheduler (FiberState)

namespace Thread

def InState (s : Thread) (p : ℕ) (st : FiberState) : Prop :=
  ∃ f, s.fibers.get p = some f ∧ f.state = st

/-- The pointer designates the running fiber, which is in the state `EXEC`. -/
def Designated (s : Thread) : Prop := s.current = some s.exec ∧ s.InState s.exec .exec

/-- The context of a fiber holds its entry function, or what it saved itself. -/
def Own (s : Thread) (p : ℕ) : Prop :=
  ∃ f, s.fibers.get p = some f ∧ (f.ctx = .entry ∨ f.ctx = .stack p)

/-- A switch from the context of `p` to the fiber `t` ends where it should. -/
def Lands (s : Thread) (p : ℕ) (t : Option ℕ) : Prop :=
  ∀ q, t = some q → (if p = q then q = s.exec else s.Own q) ∧ s.InState q .exec

end Thread

/-- What the running code may do in a state. -/
def Proper (s : Thread) : Act → Prop
  | .construct _ _ => False
  | .destroy _ => False
  | .swapIn p => s.scheduler ≠ some p ∧ s.Own p
  | .call p => if s.main = some p then p = s.exec else s.Own p
  | .swapOut p => s.Lands p s.scheduler
  | .back p => s.Lands p s.main
  | .yieldToHold => s.Lands s.exec s.scheduler
  | .yieldToReady => s.scheduler ≠ some s.exec ∧ s.Lands s.exec s.scheduler
  | .finish _ => ∀ f p, s.fibers.get s.exec = some f → f.cur = some p →
      s.Lands p (s.target f.toMain)
  | _ => True

section Steps

variable {s s' : Thread} {p q save dest : ℕ} {mark : Saved} {f g : Fiber} {st : FiberState}

theorem nonNull_inv {t : Option ℕ} (h : nonNull t s = .done p s') : s' = s ∧ t = some p := by
  cases t with
  | none => cases h
  | some q =>
    cases h
    exact ⟨rfl, rfl⟩

theorem inState_iff (h : s.fibers.get p = some f) : s.InState p st ↔ f.state = st := by
  constructor
  · rintro ⟨g, hg, hst⟩
    rw [h] at hg
    cases hg
    exact hst
  · intro hst
    exact ⟨f, h, hst⟩

theorem own_iff (h : s.fibers.get p = some f) : s.Own p ↔ f.ctx = .entry ∨ f.ctx = .stack p := by
  constructor
  · rintro ⟨g, hg, hctx⟩
    rw [h] at hg
    cases hg
    exact hctx
  · intro hctx
    exact ⟨f, h, hctx⟩

@[simp] theorem get_putFiber_self : (s.putFiber p f).fibers.get p = some f :=
  Heap.get_set_self _ _ _

@[simp] theorem get_putFiber_of_ne (h : q ≠ p) : (s.putFiber p f).fibers.get q = s.fibers.get q :=
  Heap.get_set_of_ne _ h _

theorem resume_designated (hcur : s.current = some dest) (hget : s.fibers.get dest = some g)
    (h : resume dest g s = .done () s') :
    s'.Designated ↔ (g.ctx = .entry ∨ g.ctx = .stack dest) ∧ g.state = .exec := by
  rw [resume, Command.state_bind_apply] at h
  cases hctx : g.ctx with
  | constructor =>
    rw [hctx] at h
    cases h
  | ended =>
    rw [hctx] at h
    cases h
  | entry =>
    rw [hctx] at h
    cases h
    have hnew : ((s.putFiber dest { g with ctx := .entry, cur := s.current }).putExec
        dest).fibers.get dest = some { g with ctx := .entry, cur := s.current } :=
      get_putFiber_self
    constructor
    · rintro ⟨-, hst⟩
      exact ⟨.inl rfl, (inState_iff hnew).mp hst⟩
    · rintro ⟨-, hst⟩
      exact ⟨hcur, (inState_iff hnew).mpr hst⟩
  | stack owner =>
    rw [hctx] at h
    rcases Command.bind_eq_done.mp h with ⟨o, s₁, hderef, hexec⟩
    rw [(Command.lookup_inv hderef).1] at hexec
    cases hexec
    constructor
    · rintro ⟨hdes, hst⟩
      change s.current = some owner at hdes
      rw [hcur] at hdes
      cases hdes
      exact ⟨.inr rfl, (inState_iff hget).mp hst⟩
    · rintro ⟨hown, hst⟩
      rcases hown with hown | hown
      · cases hown
      · cases hown
        exact ⟨hcur, (inState_iff hget).mpr hst⟩

/-- A switch to the fiber that has just been made the current one. -/
theorem swapcontext_designated (hcur : s.current = some dest)
    (h : swapcontext save dest mark s = .done () s') :
    s'.Designated ↔
      if save = dest then s.Designated else s.Own dest ∧ s.InState dest .exec := by
  rcases Command.bind_eq_done.mp h with ⟨f, s₁, hsave, h₁⟩
  rw [(Command.lookup_inv hsave).1] at h₁
  rcases Command.bind_eq_done.mp h₁ with ⟨g, s₂, hdest, h₂⟩
  rcases Command.lookup_inv hdest with ⟨hs₂, hg⟩
  rw [hs₂, Command.ite_apply] at h₂
  by_cases hsame : save = dest
  · rw [if_pos hsame, Command.ite_apply] at h₂
    rw [if_pos hsame]
    by_cases hmark : mark = .ended
    · rw [if_pos hmark] at h₂
      cases h₂
    · rw [if_neg hmark] at h₂
      cases h₂
      rfl
  · rw [if_neg hsame, Command.modify_bind_apply] at h₂
    rw [if_neg hsame, own_iff hg, inState_iff hg]
    apply resume_designated _ _ h₂
    · exact hcur
    · rwa [get_putFiber_of_ne (Ne.symm hsame)]

/-- The state in which `call` and `swapIn` switch. -/
theorem entered_iff (hget : s.fibers.get p = some f) :
    let s₁ := (s.setCurrent (some p)).putFiber p { f with state := .exec }
    (s₁.Designated ↔ p = s.exec) ∧ (s₁.Own p ↔ s.Own p) ∧ s₁.InState p .exec := by
  intro s₁
  have hnew : s₁.fibers.get p = some { f with state := .exec } := get_putFiber_self
  have hstate : s₁.InState p .exec := (inState_iff hnew).mpr rfl
  refine ⟨⟨?_, ?_⟩, ?_, hstate⟩
  · rintro ⟨hcur, -⟩
    exact Option.some.inj hcur
  · rintro rfl
    exact ⟨rfl, hstate⟩
  · rw [own_iff hnew, own_iff hget]

theorem call_designated (h : call p s = .done () s') : s'.Designated ↔ Proper s (.call p) := by
  rw [call, Command.modify_bind_apply] at h
  rcases Command.bind_eq_done.mp h with ⟨f, s₁, hderef, h₁⟩
  rcases Command.lookup_inv hderef with ⟨hs₁, hget⟩
  rw [hs₁, Command.modify_bind_apply, Command.state_bind_apply] at h₁
  rcases Command.bind_eq_done.mp h₁ with ⟨m, s₂, hmain, h₂⟩
  rcases nonNull_inv hmain with ⟨hs₂, hm⟩
  rw [hs₂] at h₂
  have hm' : s.main = some m := hm
  rcases entered_iff (s := s) hget with ⟨hsame, hown, hstate⟩
  rw [swapcontext_designated rfl h₂, hsame, hown, Proper, hm']
  by_cases hmp : m = p
  · rw [if_pos hmp, if_pos (congrArg some hmp)]
  · rw [if_neg hmp, if_neg (by simpa using hmp)]
    exact and_iff_left hstate

theorem swapIn_designated (hdes : s.Designated) (h : swapIn p s = .done () s') :
    s'.Designated ↔ Proper s (.swapIn p) := by
  rw [swapIn, Command.modify_bind_apply] at h
  rcases Command.bind_eq_done.mp h with ⟨f, s₁, hderef, h₁⟩
  rcases Command.lookup_inv hderef with ⟨hs₁, hget⟩
  rw [hs₁, Command.ite_apply] at h₁
  by_cases hexec : f.state = .exec
  · rw [if_pos hexec] at h₁
    cases h₁
  rw [if_neg hexec, Command.modify_bind_apply, Command.state_bind_apply] at h₁
  rcases Command.bind_eq_done.mp h₁ with ⟨m, s₂, hmain, h₂⟩
  rcases nonNull_inv hmain with ⟨hs₂, hm⟩
  rw [hs₂] at h₂
  have hm' : s.scheduler = some m := hm
  -- the fiber that is entered is not the running one, which is in the state `EXEC`
  have hother : p ≠ s.exec := by
    rintro rfl
    exact hexec ((inState_iff hget).mp hdes.2)
  rcases entered_iff (s := s) hget with ⟨hsame, hown, hstate⟩
  rw [swapcontext_designated rfl h₂, hsame, hown, Proper, hm']
  by_cases hmp : m = p
  · rw [if_pos hmp, hmp]
    simp [hother]
  · rw [if_neg hmp]
    simp [hmp, hstate]

theorem leave_designated {toMain ended : Bool} (h : leave toMain p ended s = .done () s') :
    s'.Designated ↔ s.Lands p (s.target toMain) := by
  rw [leave, Command.state_bind_apply, Command.modify_bind_apply] at h
  rcases Command.bind_eq_done.mp h with ⟨q, s₁, htarget, h₁⟩
  rcases nonNull_inv htarget with ⟨hs₁, hq⟩
  rw [hs₁] at h₁
  rw [swapcontext_designated hq h₁, Thread.Lands]
  simp only [hq, Option.some.injEq, forall_eq']
  by_cases hpq : p = q
  · rw [if_pos hpq, if_pos hpq]
    constructor
    · rintro ⟨hcur, hst⟩
      have hexec : q = s.exec := Option.some.inj hcur
      subst hexec
      exact ⟨rfl, hst⟩
    · rintro ⟨rfl, hst⟩
      exact ⟨rfl, hst⟩
  · rw [if_neg hpq, if_neg hpq]
    rfl

/-- An entry function does not end by switching to the fiber it ran for. -/
theorem leave_ended {toMain : Bool} (h : leave toMain p true s = .done () s') :
    s.target toMain ≠ some p := by
  rw [leave, Command.state_bind_apply, Command.modify_bind_apply] at h
  rcases Command.bind_eq_done.mp h with ⟨q, s₁, htarget, h₁⟩
  rw [(nonNull_inv htarget).2]
  rintro ⟨⟩
  rcases Command.bind_eq_done.mp h₁ with ⟨f, s₂, -, h₂⟩
  rcases Command.bind_eq_done.mp h₂ with ⟨g, s₃, -, h₃⟩
  rw [Command.ite_apply, if_pos rfl] at h₃
  cases h₃

/-- Changing a fiber that is left does not matter to where the switch ends. -/
theorem lands_putFiber {t : Option ℕ} (hne : t ≠ some p) :
    (s.putFiber p f).Lands p t ↔ s.Lands p t := by
  apply forall_congr'
  intro q
  apply imp_congr_right
  rintro rfl
  have hqp : q ≠ p := by simpa using hne
  have hget : (s.putFiber p f).fibers.get q = s.fibers.get q := get_putFiber_of_ne hqp
  simp only [Thread.Own, Thread.InState, hget]
  rfl

theorem getCurrentFiber_designated (hdes : s.Designated) :
    getCurrentFiber s = .done s.exec s := by
  rcases hdes with ⟨hcur, f, hget, -⟩
  have hderef : deref s.exec s = .done f s := Command.lookup_done hget
  rw [getCurrentFiber, Command.state_bind_apply, hcur]
  exact Command.bind_done hderef _

/-- The assertion of the two functions holds for the running fiber. -/
theorem yield_designated {ready : Bool} (hdes : s.Designated) (h : yield ready s = .done () s') :
    s'.Designated ↔ (ready = true → s.scheduler ≠ some s.exec) ∧ s.Lands s.exec s.scheduler := by
  rw [yield, Command.bind_done (getCurrentFiber_designated hdes)] at h
  rcases Command.bind_eq_done.mp h with ⟨f, s₁, hderef, h₁⟩
  rcases Command.lookup_inv hderef with ⟨hs₁, hget⟩
  have hexec : f.state = .exec := (inState_iff hget).mp hdes.2
  rw [hs₁, Command.ite_apply, if_neg (by simpa using hexec)] at h₁
  cases ready with
  | false =>
    rw [leave_designated h₁]
    simp [Thread.target]
  | true =>
    rw [leave_designated h₁]
    by_cases hsched : s.scheduler = some s.exec
    · have hready : ¬((s.putFiber s.exec { f with state := .ready }).InState s.exec .exec) := by
        rw [inState_iff get_putFiber_self]
        simp
      simp only [hsched, ne_eq, not_true_eq_false, imp_false, false_and, iff_false]
      intro hlands
      exact hready (hlands s.exec hsched).2
    · simp only [hsched, ne_eq, not_false_eq_true, implies_true, true_and]
      exact lands_putFiber hsched

theorem finish_designated {ok : Bool} (hdes : s.Designated) (h : finish ok s = .done () s') :
    s'.Designated ↔ Proper s (.finish ok) := by
  rw [finish, Command.state_bind_apply] at h
  rcases Command.bind_eq_done.mp h with ⟨running, s₁, hderef, h₁⟩
  rcases Command.lookup_inv hderef with ⟨hs₁, hget⟩
  rw [hs₁] at h₁
  have hproper : Proper s (.finish ok) ↔
      ∀ p, running.cur = some p → s.Lands p (s.target running.toMain) := by
    constructor
    · intro hall p hp
      exact hall running p hget hp
    · intro hall g p hg hp
      rw [hget] at hg
      cases hg
      exact hall p hp
  rw [hproper]
  cases hcur : running.cur with
  | none =>
    rw [hcur] at h₁
    cases h₁
    simpa using hdes
  | some p =>
    rw [hcur] at h₁
    rcases Command.bind_eq_done.mp h₁ with ⟨f, s₂, hderef', h₂⟩
    rw [(Command.lookup_inv hderef').1, Command.modify_bind_apply] at h₂
    have hne : s.target running.toMain ≠ some p := leave_ended (s := s.putFiber p _) h₂
    rw [leave_designated h₂]
    simp only [Option.some.injEq, forall_eq']
    exact lands_putFiber hne

theorem reset_designated {cb : Bool} (hdes : s.Designated) (h : reset p cb s = .done () s') :
    s'.Designated := by
  rcases Command.bind_eq_done.mp h with ⟨f, s₁, hderef, h₁⟩
  rcases Command.lookup_inv hderef with ⟨hs₁, hget⟩
  rw [hs₁, Command.ite_apply, Command.ite_apply] at h₁
  by_cases hstack : f.stack = false
  · rw [if_pos hstack] at h₁
    cases h₁
  rw [if_neg hstack] at h₁
  by_cases hstate : f.state ≠ .term ∧ f.state ≠ .except ∧ f.state ≠ .init
  · rw [if_pos hstate] at h₁
    cases h₁
  rw [if_neg hstate] at h₁
  cases h₁
  -- the running fiber is in another state than those a fiber can be reset in
  have hother : s.exec ≠ p := by
    rintro rfl
    rw [(inState_iff hget).mp hdes.2] at hstate
    simp at hstate
  rcases hdes with ⟨hcur, g, hg, hst⟩
  refine ⟨hcur, g, ?_, hst⟩
  exact (get_putFiber_of_ne hother).trans hg

theorem construct_designated {cb toMain : Bool} (hdes : s.Designated) :
    ¬(s.newFiber cb toMain).Designated := by
  rintro ⟨hcur, -⟩
  rcases hdes with ⟨-, f, hget, -⟩
  have hlt : s.exec < s.fibers.brk := Heap.lt_brk hget
  have hbrk : s.fibers.brk = s.exec := Option.some.inj hcur
  omega

theorem destroy_designated (h : destroy p s = .done () s') : ¬s'.Designated := by
  have hdrop : s' = s.drop p := by
    rcases Command.bind_eq_done.mp h with ⟨f, s₁, hderef, h₁⟩
    rw [(Command.lookup_inv hderef).1] at h₁
    simp only [Command.ite_apply] at h₁
    split at h₁
    · split at h₁ <;> cases h₁
      rfl
    · split at h₁
      · cases h₁
      · split at h₁ <;> cases h₁
        rfl
  rw [hdrop]
  rintro ⟨hcur, f, hget, -⟩
  have hexec : p = s.exec := Option.some.inj hcur
  change (s.fibers.free p).get s.exec = some f at hget
  rw [← hexec, Heap.get_free_self] at hget
  cases hget

/-- A step keeps the pointer right exactly if it is proper. -/
theorem step_designated {a : Act} (hdes : s.Designated) (h : a.run s = .done () s') :
    s'.Designated ↔ Proper s a := by
  cases a with
  | getCurrentFiber =>
    rw [Act.run, Command.bind_done (getCurrentFiber_designated hdes)] at h
    cases h
    simpa [Proper] using hdes
  | construct cb toMain =>
    cases h
    simpa [Proper] using construct_designated hdes
  | destroy p => simpa [Proper] using destroy_designated h
  | reset p cb => simpa [Proper] using reset_designated hdes h
  | call p => exact call_designated h
  | back p => exact leave_designated h
  | swapIn p => exact swapIn_designated hdes h
  | swapOut p => exact leave_designated h
  | yieldToReady => simpa [Proper] using yield_designated hdes h
  | yieldToHold => simpa [Proper] using yield_designated hdes h
  | finish ok => exact finish_designated hdes h
  | setScheduler p =>
    cases h
    exact ⟨fun _ => trivial, fun _ => hdes⟩

end Steps

theorem runAll_designated {acts : List Act} {s s' : Thread} (hdes : s.Designated)
    (hproper : Along Proper Act.run acts s) (hrun : runAll Act.run acts s = .done () s') :
    s'.Designated := by
  induction acts generalizing s with
  | nil =>
    cases hrun
    exact hdes
  | cons a acts ih =>
    rcases runAll_cons_done.mp hrun with ⟨s₁, ha, hrest⟩
    rw [along_cons ha] at hproper
    exact ih ((step_designated hdes ha).mpr hproper.1) hproper.2 hrest

theorem runAll_proper {acts : List Act} {s s' : Thread} (hdes : s.Designated)
    (hrun : runAll Act.run acts s = .done () s')
    (hall : ∀ n s₁, runAll Act.run (acts.take n) s = .done () s₁ → s₁.Designated) :
    Along Proper Act.run acts s := by
  induction acts generalizing s with
  | nil => trivial
  | cons a acts ih =>
    rcases runAll_cons_done.mp hrun with ⟨s₁, ha, hrest⟩
    have hnext : s₁.Designated :=
      hall 1 s₁ (runAll_cons_done.mpr ⟨s₁, ha, by simp [runAll]⟩)
    rw [along_cons ha]
    refine ⟨(step_designated hdes ha).mp hnext, ih hnext hrest fun n s₂ hs₂ => ?_⟩
    exact hall (n + 1) s₂ (runAll_cons_done.mpr ⟨s₁, ha, hs₂⟩)

/-- Throughout a sequence of calls by the running code `GetCurrentFiber` returns the running fiber,
which is in the state `EXEC`, exactly if no fiber is made or destroyed and every switch goes to a
context of its own fiber. -/
theorem current_fiber_runs (start s : Thread) (acts : List Act) (hstart : start.Designated)
    (hrun : runAll Act.run acts start = .done () s) :
    (∀ n s', runAll Act.run (acts.take n) start = .done () s' →
      s'.current = some s'.exec ∧ getCurrentFiber s' = .done s'.exec s' ∧
      s'.InState s'.exec .exec) ↔ Along Proper Act.run acts start := by
  constructor
  · intro hall
    apply runAll_proper hstart hrun
    intro n s' hs'
    exact ⟨(hall n s' hs').1, (hall n s' hs').2.2⟩
  · intro hproper n s' hs'
    have hdes := runAll_designated hstart (hproper.take n) hs'
    exact ⟨hdes.1, getCurrentFiber_designated hdes, hdes.2⟩

/-- The main fiber of a worker thread, which is also that of the scheduler, and a task fiber. -/
def workerThread : Thread :=
  ⟨(Heap.empty.alloc ⟨.exec, false, false, false, .constructor, none⟩).alloc
    ⟨.init, true, true, false, .entry, none⟩, some 0, some 0, some 0, 0⟩

theorem workerThread_designated : workerThread.Designated := ⟨rfl, _, rfl, rfl⟩

theorem current_fiber_runs_worker :
    ∃ s, runAll Act.run [.swapIn 1, .yieldToReady, .swapIn 1, .finish true] workerThread =
      .done () s ∧ s.exec = 0 ∧ Along Proper Act.run
        [.swapIn 1, .yieldToReady, .swapIn 1, .finish true] workerThread := by
  refine ⟨_, rfl, rfl, ?_⟩
  apply (current_fiber_runs workerThread _ _ workerThread_designated rfl).mp
  intro n s' hs'
  match n with
  | 0 =>
    cases hs'
    exact ⟨rfl, rfl, _, rfl, rfl⟩
  | 1 =>
    cases hs'
    exact ⟨rfl, rfl, _, rfl, rfl⟩
  | 2 =>
    cases hs'
    exact ⟨rfl, rfl, _, rfl, rfl⟩
  | 3 =>
    cases hs'
    exact ⟨rfl, rfl, _, rfl, rfl⟩
  | n + 4 =>
    rw [List.take_of_length_le (by simp)] at hs'
    cases hs'
    exact ⟨rfl, rfl, _, rfl, rfl⟩

/-- A task fiber that makes a fiber is no longer the current one, and cannot yield. -/
theorem constructor_misleads :
    ∃ s, runAll Act.run [.swapIn 1, .construct true false] workerThread = .done () s ∧
      s.exec = 1 ∧ s.current = some 2 ∧ getCurrentFiber s = .done 2 s ∧
      YieldToHold s = .raised ⟨"cur->m_state == EXEC"⟩ s :=
  ⟨_, rfl, rfl, rfl, rfl, rfl⟩

end Sylar.Fibers
