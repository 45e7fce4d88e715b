import Sylar.Hook.FdManager
import Mathlib.Data.Nat.Init
import Mathlib.Order.Nat

/-! # Contexts handed out by concurrent calls

Several threads call `FdManager::get(fd, true)`. A thread that found no context under the read lock
creates one under the write lock without looking again, so two threads that both found none
each install a context of their own.
-/
namespace Sylar.Hook
open Memory

/-- `pc` has the descriptors of the threads between the two locks of `get`; `returned` is the history
of the calls that have returned, with `auto_create` and the result. -/
structure Shared (T : Type) where
  fds : Fds
  pc : T → Option ℤ
  returned : List (ℤ × Bool × Option ℕ)

inductive Act (T : Type) where
  | get (t : T) (fd : ℤ) (autoCreate : Bool)
  | create (t : T)
  | del (fd : ℤ)
  | putFile (fd : ℤ) (f : Option File)
  | setTimeout (p : ℕ) (type : TimeoutType) (v : UInt64)
  | setUserNonblock (p : ℕ) (v : Bool)
deriving DecidableEq

variable {T : Type}

namespace Shared

def putFds (fds : Fds) (s : Shared T) : Shared T := { s with fds := fds }

def finish (fd : ℤ) (autoCreate : Bool) (p : Option ℕ) (s : Shared T) : Shared T :=
  { s with returned := (fd, autoCreate, p) :: s.returned }

def goto [DecidableEq T] (t : T) (pc : Option ℤ) (s : Shared T) : Shared T :=
  { s with pc := Function.update s.pc t pc }

end Shared

def onFds {α : Type} (c : Cmd α) : Command Empty (Shared T) α :=
  Command.focus Shared.fds Shared.putFds c

variable [DecidableEq T]

/-- The part of a call under the read lock. -/
def getShared (t : T) (fd : ℤ) (autoCreate : Bool) : Command Empty (Shared T) Unit := do
  let r ← onFds (lookup fd autoCreate)
  match r with
  | some p => Command.modify (Shared.finish fd autoCreate p)
  | none => Command.modify (Shared.goto t (some fd))

/-- The part of a call under the write lock. -/
def createShared (t : T) (fd : ℤ) : Command Empty (Shared T) Unit := do
  let p ← onFds (create fd)
  Command.modify (Shared.goto t none)
  Command.modify (Shared.finish fd true (some p))

/-- A thread that is between the locks can only go on; a descriptor is opened, closed and changed at
any time. -/
def Act.run (a : Act T) : Command Empty (Shared T) Unit := do
  let s ← Command.state
  match a with
  | .get t fd autoCreate =>
    match s.pc t with
    | some _ => pure ()
    | none => getShared t fd autoCreate
  | .create t =>
    match s.pc t with
    | some fd => createShared t fd
    | none => pure ()
  | .del fd => onFds (Hook.del fd)
  | .putFile fd f => onFds (Command.modify (Fds.putFile fd f))
  | .setTimeout p type v => onFds (Command.modify (Fds.update p (FdCtx.setTimeout type v)))
  | .setUserNonblock p v => onFds (Command.modify (Fds.update p (FdCtx.setUserNonblock v)))

/-- All calls for a descriptor that may create its context have returned the same one. -/
def SameContext (fd : ℤ) (s : Shared T) : Prop :=
  ∀ p q, (fd, true, p) ∈ s.returned → (fd, true, q) ∈ s.returned → p = q

/-- No `del(fd)`, and no descriptor for which the size of the table would not fit an `int`. -/
def Undeleted (fd : ℤ) (_ : Shared T) : Act T → Prop
  | .del g => g ≠ fd
  | .get _ g _ => g ≤ maxFd
  | _ => True

/-- Whoever creates the context of `fd` finds none. -/
def Vacant (fd : ℤ) (s : Shared T) : Act T → Prop
  | .create t => s.pc t = some fd → s.fds.slot fd = none
  | _ => True

/-- Nothing has been asked for yet; the table may have a context for `fd`. -/
structure Shared.Start (fd : ℤ) (s : Shared T) : Prop where
  pc : ∀ t, s.pc t = none
  returned : s.returned = []
  small : s.fds.datas.length < 2147483648
  valid : ∀ p, s.fds.slot fd = some p → p < s.fds.ctxs.length

/-- Every result is the entry of the table, and a thread that is about to create a context found
none before the present entry was returned to another. -/
structure Shared.Inv (fd : ℤ) (s : Shared T) : Prop where
  small : s.fds.datas.length < 2147483648
  valid : ∀ p, s.fds.slot fd = some p → p < s.fds.ctxs.length
  bounded : ∀ t g, s.pc t = some g → g ≤ maxFd ∧ g ≠ -1
  entry : ∀ p, (fd, true, p) ∈ s.returned → p = s.fds.slot fd ∧ (p = none → fd = -1)
  pending : ∀ t, s.pc t = some fd → s.fds.slot fd = none ∨ (fd, true, s.fds.slot fd) ∈ s.returned

section Steps

variable {fd g : ℤ} {t : T} {s s' : Shared T} {a : Act T} {autoCreate : Bool}

omit [DecidableEq T] in
theorem Shared.Start.inv (h : s.Start fd) : s.Inv fd where
  small := h.small
  valid := h.valid
  bounded := by simp [h.pc]
  entry := by simp [h.returned]
  pending := by simp [h.pc]

omit [DecidableEq T] in
/-- Only the entry of `fd` matters, and that the table and the contexts do not shrink. -/
theorem Shared.Inv.putFds (h : s.Inv fd) {f : Fds} (hlen : f.datas.length < 2147483648)
    (hctxs : s.fds.ctxs.length ≤ f.ctxs.length) (hslot : f.slot fd = s.fds.slot fd) :
    (s.putFds f).Inv fd where
  small := hlen
  valid := by
    intro p hp
    rw [Shared.putFds, hslot] at hp
    exact (h.valid p hp).trans_le hctxs
  bounded := h.bounded
  entry := by
    rw [Shared.putFds, hslot]
    exact h.entry
  pending := by
    rw [Shared.putFds, hslot]
    exact h.pending

omit [DecidableEq T] in
theorem Shared.Inv.finish (h : s.Inv fd) {p : Option ℕ}
    (hp : g = fd → autoCreate = true → p = s.fds.slot fd ∧ (p = none → fd = -1)) :
    (s.finish g autoCreate p).Inv fd where
  small := h.small
  valid := h.valid
  bounded := h.bounded
  entry := by
    intro q hq
    rcases List.mem_cons.mp hq with hq | hq
    · cases hq
      exact hp rfl rfl
    · exact h.entry q hq
  pending := by
    intro t ht
    exact (h.pending t ht).imp_right (List.mem_cons_of_mem _)

theorem pc_goto {t' : T} {pc : Option ℤ} (h : (s.goto t pc).pc t' = some g) :
    pc = some g ∨ s.pc t' = some g := by
  change Function.update s.pc t pc t' = some g at h
  by_cases htt : t' = t
  · rw [htt, Function.update_self] at h
    exact .inl h
  · rw [Function.update_of_ne htt] at h
    exact .inr h

theorem Shared.Inv.goto (h : s.Inv fd) {pc : Option ℤ}
    (hpc : ∀ g, pc = some g → g ≤ maxFd ∧ g ≠ -1 ∧ s.fds.slot g = none) :
    (s.goto t pc).Inv fd where
  small := h.small
  valid := h.valid
  bounded := by
    intro t' g ht'
    rcases pc_goto ht' with hnew | hold
    · exact ⟨(hpc g hnew).1, (hpc g hnew).2.1⟩
    · exact h.bounded t' g hold
  entry := h.entry
  pending := by
    intro t' ht'
    rcases pc_goto ht' with hnew | hold
    · exact .inl (hpc fd hnew).2.2
    · exact h.pending t' hold

theorem getShared_inv (h : s.Inv fd) (hg : g ≤ maxFd)
    (hrun : getShared t g autoCreate s = .done () s') : s'.Inv fd := by
  rcases Command.bind_eq_done.mp hrun with ⟨r, s₁, hlook, hrest⟩
  rcases Command.focus_eq_done.mp hlook with ⟨f, hfound, rfl⟩
  cases autoCreate with
  | false =>
    rcases lookup_false_inv hfound with ⟨rfl, p, rfl⟩
    cases hrest
    apply h.finish
    simp
  | true =>
    rcases lookup_inv h.small hfound with ⟨rfl, ⟨rfl, hnone⟩ | ⟨rfl, hneg, hslot⟩⟩
    · cases hrest
      apply h.finish
      rintro rfl -
      exact ⟨rfl, hnone⟩
    · cases hrest
      apply h.goto
      rintro g' ⟨⟩
      exact ⟨hg, hneg, hslot⟩

theorem createShared_done (hrun : createShared t g s = .done () s') :
    ∃ q f, create g s.fds = .done q f ∧
      s' = (((s.putFds f).goto t none).finish g true (some q)) := by
  rcases Command.bind_eq_done.mp hrun with ⟨q, s₁, hcreate, hrest⟩
  rcases Command.focus_eq_done.mp hcreate with ⟨f, hnew, rfl⟩
  cases hrest
  exact ⟨q, f, hnew, rfl⟩

/-- The first context of a descriptor is the result of the call that makes it. -/
theorem Shared.Inv.first (h : s.Inv fd) (hpc : s.pc t = some fd) (hslot : s.fds.slot fd = none)
    {q : ℕ} {f : Fds} (hsmall : f.datas.length < 2147483648) (hq : q < f.ctxs.length)
    (hnew : f.slot fd = some q) :
    (((s.putFds f).goto t none).finish fd true (some q)).Inv fd where
  small := hsmall
  valid := by
    intro p hp
    change f.slot fd = some p at hp
    rw [hnew] at hp
    cases hp
    exact hq
  bounded := by
    intro t' g ht'
    exact h.bounded t' g ((pc_goto ht').resolve_left (by simp))
  entry := by
    intro p hp
    rcases List.mem_cons.mp hp with hp | hp
    · cases hp
      exact ⟨hnew.symm, by simp⟩
    · rcases h.entry p hp with ⟨rfl, hnone⟩
      exact absurd (hnone hslot) (h.bounded t fd hpc).2
  pending := by
    intro t' _
    change _ ∨ (fd, true, f.slot fd) ∈ (fd, true, some q) :: s.returned
    rw [hnew]
    exact .inr List.mem_cons_self

theorem createShared_inv (h : s.Inv fd) (hpc : s.pc t = some g)
    (hvacant : g = fd → s.fds.slot fd = none) (hrun : createShared t g s = .done () s') :
    s'.Inv fd := by
  rcases createShared_done hrun with ⟨q, f, hcreate, rfl⟩
  rcases create_inv h.small (h.bounded t g hpc).1 hcreate with
    ⟨rfl, _, hctxs, hsmall, hnew, hold⟩
  have hlen : f.ctxs.length = s.fds.ctxs.length + 1 := by
    rw [hctxs]
    exact length_ctxs_alloc
  by_cases hg : g = fd
  · subst hg
    exact h.first hpc (hvacant rfl) hsmall (by omega) hnew
  · have hfds : (s.putFds f).Inv fd := h.putFds hsmall (by omega) (hold fd (Ne.symm hg))
    apply (hfds.goto (by simp)).finish
    exact fun heq => absurd heq hg

theorem step_inv (h : s.Inv fd) (hkept : Undeleted fd s a) (hvacant : Vacant fd s a)
    (hrun : a.run s = .done () s') : s'.Inv fd := by
  cases a with
  | get t g autoCreate =>
    cases hpc : s.pc t with
    | some g' =>
      simp only [Act.run, Command.state_bind_apply, hpc] at hrun
      cases hrun
      exact h
    | none =>
      simp only [Act.run, Command.state_bind_apply, hpc] at hrun
      exact getShared_inv h hkept hrun
  | create t =>
    cases hpc : s.pc t with
    | none =>
      simp only [Act.run, Command.state_bind_apply, hpc] at hrun
      cases hrun
      exact h
    | some g =>
      simp only [Act.run, Command.state_bind_apply, hpc] at hrun
      apply createShared_inv h hpc _ hrun
      rintro rfl
      exact hvacant hpc
  | del g =>
    rcases Command.focus_eq_done.mp hrun with ⟨f, hdel, rfl⟩
    rcases del_inv hdel with ⟨hctxs, hlen, hslot⟩
    exact h.putFds (hlen.trans_lt h.small) (by rw [hctxs]) (hslot fd (Ne.symm hkept))
  | putFile g f =>
    cases hrun
    exact h.putFds h.small le_rfl rfl
  | setTimeout p type v =>
    cases hrun
    exact h.putFds h.small (List.length_modify ..).ge rfl
  | setUserNonblock p v =>
    cases hrun
    exact h.putFds h.small (List.length_modify ..).ge rfl

/-- A context created beside another is returned beside it. -/
theorem step_clash (h : s.Inv fd) (hclash : ¬Vacant fd s a) (hrun : a.run s = .done () s') :
    ¬SameContext fd s' := by
  cases a with
  | create t =>
    simp only [Vacant, Classical.not_imp] at hclash
    rcases hclash with ⟨hpc, hslot⟩
    simp only [Act.run, Command.state_bind_apply, hpc] at hrun
    rcases createShared_done hrun with ⟨q, f, hcreate, rfl⟩
    rcases create_inv h.small (h.bounded t fd hpc).1 hcreate with ⟨rfl, -⟩
    intro hsame
    have hboth : some s.fds.ctxs.length = s.fds.slot fd := by
      apply hsame
      · exact List.mem_cons_self
      · exact List.mem_cons_of_mem _ ((h.pending t hpc).resolve_left hslot)
    exact absurd (h.valid _ hboth.symm) (Nat.lt_irrefl _)
  | _ => exact absurd trivial hclash

/-- The results of a call are never taken back. -/
theorem step_returned (hrun : a.run s = .done () s') {r : ℤ × Bool × Option ℕ}
    (hr : r ∈ s.returned) : r ∈ s'.returned := by
  cases a with
  | get t g autoCreate =>
    cases hpc : s.pc t with
    | some g' =>
      simp only [Act.run, Command.state_bind_apply, hpc] at hrun
      cases hrun
      exact hr
    | none =>
      simp only [Act.run, Command.state_bind_apply, hpc] at hrun
      rcases Command.bind_eq_done.mp hrun with ⟨res, s₁, hlook, hrest⟩
      rcases Command.focus_eq_done.mp hlook with ⟨f, _, rfl⟩
      cases res with
      | none =>
        cases hrest
        exact hr
      | some p =>
        cases hrest
        exact List.mem_cons_of_mem _ hr
  | create t =>
    cases hpc : s.pc t with
    | none =>
      simp only [Act.run, Command.state_bind_apply, hpc] at hrun
      cases hrun
      exact hr
    | some g =>
      simp only [Act.run, Command.state_bind_apply, hpc] at hrun
      rcases createShared_done hrun with ⟨q, f, hcreate, rfl⟩
      exact List.mem_cons_of_mem _ hr
  | del g =>
    rcases Command.focus_eq_done.mp hrun with ⟨f, hdel, rfl⟩
    exact hr
  | putFile g f =>
    cases hrun
    exact hr
  | setTimeout p type v =>
    cases hrun
    exact hr
  | setUserNonblock p v =>
    cases hrun
    exact hr

theorem runAll_returned {acts : List (Act T)} (hrun : runAll Act.run acts s = .done () s')
    {r : ℤ × Bool × Option ℕ} (hr : r ∈ s.returned) : r ∈ s'.returned := by
  induction acts generalizing s with
  | nil =>
    cases hrun
    exact hr
  | cons a acts ih =>
    rcases runAll_cons_done.mp hrun with ⟨s₁, ha, hrest⟩
    exact ih hrest (step_returned ha hr)

theorem runAll_inv {acts : List (Act T)} (h : s.Inv fd)
    (hkept : Along (Undeleted fd) Act.run acts s) (hrun : runAll Act.run acts s = .done () s') :
    SameContext fd s' ↔ Along (Vacant fd) Act.run acts s := by
  induction acts generalizing s with
  | nil =>
    cases hrun
    constructor
    · intro _
      trivial
    · intro _ p q hp hq
      rw [(h.entry p hp).1, (h.entry q hq).1]
  | cons a acts ih =>
    rcases runAll_cons_done.mp hrun with ⟨s₁, ha, hrest⟩
    rw [along_cons ha] at hkept ⊢
    have htail : Vacant fd s a → (SameContext fd s' ↔ Along (Vacant fd) Act.run acts s₁) :=
      fun hvacant => ih (step_inv h hkept.1 hvacant ha) hkept.2 hrest
    constructor
    · intro hsame
      have hvacant : Vacant fd s a := by
        by_contra hclash
        apply step_clash h hclash ha
        intro p q hp hq
        exact hsame p q (runAll_returned hrest hp) (runAll_returned hrest hq)
      exact ⟨hvacant, (htail hvacant).mp hsame⟩
    · intro halong
      exact (htail halong.1).mpr halong.2

end Steps

/-- In a run without `del(fd)` all calls return the same context exactly if no thread creates one
while the table has one. -/
theorem contexts_same (fd : ℤ) (start : Shared T) (acts : List (Act T)) (s : Shared T)
    (hstart : start.Start fd) (hkept : Along (Undeleted fd) Act.run acts start)
    (hrun : runAll Act.run acts start = .done () s) :
    SameContext fd s ↔ Along (Vacant fd) Act.run acts start :=
  runAll_inv hstart.inv hkept hrun

def twoThreads : Shared Bool :=
  ⟨Fds.init fun fd => if fd = 3 then some ⟨true, 2⟩ else none, fun _ => none, []⟩

theorem twoThreads_start : twoThreads.Start 3 where
  pc := fun _ => rfl
  returned := rfl
  small := by decide
  valid := by
    intro p hp
    cases hp

theorem contexts_same_twoThreads :
    ∃ s, runAll Act.run [.get true 3 true, .create true, .get false 3 true] twoThreads =
      .done () s ∧ s.returned = [(3, true, some 0), (3, true, some 0)] ∧ SameContext 3 s := by
  refine ⟨_, rfl, rfl, ?_⟩
  apply (contexts_same 3 twoThreads [.get true 3 true, .create true, .get false 3 true] _
    twoThreads_start _ rfl).mpr
  · exact ⟨trivial, fun _ => rfl, trivial, trivial⟩
  · have hfd : (3 : ℤ) ≤ maxFd := by decide
    exact ⟨hfd, trivial, hfd, trivial⟩

theorem contexts_differ :
    ∃ s, runAll Act.run [.get true 3 true, .get false 3 true, .create true, .create false]
      twoThreads = .done () s ∧ (3, true, some 0) ∈ s.returned ∧ (3, true, some 1) ∈ s.returned ∧
      ¬SameContext 3 s := by
  refine ⟨_, rfl, by decide, by decide, ?_⟩
  intro hsame
  have hzero := hsame (some 0) (some 1) (by decide) (by decide)
  cases hzero

end Sylar.Hook
