import Sylar.IOManager.Runs

/-! # The kernel's interest list

The manager keeps a copy of the kernel's interest mask in each context and chooses the operation of
`epoll_ctl` from the copy. Run with a system call that refuses an operation which the interest list
does not admit, the functions do the same.
-/
namespace Sylar.IOManager
open Memory
open Scheduler (Assertion)

variable {F C S : Type}

/-- `EPOLL_CTL_ADD` needs a descriptor that is absent, the others one that is present. -/
def admits : CtlOp → Option Mask → Bool
  | .add, none => true
  | .mod, some _ => true
  | .del, some _ => true
  | _, _ => false

/-- `epoll_ctl`, or an assertion failure where the interest list does not admit the operation. -/
def strictCtl (op : CtlOp) (fd : ℕ) (mask : Mask) (ok : Bool) : Cmd F C S ℤ := do
  let m ← Command.state
  if admits op (m.interest fd) then epollCtl op fd mask ok else Command.raise ⟨"EEXIST or ENOENT"⟩

/-- The interest list is what the contexts say. -/
def Mirrors (m : IOManager F C S) : Prop :=
  ∀ fd, m.interest fd = (m.fdContexts[fd]?).bind fun c => kernelMask c.events

section Strict

variable {m : IOManager F C S} {slots : List (Slots F C S)} {fd : ℕ} {c : FdContext F C S}

theorem Mirrors.interest_eq (h : Mirrors m) (hc : m.fdContexts[fd]? = some c) :
    m.interest fd = kernelMask c.events := by
  rw [h fd, hc]
  rfl

/-- A descriptor with events may be changed and removed. -/
theorem Mirrors.admits_change (h : Mirrors m) (hc : m.fdContexts[fd]? = some c)
    (hne : c.events ≠ 0) (left : Mask) :
    admits (if left ≠ 0 then .mod else .del) (m.interest fd) = true := by
  rw [h.interest_eq hc, kernelMask, if_neg hne]
  split_ifs <;> rfl

theorem Mirrors.admits_add (h : Mirrors m) (hc : m.fdContexts[fd]? = some c) :
    admits (if c.events ≠ 0 then .mod else .add) (m.interest fd) = true := by
  rw [h.interest_eq hc, kernelMask]
  by_cases hz : c.events = 0
  · rw [if_pos hz, if_neg (not_not.mpr hz)]
    rfl
  · rw [if_neg hz, if_pos hz]
    rfl

theorem strictCtl_bind {α : Type} {op : CtlOp} (hop : admits op (m.interest fd) = true) (mask : Mask)
    (ok : Bool) (k : ℤ → Cmd F C S α) :
    (strictCtl op fd mask ok >>= k) m = (epollCtl op fd mask ok >>= k) m := by
  have hctl : strictCtl op fd mask ok m = epollCtl op fd mask ok m := by
    rw [strictCtl, Command.state_bind_apply, Command.ite_apply, if_pos hop]
  rw [Command.bind_apply, Command.bind_apply, hctl]

theorem ne_zero_of_has {mask : Mask} {event : Event} (h : has mask event = true) : mask ≠ 0 := by
  rintro rfl
  simp [has] at h

theorem Mirrors.grow (h : Mirrors m) {size : ℕ} (hsize : m.fdContexts.length ≤ size) :
    Mirrors (contextResize size m) := by
  intro i
  dsimp only [contextResize]
  rw [h i, List.take_of_length_le hsize, List.getElem?_append]
  split_ifs with hi
  · rfl
  · rw [List.getElem?_eq_none (by omega), List.getElem?_map]
    cases (List.range' m.fdContexts.length (size - m.fdContexts.length))[i - m.fdContexts.length]? with
    | none => rfl
    | some k => rfl

theorem Mirrors.enlarged (h : Mirrors m) (fd : ℕ) : Mirrors (enlarged fd m) := by
  rw [IOManager.enlarged]
  split_ifs with hlt
  · exact h
  · exact h.grow (by omega)

/-- The functions that look at the context of a descriptor first, if there is one. -/
theorem guarded_congr {α : Type} {d : Cmd F C S α} {f g : FdContext F C S → Cmd F C S α}
    (h : ∀ c, m.fdContexts[fd]? = some c → f c m = g c m) :
    (if m.fdContexts.length ≤ fd then d else context fd >>= f) m =
      (if m.fdContexts.length ≤ fd then d else context fd >>= g) m := by
  refine Command.ite_congr_apply (fun _ => rfl) fun _ => Command.bind_congr_apply ?_
  intro c m' hc
  obtain ⟨hget, rfl⟩ := context_done hc
  exact h c hget

/-- The operation is always one that the interest list admits. -/
theorem Mirrors.runVia_strict (h : Mirrors m) (hrep : Represents m slots) (o : Op F C S) :
    o.runVia strictCtl m = o.run m := by
  rw [Op.run]
  cases o with
  | addEvent fd event cb current fiber exec ok =>
    have hadd : addEventVia strictCtl fd event cb current fiber exec ok m =
        addEventVia epollCtl fd event cb current fiber exec ok m := by
      rw [addEventVia, addEventVia, Command.modify_bind_apply, Command.modify_bind_apply]
      apply Command.bind_congr_apply
      intro c m' hc
      obtain ⟨hget, rfl⟩ := context_done hc
      have hadmits := (h.enlarged fd).admits_add hget
      exact Command.ite_congr_apply (fun _ => rfl) fun _ => strictCtl_bind hadmits _ _ _
    rw [Op.runVia, Op.runVia, Command.bind_apply, Command.bind_apply, hadd]
  | delEvent fd event ok =>
    have hdel : delEventVia strictCtl fd event ok m = delEventVia epollCtl fd event ok m := by
      refine guarded_congr fun c hget => Command.ite_congr_apply (fun _ => rfl) fun hhas => ?_
      exact strictCtl_bind (h.admits_change hget (ne_zero_of_has (by simpa using hhas)) _) _ _ _
    rw [Op.runVia, Op.runVia, Command.bind_apply, Command.bind_apply, hdel]
  | cancelEvent fd event ok =>
    have hcancel : cancelEventVia strictCtl fd event ok m = cancelEventVia epollCtl fd event ok m := by
      refine guarded_congr fun c hget => Command.ite_congr_apply (fun _ => rfl) fun hhas => ?_
      exact strictCtl_bind (h.admits_change hget (ne_zero_of_has (by simpa using hhas)) _) _ _ _
    rw [Op.runVia, Op.runVia, Command.bind_apply, Command.bind_apply, hcancel]
  | cancelAll fd ok =>
    have hcancel : cancelAllVia strictCtl fd ok m = cancelAllVia epollCtl fd ok m := by
      refine guarded_congr fun c hget => Command.ite_congr_apply (fun _ => rfl) fun hne => ?_
      exact strictCtl_bind (h.admits_change hget hne 0) _ _ _
    rw [Op.runVia, Op.runVia, Command.bind_apply, Command.bind_apply, hcancel]
  | dispatch fd events ok =>
    apply Command.bind_congr_apply
    intro c m' hc
    obtain ⟨sl, hsl, rfl, rfl⟩ := context_inv hrep hc
    refine Command.ite_congr_apply (fun _ => rfl) fun hreal => ?_
    have hne : (FdContext.ofSlots fd sl).events ≠ 0 := by
      intro hz
      rw [hz] at hreal
      exact hreal (by simp [Event.mask])
    exact strictCtl_bind (h.admits_change (hrep.get hsl) hne _) _ _ _

end Strict

section Steps

variable {m m' : IOManager F C S} {slots : List (Slots F C S)}

/-- One descriptor is changed, in the contexts and in the interest list. -/
theorem Mirrors.change {ok : Option S → Prop} {fd : ℕ} {sl : Slots F C S} (h : Mirrors m)
    (hc : Changes ok m slots fd sl m') : Mirrors m' := by
  intro i
  rw [hc.interest, hc.contexts, List.getElem?_set]
  by_cases hfd : i = fd
  · rw [if_pos hfd.symm, if_pos hc.lt]
    exact if_pos hfd
  · rw [if_neg (Ne.symm hfd), ← h i]
    exact if_neg hfd

theorem Mirrors.step {o : Op F C S} (hm : Mirrors m) (h : Represents m slots)
    (hrun : o.run m = .done () m') : Mirrors m' := by
  have ha : o.Allowed fun _ => True := by cases o <;> trivial
  rcases Op.inv h ha hrun with ⟨m₁, slots₁, hgrown, -, hstep⟩
  have hm₁ : Mirrors m₁ := by
    rcases hgrown with rfl | ⟨fd, rfl⟩
    · exact hm
    · exact hm.enlarged fd
  rcases hstep with rfl | ⟨-, fd, sl, hc⟩
  · exact hm₁
  · exact hm₁.change hc

/-- The events, the contexts, the counter and the interest list are as they were. -/
structure Untouched (m m' : IOManager F C S) : Prop where
  contexts : ∀ (fd : ℕ) (c : FdContext F C S), m.fdContexts[fd]? = some c →
    m'.fdContexts[fd]? = some c
  pending : m'.pendingEventCount = m.pendingEventCount
  interest : m'.interest = m.interest

theorem Untouched.refl (m : IOManager F C S) : Untouched m m := ⟨fun _ _ h => h, rfl, rfl⟩

theorem untouched_enlarged (m : IOManager F C S) (fd : ℕ) : Untouched m (enlarged fd m) := by
  rw [enlarged]
  split_ifs with hlt
  · exact .refl m
  · refine ⟨fun i c hc => ?_, rfl, rfl⟩
    dsimp only [contextResize]
    rw [List.take_of_length_le (by omega)]
    exact getElem?_append_of_eq_some hc

theorem untouched_of_failure {o : Op F C S} (h : Represents m slots) (hans : o.answer = false)
    (hrun : o.run m = .done () m') : Untouched m m' := by
  have ha : o.Allowed fun _ => True := by cases o <;> trivial
  rcases Op.inv h ha hrun with ⟨m₁, slots₁, hgrown, -, rfl | ⟨hb, -⟩⟩
  · rcases hgrown with rfl | ⟨fd, rfl⟩
    · exact .refl _
    · exact untouched_enlarged m fd
  · rw [hans] at hb
    cases hb

end Steps

variable {ok : Option S → Prop} {m m' : IOManager F C S} {slots : List (Slots F C S)}

theorem mirrors_init : Mirrors (init : IOManager F C S) := by
  have hempty : Mirrors (⟨[], 0, fun _ => .none, [], [], []⟩ : IOManager F C S) := by
    intro i
    rfl
  exact hempty.grow (Nat.zero_le 32)

theorem Reachable.mirrors (h : Reachable ok m) : Mirrors m := by
  have hboth : (∃ slots, Inv ok m slots) ∧ Mirrors m := by
    refine h.invariant (I := fun m => (∃ slots, Inv ok m slots) ∧ Mirrors m)
      ⟨⟨_, init_inv ok⟩, mirrors_init⟩ ?_
    rintro m o m' ⟨⟨slots, hinv⟩, hm⟩ hallowed hrun
    exact ⟨hinv.moves (Op.moves hinv.represents hallowed hrun), hm.step hinv.represents hrun⟩
  exact hboth.2

/-- In every state of every run the kernel's mask of a descriptor is the mask of its context, so
that the operation of the next `epoll_ctl` is admitted; if that call fails nothing has changed. -/
theorem interest_mirrors (h : Reachable ok m) :
    (∀ fd, m.interest fd = (m.fdContexts[fd]?).bind fun c =>
      if c.events = 0 then none else some (EPOLLET ||| c.events)) ∧
    (∀ o : Op F C S, o.runVia strictCtl m = o.run m) ∧
    ∀ (o : Op F C S) (m' : IOManager F C S), o.answer = false → o.run m = .done () m' →
      (∀ (fd : ℕ) (c : FdContext F C S), m.fdContexts[fd]? = some c → m'.fdContexts[fd]? = some c) ∧
        m'.pendingEventCount = m.pendingEventCount ∧ m'.interest = m.interest := by
  obtain ⟨slots, hinv⟩ := h.inv
  refine ⟨h.mirrors, h.mirrors.runVia_strict hinv.represents, fun o m' hans hrun => ?_⟩
  have huntouched := untouched_of_failure hinv.represents hans hrun
  exact ⟨huntouched.contexts, huntouched.pending, huntouched.interest⟩

/-- Both events of a descriptor, one of which is dispatched. -/
theorem interest_mirrors_dispatch : ∃ m : IOManager Unit Unit Unit,
    m.interest 3 = some (EPOLLET ||| EPOLLOUT) ∧ ∀ fd, m.interest fd =
      (m.fdContexts[fd]?).bind fun c => if c.events = 0 then none else some (EPOLLET ||| c.events) := by
  have hinit : Reachable (fun _ => True) (init : IOManager Unit Unit Unit) := .init
  have ha (o : Op Unit Unit Unit) : o.Allowed (fun _ => True) := by cases o <;> trivial
  have h₁ := hinit.step (ha (.addEvent 3 .read (some ()) (some ()) () true true)) rfl
  have h₂ := h₁.step (ha (.addEvent 3 .write none (some ()) () true true)) rfl
  have h₃ := h₂.step (ha (.dispatch 3 EPOLLIN true)) rfl
  exact ⟨_, rfl, (interest_mirrors h₃).1⟩

end Sylar.IOManager
