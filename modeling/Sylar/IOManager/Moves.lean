import Sylar.IOManager.Slots
import Mathlib.Logic.Relation

/-! # What a step of the manager can do

Whatever function runs, the table of waiters changes by a few elementary moves.
A waiter enters an empty slot, leaves it for its scheduler or is dropped; apart
from that the table only grows and the kernel's interest list changes.
-/
namespace Sylar.IOManager
open Memory
open Scheduler (Task)

variable {F C S : Type}

/-- The contexts of the manager are those of the slots. -/
def Represents (m : IOManager F C S) (slots : List (Slots F C S)) : Prop :=
  ∀ i, m.fdContexts[i]? = (slots[i]?).map (FdContext.ofSlots i)

/-- The elementary moves; `ok` holds of the schedulers that waiters are registered with. -/
inductive Move (ok : Option S → Prop) :
    IOManager F C S × List (Slots F C S) → IOManager F C S × List (Slots F C S) → Prop
  | ctl {m : IOManager F C S} {slots : List (Slots F C S)} (f : ℕ → Option Mask) :
      Move ok (m, slots) ({ m with interest := f }, slots)
  | grow {m : IOManager F C S} {slots : List (Slots F C S)} {size : ℕ}
      (h : slots.length ≤ size) :
      Move ok (m, slots)
        (contextResize size m, slots ++ List.replicate (size - slots.length) .empty)
  | enter {m : IOManager F C S} {slots : List (Slots F C S)} {fd : ℕ} {sl : Slots F C S}
      {event : Event} {w : Waiter F C S} (hsl : slots[fd]? = some sl) (hne : event ≠ .none)
      (hget : sl.get event = none) (hticket : w.ticket = m.registered.length) (hok : ok w.scheduler) :
      Move ok (m, slots) (register m fd sl event w, slots.set fd (sl.set event (some w)))
  | fire {m : IOManager F C S} {slots : List (Slots F C S)} {fd : ℕ} {sl : Slots F C S}
      {event : Event} {w : Waiter F C S} {s : S} {how : Removal} (hsl : slots[fd]? = some sl)
      (hget : sl.get event = some w) (hs : w.scheduler = some s) (hhow : how ≠ .delEvent) :
      Move ok (m, slots) ({ trigger m how fd sl event w s with
        pendingEventCount := m.pendingEventCount - 1 }, slots.set fd (sl.set event none))
  | drop {m : IOManager F C S} {slots : List (Slots F C S)} {fd : ℕ} {sl : Slots F C S}
      {event : Event} {w : Waiter F C S} (hsl : slots[fd]? = some sl)
      (hget : sl.get event = some w) :
      Move ok (m, slots) ({ m with
        fdContexts := m.fdContexts.set fd (.ofSlots fd (sl.set event none))
        pendingEventCount := m.pendingEventCount - 1
        removed := m.removed ++ [(.delEvent, w.ticket)] }, slots.set fd (sl.set event none))

/-- Finitely many moves from one table to another. -/
def Moves (ok : Option S → Prop) (m : IOManager F C S) (slots : List (Slots F C S))
    (m' : IOManager F C S) : Prop :=
  ∃ slots', Relation.ReflTransGen (Move ok) (m, slots) (m', slots')

section Represents

variable {m : IOManager F C S} {slots : List (Slots F C S)} {fd : ℕ} {sl : Slots F C S}

theorem Represents.get (h : Represents m slots) (hsl : slots[fd]? = some sl) :
    m.fdContexts[fd]? = some (.ofSlots fd sl) := by
  rw [h fd, hsl, Option.map_some]

theorem Represents.length_eq (h : Represents m slots) : m.fdContexts.length = slots.length := by
  apply le_antisymm
  · by_contra hlt
    have := h slots.length
    simp at this
    omega
  · by_contra hlt
    have := h m.fdContexts.length
    rw [List.getElem?_eq_none (le_refl m.fdContexts.length),
      List.getElem?_eq_getElem (by omega)] at this
    cases this

theorem Represents.set (h : Represents m slots) (fd : ℕ) (sl : Slots F C S) (i : ℕ) :
    (m.fdContexts.set fd (.ofSlots fd sl))[i]? =
      ((slots.set fd sl)[i]?).map (FdContext.ofSlots i) := by
  rw [List.getElem?_set, List.getElem?_set, h.length_eq]
  split_ifs with hi hlt
  · rw [Option.map_some, hi]
  · rfl
  · exact h i

theorem Represents.grow (h : Represents m slots) {size : ℕ} (hsize : slots.length ≤ size) :
    Represents (contextResize size m)
      (slots ++ List.replicate (size - slots.length) .empty) := by
  have hlen := h.length_eq
  intro i
  dsimp only [contextResize]
  rw [List.take_of_length_le (by omega), List.getElem?_append, List.getElem?_append, hlen]
  split_ifs with hi
  · exact h i
  · rw [List.getElem?_map, List.getElem?_replicate]
    split_ifs with hlt
    · rw [List.getElem?_range' hlt, Option.map_some, Option.map_some, ofSlots_empty]
      congr 2
      omega
    · rw [List.getElem?_eq_none (by simpa using hlt)]
      rfl

theorem Move.represents {ok : Option S → Prop}
    {p q : IOManager F C S × List (Slots F C S)} (hmove : Move ok p q)
    (h : Represents p.1 p.2) : Represents q.1 q.2 := by
  cases hmove with
  | ctl f => exact h
  | grow hsize => exact h.grow hsize
  | enter hsl hne hget hticket hok => exact h.set _ _
  | fire hsl hget hs hhow => exact h.set _ _
  | drop hsl hget => exact h.set _ _

end Represents

section Steps

variable {m m' : IOManager F C S} {slots : List (Slots F C S)} {fd : ℕ} {sl : Slots F C S}
  {event : Event} {ok : Option S → Prop}

theorem context_inv {c : FdContext F C S} (h : Represents m slots)
    (hrun : context fd m = .done c m') :
    ∃ sl, slots[fd]? = some sl ∧ c = .ofSlots fd sl ∧ m' = m := by
  cases hsl : slots[fd]? with
  | none => simp [context, h fd, hsl] at hrun
  | some sl =>
    rw [context_eq (h.get hsl), Outcome.done.injEq] at hrun
    exact ⟨sl, rfl, hrun.1.symm, hrun.2.symm⟩

theorem context_done {m' : IOManager F C S} (h : context fd m = .done c m') :
    m.fdContexts[fd]? = some c ∧ m' = m := by
  rw [context] at h
  cases hc : m.fdContexts[fd]? with
  | none => simp [hc] at h
  | some d =>
    rw [hc] at h
    cases h
    exact ⟨rfl, rfl⟩

def setInterest (m : IOManager F C S) (fd : ℕ) (v : Option Mask) : IOManager F C S :=
  { m with interest := fun i => if i = fd then v else m.interest i }

/-- A function after its `epoll_ctl`: the error exit without a trace, or the rest. -/
theorem epollCtl_bind_done {α : Type} {op : CtlOp} {mask : Mask} {b : Bool} {x r : α}
    {rest : Cmd F C S α}
    (hrun : (epollCtl op fd mask b >>= fun rt => if rt ≠ 0 then pure x else rest) m = .done r m') :
    (b = false ∧ m' = m) ∨ b = true ∧
      rest (setInterest m fd (if op = .del then none else some mask)) = .done r m' := by
  cases b with
  | false =>
    cases hrun
    exact .inl ⟨rfl, rfl⟩
  | true => exact .inr ⟨rfl, hrun⟩

/-- What the kernel holds for a descriptor with the given events. -/
def kernelMask (events : Mask) : Option Mask := if events = 0 then none else some (EPOLLET ||| events)

/-- The mask that is left when the operation is chosen by it. -/
theorem interest_left (left : Mask) :
    (if (if left ≠ 0 then CtlOp.mod else CtlOp.del) = .del then none else some (EPOLLET ||| left)) =
      kernelMask left := by
  rw [kernelMask]
  split_ifs <;> simp_all

/-- A step that has changed one descriptor, in the contexts and in the interest list. -/
structure Changes (ok : Option S → Prop) (m : IOManager F C S) (slots : List (Slots F C S))
    (fd : ℕ) (sl : Slots F C S) (m' : IOManager F C S) : Prop where
  lt : fd < m.fdContexts.length
  moves : Relation.ReflTransGen (Move ok) (m, slots) (m', slots.set fd sl)
  contexts : m'.fdContexts = m.fdContexts.set fd (.ofSlots fd sl)
  interest : m'.interest = fun i =>
    if i = fd then kernelMask (FdContext.ofSlots fd sl).events else m.interest i

/-- Moves that follow an `epoll_ctl` with the mask that they lead to. -/
theorem Changes.of_ctl {sl' : Slots F C S} {v : Option Mask} (h : Represents m slots)
    (hsl : slots[fd]? = some sl)
    (hmoves : Relation.ReflTransGen (Move ok) (setInterest m fd v, slots) (m', slots.set fd sl'))
    (hc : m'.fdContexts = m.fdContexts.set fd (.ofSlots fd sl'))
    (hi : m'.interest = (setInterest m fd v).interest)
    (hv : v = kernelMask (FdContext.ofSlots fd sl').events) : Changes ok m slots fd sl' m' :=
  ⟨(List.getElem?_eq_some_iff.mp (h.get hsl)).1, .head (.ctl _) hmoves, hc, by rw [hi, ← hv]; rfl⟩

theorem set_eq_self {α : Type} {l : List α} {i : ℕ} {a : α} (h : l[i]? = some a) : l.set i a = l := by
  obtain ⟨hlt, rfl⟩ := List.getElem?_eq_some_iff.mp h
  exact List.set_getElem_self hlt

/-- The slots that are left after the events of a mask have been triggered. -/
def Slots.after (sl : Slots F C S) (mask : Mask) (event : Event) : Slots F C S :=
  if has mask event then sl.set event none else sl

variable (ok) in
/-- A trigger together with the decrement that follows it is one move. -/
theorem triggerIf_inv {how : Removal} {mask : Mask} (hhow : how ≠ .delEvent) (h : Represents m slots)
    (hsl : slots[fd]? = some sl) (hrun : triggerIf how fd mask event m = .done () m') :
    Relation.ReflTransGen (Move ok) (m, slots) (m', slots.set fd (sl.after mask event)) ∧
      m'.fdContexts = m.fdContexts.set fd (.ofSlots fd (sl.after mask event)) ∧
      m'.interest = m.interest := by
  rw [triggerIf, Command.ite_apply] at hrun
  by_cases hhas : has mask event = true
  · rw [if_pos hhas] at hrun
    obtain ⟨_, m₁, htrigger, hdec⟩ := Command.bind_eq_done.mp hrun
    rw [triggerEvent_spec (h.get hsl)] at htrigger
    cases hget : sl.get event with
    | none => simp [hget] at htrigger
    | some w =>
      cases hs : w.scheduler with
      | none => simp [hget, hs] at htrigger
      | some s =>
        simp only [hget, hs, Outcome.done.injEq, true_and] at htrigger
        cases hdec
        rw [← htrigger, Slots.after, if_pos hhas]
        exact ⟨.single (.fire hsl hget hs hhow), rfl, rfl⟩
  · rw [if_neg hhas] at hrun
    cases hrun
    rw [Slots.after, if_neg hhas, set_eq_self hsl, set_eq_self (h.get hsl)]
    exact ⟨.refl, rfl, rfl⟩

variable (ok) in
theorem triggers_inv {how : Removal} {mask mask' : Mask} {m₁ : IOManager F C S}
    (hhow : how ≠ .delEvent) (h : Represents m slots) (hsl : slots[fd]? = some sl)
    (hread : triggerIf how fd mask .read m = .done () m₁)
    (hwrite : triggerIf how fd mask' .write m₁ = .done () m') :
    Relation.ReflTransGen (Move ok) (m, slots)
        (m', slots.set fd ((sl.after mask .read).after mask' .write)) ∧
      m'.fdContexts =
        m.fdContexts.set fd (.ofSlots fd ((sl.after mask .read).after mask' .write)) ∧
      m'.interest = m.interest := by
  have hlt := (List.getElem?_eq_some_iff.mp hsl).1
  obtain ⟨hmoves₁, hc₁, hi₁⟩ := triggerIf_inv ok hhow h hsl hread
  have h₁ : Represents m₁ (slots.set fd (sl.after mask .read)) := by
    intro i
    rw [hc₁]
    exact h.set fd _ i
  obtain ⟨hmoves₂, hc₂, hi₂⟩ := triggerIf_inv ok hhow h₁ (List.getElem?_set_self hlt) hwrite
  rw [List.set_set] at hmoves₂
  rw [hc₂, hc₁, List.set_set]
  exact ⟨hmoves₁.trans hmoves₂, rfl, hi₂.trans hi₁⟩

theorem bits_clear (r w a b : Bool) : bits r w &&& ~~~bits a b = bits (r && !a) (w && !b) := by
  cases r <;> cases w <;> cases a <;> cases b <;> decide

theorem exists_realEventsOf (events : Mask) : ∃ a b, realEventsOf events = bits a b := by
  have hr : Event.read.mask = bits true false := by decide
  have hw : Event.write.mask = bits false true := by decide
  have hn : Event.none.mask = bits false false := by decide
  have hor (a b c d : Bool) : bits a b ||| bits c d = bits (a || c) (b || d) := by
    cases a <;> cases b <;> cases c <;> cases d <;> decide
  rw [realEventsOf, hr, hw, hn, hor]
  split_ifs
  all_goals first | exact ⟨_, _, hor _ _ _ _⟩ | exact ⟨_, _, rfl⟩

theorem events_after (r w a b : Bool) {rd wr : Option (Waiter F C S)} (hr : rd.isSome = r)
    (hw : wr.isSome = w) :
    (FdContext.ofSlots fd (((⟨rd, wr⟩ : Slots F C S).after (bits a b) .read).after (bits a b) .write)).events =
      bits r w &&& ~~~bits a b := by
  rw [bits_clear, Slots.after, Slots.after, has_bits, has_bits, ← hr, ← hw]
  cases a <;> cases b <;> simp [FdContext.ofSlots, Slots.set]

theorem events_fill (hne : event ≠ .none) (w : Waiter F C S) :
    (FdContext.ofSlots fd (sl.set event (some w))).events =
      (FdContext.ofSlots fd sl).events ||| event.mask := by
  rw [← ofSlots_fill hne]
  cases event <;> rfl

theorem events_clear (hne : event ≠ .none) :
    (FdContext.ofSlots fd (sl.set event none)).events =
      (FdContext.ofSlots fd sl).events &&& ~~~event.mask := by
  rw [← ofSlots_clear hne]
  cases event <;> rfl

/-- The table as `addEvent` makes it for a descriptor. -/
def enlarged (fd : ℕ) (m : IOManager F C S) : IOManager F C S :=
  if m.fdContexts.length > fd then m else contextResize (fd * 3 / 2) m

variable (ok) in
theorem enlarged_moves (h : Represents m slots) (fd : ℕ) :
    ∃ k, Relation.ReflTransGen (Move ok) (m, slots)
        (enlarged fd m, slots ++ List.replicate k .empty) ∧
      Represents (enlarged fd m) (slots ++ List.replicate k .empty) := by
  have hlen := h.length_eq
  rw [enlarged]
  split_ifs with hsize
  · refine ⟨0, ?_⟩
    rw [List.replicate_zero, List.append_nil]
    exact ⟨.refl, h⟩
  · have hle : slots.length ≤ fd * 3 / 2 := by omega
    exact ⟨_, .single (.grow hle), h.grow hle⟩

variable (ok) in
/-- Of the calls that return, those that `epoll_ctl` fails in leave the table as it is. -/
theorem addEvent_inv {cb : Option C} {current : Option S} {fiber : F} {exec b : Bool} {r : ℤ}
    (h : Represents m slots) (hok : ok current)
    (hrun : addEvent fd event cb current fiber exec b m = .done r m') :
    ∃ k, Relation.ReflTransGen (Move ok) (m, slots)
        (enlarged fd m, slots ++ List.replicate k .empty) ∧
      Represents (enlarged fd m) (slots ++ List.replicate k .empty) ∧
      (b = false ∧ m' = enlarged fd m ∨ b = true ∧ r = 0 ∧ event ≠ .none ∧ ∃ sl n,
        (slots ++ List.replicate k .empty)[fd]? = some sl ∧
          Changes ok (enlarged fd m) (slots ++ List.replicate k .empty) fd
            (sl.set event (some ⟨current, taskOf cb fiber, n⟩)) m') := by
  obtain ⟨k, hgrow, h₁⟩ := enlarged_moves ok h fd
  refine ⟨k, hgrow, h₁, ?_⟩
  rw [addEvent, addEventVia, Command.modify_bind_apply, ← enlarged] at hrun
  obtain ⟨c, m₂, hcontext, hcheck⟩ := Command.bind_eq_done.mp hrun
  obtain ⟨sl, hsl, rfl, rfl⟩ := context_inv h₁ hcontext
  rw [Command.ite_apply, has_ofSlots] at hcheck
  cases hget : sl.get event with
  | some w =>
    rw [hget] at hcheck
    cases hcheck
  | none =>
    rw [hget, if_neg (by simp)] at hcheck
    rcases epollCtl_bind_done hcheck with hfailed | ⟨hb, hbind⟩
    · exact .inl hfailed
    · obtain ⟨hne, hexec⟩ := bindWaiter_inv hbind
      rw [bindWaiter_spec hget hne hexec, Outcome.done.injEq] at hbind
      obtain ⟨hr, rfl⟩ := hbind
      refine .inr ⟨hb, hr.symm, hne, sl, _, hsl,
        .of_ctl h₁ hsl (.single (.enter hsl hne hget rfl hok)) rfl rfl ?_⟩
      -- the operation is not a removal, and the new mask is not empty
      have hadd : (if (FdContext.ofSlots fd sl).events ≠ 0 then CtlOp.mod else .add) ≠ .del := by
        split_ifs <;> decide
      have hpos : (FdContext.ofSlots fd sl).events ||| event.mask ≠ 0 := by
        rw [FdContext.ofSlots]
        cases event with
        | none => exact absurd rfl hne
        | read => rw [bits_or_read, ne_eq, bits_eq_zero]; simp
        | write => rw [bits_or_write, ne_eq, bits_eq_zero]; simp
      rw [events_fill hne, kernelMask, if_neg hpos, if_neg hadd, BitVec.or_assoc]

/-- What the other calls and the dispatch round leave. -/
def Settled (ok : Option S → Prop) (m : IOManager F C S) (slots : List (Slots F C S)) (fd : ℕ)
    (b : Bool) (m' : IOManager F C S) : Prop :=
  m' = m ∨ b = true ∧ ∃ sl, Changes ok m slots fd sl m'

theorem delEvent_inv {b r : Bool} (h : Represents m slots)
    (hrun : delEvent fd event b m = .done r m') : Settled ok m slots fd b m' := by
  rw [delEvent, delEventVia, Command.state_bind_apply, Command.ite_apply] at hrun
  split at hrun
  · exact .inl (Outcome.done.inj hrun).2.symm
  · obtain ⟨c, m₁, hcontext, hcheck⟩ := Command.bind_eq_done.mp hrun
    obtain ⟨sl, hsl, rfl, rfl⟩ := context_inv h hcontext
    rw [Command.ite_apply, has_ofSlots] at hcheck
    cases hget : sl.get event with
    | none =>
      rw [hget] at hcheck
      exact .inl (Outcome.done.inj hcheck).2.symm
    | some w =>
      have hne : event ≠ .none := by
        rintro rfl
        cases hget
      rw [hget, if_neg (by simp)] at hcheck
      rcases epollCtl_bind_done hcheck with ⟨-, rfl⟩ | ⟨hb, hdel⟩
      · exact .inl rfl
      · rw [decPending, Command.modify_bind_apply, setContext, Command.modify_bind_apply,
          Command.bind_done (getContext_ofSlots hne _ _), noteRemoval, Command.modify_bind_apply,
          setContext, Command.modify_bind_apply, Command.pure_apply, Outcome.done.injEq, hget,
          ofSlots_clear hne, tickets_ofWaiter, List.set_set] at hdel
        rw [← hdel.2]
        refine .inr ⟨hb, sl.set event none, .of_ctl h hsl (.single (.drop hsl hget)) rfl rfl ?_⟩
        rw [events_clear hne, ← interest_left]

variable (ok) in
/-- Nobody waits after a call in which `epoll_ctl` does not fail. -/
theorem cancelEvent_inv {b r : Bool} (h : Represents m slots)
    (hrun : cancelEvent fd event b m = .done r m') :
    m' = m ∧ (b = true → ∀ sl, slots[fd]? = some sl → sl.get event = none) ∨
      b = true ∧ event ≠ .none ∧ ∃ sl, slots[fd]? = some sl ∧
        Changes ok m slots fd (sl.set event none) m' := by
  rw [cancelEvent, cancelEventVia, Command.state_bind_apply, Command.ite_apply] at hrun
  by_cases hlen : m.fdContexts.length ≤ fd
  · rw [if_pos hlen] at hrun
    refine .inl ⟨(Outcome.done.inj hrun).2.symm, fun _ sl hsl => ?_⟩
    rw [h.length_eq] at hlen
    rw [List.getElem?_eq_none hlen] at hsl
    cases hsl
  · rw [if_neg hlen] at hrun
    obtain ⟨c, m₁, hcontext, hcheck⟩ := Command.bind_eq_done.mp hrun
    obtain ⟨sl, hsl, rfl, rfl⟩ := context_inv h hcontext
    rw [Command.ite_apply, has_ofSlots] at hcheck
    cases hget : sl.get event with
    | none =>
      rw [hget] at hcheck
      refine .inl ⟨(Outcome.done.inj hcheck).2.symm, fun _ sl' hsl' => ?_⟩
      cases hsl.symm.trans hsl'
      exact hget
    | some w =>
      have hne : event ≠ .none := by
        rintro rfl
        cases hget
      rw [hget, if_neg (by simp)] at hcheck
      rcases epollCtl_bind_done hcheck with ⟨rfl, rfl⟩ | ⟨hb, hcancel⟩
      · exact .inl ⟨rfl, nofun⟩
      · obtain ⟨_, m₂, htrigger, hrest⟩ := Command.bind_eq_done.mp hcancel
        obtain ⟨_, m₃, hdec, hret⟩ := Command.bind_eq_done.mp hrest
        cases hret
        -- a trigger guarded by the events themselves
        have hhas : has (FdContext.ofSlots fd sl).events event = true := by rw [has_ofSlots, hget]; rfl
        have hif {m : IOManager F C S}
            (htrigger : FdContext.triggerEvent .cancelEvent fd event m = .done () m₂) :
            triggerIf .cancelEvent fd (FdContext.ofSlots fd sl).events event m = .done () m' := by
          rw [triggerIf, if_pos hhas]
          exact Command.bind_eq_done.mpr ⟨_, m₂, htrigger, hdec⟩
        obtain ⟨hmoves, hc, hi⟩ := triggerIf_inv ok (by decide) (by exact h) hsl (hif htrigger)
        rw [Slots.after, if_pos hhas] at hmoves hc
        refine .inr ⟨hb, hne, sl, hsl, .of_ctl h hsl hmoves hc hi ?_⟩
        rw [events_clear hne, ← interest_left]

theorem cancelAll_inv {b r : Bool} (h : Represents m slots)
    (hrun : cancelAll fd b m = .done r m') : Settled ok m slots fd b m' := by
  rw [cancelAll, cancelAllVia, Command.state_bind_apply, Command.ite_apply] at hrun
  split at hrun
  · exact .inl (Outcome.done.inj hrun).2.symm
  · obtain ⟨c, m₁, hcontext, hcheck⟩ := Command.bind_eq_done.mp hrun
    obtain ⟨sl, hsl, rfl, rfl⟩ := context_inv h hcontext
    rw [Command.ite_apply] at hcheck
    split at hcheck
    · exact .inl (Outcome.done.inj hcheck).2.symm
    · rcases epollCtl_bind_done hcheck with ⟨-, rfl⟩ | ⟨hb, hcancel⟩
      · exact .inl rfl
      · obtain ⟨_, m₂, hread, hrest⟩ := Command.bind_eq_done.mp hcancel
        obtain ⟨c₂, m₃, hcontext₂, hrest₂⟩ := Command.bind_eq_done.mp hrest
        obtain ⟨_, m₄, hwrite, hrest₃⟩ := Command.bind_eq_done.mp hrest₂
        obtain ⟨c₄, m₅, hcontext₄, hassert⟩ := Command.bind_eq_done.mp hrest₃
        obtain ⟨-, rfl⟩ := context_done hcontext₂
        obtain ⟨hget₄, rfl⟩ := context_done hcontext₄
        obtain ⟨hmoves, hc, hi⟩ := triggers_inv ok (by decide) (by exact h) hsl hread hwrite
        rw [Command.ite_apply] at hassert
        split at hassert
        · next hempty =>
          cases hassert
          refine .inr ⟨hb, _, .of_ctl h hsl hmoves hc hi ?_⟩
          rw [hc, List.getElem?_set_self (by exact (List.getElem?_eq_some_iff.mp (h.get hsl)).1),
            Option.some.injEq] at hget₄
          rw [hget₄, hempty]
          rfl
        · cases hassert

theorem dispatch_inv {mask : Mask} {b : Bool} (h : Represents m slots)
    (hrun : dispatch fd mask b m = .done () m') : Settled ok m slots fd b m' := by
  rw [dispatch, dispatchVia] at hrun
  obtain ⟨c, m₁, hcontext, hcheck⟩ := Command.bind_eq_done.mp hrun
  obtain ⟨sl, hsl, rfl, rfl⟩ := context_inv h hcontext
  dsimp only at hcheck
  rw [Command.ite_apply] at hcheck
  split at hcheck
  · exact .inl (Outcome.done.inj hcheck).2.symm
  · rcases epollCtl_bind_done hcheck with ⟨-, rfl⟩ | ⟨hb, hfire⟩
    · exact .inl rfl
    · obtain ⟨_, m₂, hread, hwrite⟩ := Command.bind_eq_done.mp hfire
      obtain ⟨hmoves, hc, hi⟩ := triggers_inv ok (by decide) (by exact h) hsl hread hwrite
      refine .inr ⟨hb, _, .of_ctl h hsl hmoves hc hi ?_⟩
      obtain ⟨a, b, hreal⟩ := exists_realEventsOf mask
      rw [hreal, events_after _ _ a b rfl rfl, ← interest_left]
      rfl

end Steps

end Sylar.IOManager
