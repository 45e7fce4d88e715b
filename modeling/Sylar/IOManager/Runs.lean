import Sylar.IOManager.Invariant

/-! # Runs of the manager

A run is any sequence of calls and dispatch rounds; it ends where an assertion
fails or a null scheduler is used.
-/
namespace Sylar.IOManager
open Memory
open Scheduler (Task)

variable {F C S : Type}

inductive Op (F C S : Type) where
  | addEvent (fd : ℕ) (event : Event) (cb : Option C) (current : Option S) (fiber : F)
      (exec ok : Bool)
  | delEvent (fd : ℕ) (event : Event) (ok : Bool)
  | cancelEvent (fd : ℕ) (event : Event) (ok : Bool)
  | cancelAll (fd : ℕ) (ok : Bool)
  | dispatch (fd : ℕ) (events : Mask) (ok : Bool)

def Op.runVia (ctl : CtlOp → ℕ → Mask → Bool → Cmd F C S ℤ) : Op F C S → Cmd F C S Unit
  | .addEvent fd event cb current fiber exec ok => do
    let _ ← addEventVia ctl fd event cb current fiber exec ok
    pure ()
  | .delEvent fd event ok => do
    let _ ← delEventVia ctl fd event ok
    pure ()
  | .cancelEvent fd event ok => do
    let _ ← cancelEventVia ctl fd event ok
    pure ()
  | .cancelAll fd ok => do
    let _ ← cancelAllVia ctl fd ok
    pure ()
  | .dispatch fd events ok => dispatchVia ctl fd events ok

def Op.run (o : Op F C S) : Cmd F C S Unit := o.runVia epollCtl

/-- `addEvent` runs on a thread whose current scheduler satisfies `ok`. -/
def Op.Allowed (ok : Option S → Prop) : Op F C S → Prop
  | .addEvent _ _ _ current _ _ _ => ok current
  | _ => True

/-- The states of the runs whose steps are all allowed. -/
abbrev Reachable (ok : Option S → Prop) : IOManager F C S → Prop :=
  Memory.Reachable init Op.run fun _ o => o.Allowed ok

variable {ok : Option S → Prop} {m m' : IOManager F C S} {slots : List (Slots F C S)}

def Op.answer : Op F C S → Bool
  | .addEvent _ _ _ _ _ _ ok => ok
  | .delEvent _ _ ok => ok
  | .cancelEvent _ _ ok => ok
  | .cancelAll _ ok => ok
  | .dispatch _ _ ok => ok

/-- Apart from a table that may have grown, a step changes one descriptor or nothing. -/
theorem Op.inv {o : Op F C S} (h : Represents m slots) (ha : o.Allowed ok)
    (hrun : o.run m = .done () m') :
    ∃ m₁ slots₁, (m₁ = m ∨ ∃ fd, m₁ = enlarged fd m) ∧
      Relation.ReflTransGen (Move ok) (m, slots) (m₁, slots₁) ∧
      (m' = m₁ ∨ o.answer = true ∧ ∃ fd sl, Changes ok m₁ slots₁ fd sl m') := by
  have hsettled {fd : ℕ} (hs : Settled ok m slots fd o.answer m') :
      ∃ m₁ slots₁, (m₁ = m ∨ ∃ fd, m₁ = enlarged fd m) ∧
        Relation.ReflTransGen (Move ok) (m, slots) (m₁, slots₁) ∧
        (m' = m₁ ∨ o.answer = true ∧ ∃ fd sl, Changes ok m₁ slots₁ fd sl m') :=
    ⟨m, slots, .inl rfl, .refl, hs.imp id fun ⟨hb, hc⟩ => ⟨hb, fd, hc⟩⟩
  cases o with
  | addEvent fd event cb current fiber exec b =>
    rcases Command.bind_eq_done.mp hrun with ⟨r, m₁, hadd, hret⟩
    cases hret
    rcases addEvent_inv ok h ha hadd with ⟨k, hmoves, -, hstep⟩
    refine ⟨_, _, .inr ⟨fd, rfl⟩, hmoves, hstep.imp And.right ?_⟩
    rintro ⟨hb, -, -, sl, n, -, hc⟩
    exact ⟨hb, fd, _, hc⟩
  | delEvent fd event b =>
    rcases Command.bind_eq_done.mp hrun with ⟨r, m₁, hdel, hret⟩
    cases hret
    exact hsettled (delEvent_inv h hdel)
  | cancelEvent fd event b =>
    rcases Command.bind_eq_done.mp hrun with ⟨r, m₁, hcancel, hret⟩
    cases hret
    rcases cancelEvent_inv ok h hcancel with ⟨hm, -⟩ | ⟨hb, -, sl, -, hc⟩
    · exact hsettled (Or.inl hm : Settled ok m slots fd b m')
    · exact hsettled (.inr ⟨hb, _, hc⟩)
  | cancelAll fd b =>
    rcases Command.bind_eq_done.mp hrun with ⟨r, m₁, hcancel, hret⟩
    cases hret
    exact hsettled (cancelAll_inv h hcancel)
  | dispatch fd mask b => exact hsettled (dispatch_inv h hrun)

theorem Op.moves {o : Op F C S} (h : Represents m slots) (ha : o.Allowed ok)
    (hrun : o.run m = .done () m') : Moves ok m slots m' := by
  rcases Op.inv h ha hrun with ⟨m₁, slots₁, -, hmoves, rfl | ⟨-, fd, sl, hc⟩⟩
  · exact ⟨slots₁, hmoves⟩
  · exact ⟨_, hmoves.trans hc.moves⟩

theorem Reachable.inv (h : Reachable ok m) : ∃ slots, Inv ok m slots := by
  apply h.invariant ⟨_, init_inv ok⟩
  rintro m o m' ⟨slots, hinv⟩ hallowed hrun
  exact hinv.moves (Op.moves hinv.represents hallowed hrun)

/-- The context of a registered event: a scheduler and one of fiber and callback. -/
def EventContext.Armed (e : EventContext F C S) : Prop :=
  e.scheduler.isSome ∧ Xor (e.fiber.isSome = true) (e.cb.isSome = true)

def FdContext.bitCount (c : FdContext F C S) : ℕ :=
  (if has c.events .read then 1 else 0) + if has c.events .write then 1 else 0

/-- How often the waiter with the given registration was handed to a scheduler. -/
def handedOver (m : IOManager F C S) (t : ℕ) : ℕ := (m.scheduled.map fun x => x.2.2).count t

theorem armed_ofWaiter_iff {w : Option (Waiter F C S)}
    (hw : ∀ v, w = some v → v.scheduler.isSome) :
    (EventContext.ofWaiter w).Armed ↔ w.isSome = true := by
  rcases w with _ | ⟨s, f | c, t⟩
  · simp [EventContext.Armed, EventContext.ofWaiter, EventContext.empty]
  · have hs := hw _ rfl
    simpa [EventContext.Armed, EventContext.ofWaiter, Xor] using hs
  · have hs := hw _ rfl
    simpa [EventContext.Armed, EventContext.ofWaiter, Xor] using hs

theorem bitCount_ofSlots (fd : ℕ) (sl : Slots F C S) :
    (FdContext.ofSlots fd sl).bitCount = sl.waiters.length := by
  rw [FdContext.bitCount, has_ofSlots, has_ofSlots, Slots.waiters, List.length_append]
  rcases sl with ⟨_ | r, _ | w⟩ <;> rfl

theorem Represents.sum_bitCount (h : Represents m slots) :
    (m.fdContexts.map FdContext.bitCount).sum = (waiting slots).length := by
  have hmap : m.fdContexts.map FdContext.bitCount = slots.map fun sl => sl.waiters.length := by
    apply List.ext_getElem?
    intro i
    rw [List.getElem?_map, List.getElem?_map, h i]
    cases slots[i]? with
    | none => rfl
    | some sl => simp [bitCount_ofSlots]
  rw [hmap, waiting, List.length_flatMap]

theorem mem_waiting_of_get {fd : ℕ} {sl : Slots F C S} {event : Event} {w : Waiter F C S}
    (hsl : slots[fd]? = some sl) (hget : sl.get event = some w) : w ∈ waiting slots :=
  (waiting_leave hsl hget).symm.subset List.mem_cons_self

namespace Inv

variable {t : ℕ}

/-- A registration is in the table or among the removed ones, once. -/
theorem count_tickets (h : Inv ok m slots) (ht : t < m.registered.length) :
    ((waiting slots).map Waiter.ticket).count t + (m.removed.map Prod.snd).count t = 1 := by
  rw [← List.count_append, h.tickets.count_eq, List.count_eq_one_of_mem List.nodup_range]
  exact List.mem_range.mpr ht

/-- Whatever is removed once cannot be removed in two ways. -/
theorem removed_unique (h : Inv ok m slots) {how how' : Removal} (h₁ : (how, t) ∈ m.removed)
    (h₂ : (how', t) ∈ m.removed) : how = how' := by
  have hnodup : (m.removed.map Prod.snd).Nodup :=
    (List.nodup_append.mp (h.tickets.nodup_iff.mpr List.nodup_range)).2.1
  exact congrArg Prod.fst (List.inj_on_of_nodup_map hnodup h₁ h₂ rfl)

theorem removed_lt (h : Inv ok m slots) {how : Removal} (h₁ : (how, t) ∈ m.removed) :
    t < m.registered.length := by
  have hmem : t ∈ (waiting slots).map Waiter.ticket ++ m.removed.map Prod.snd :=
    List.mem_append_right _ (List.mem_map.mpr ⟨_, h₁, rfl⟩)
  exact List.mem_range.mp (h.tickets.subset hmem)

theorem handedOver_eq (h : Inv ok m slots) :
    handedOver m t = ((m.removed.filter fun x => x.1 ≠ .delEvent).map Prod.snd).count t := by
  rw [handedOver, h.scheduled]

/-- Removed other than by `delEvent`: handed over once. -/
theorem handedOver_one (h : Inv ok m slots) {how : Removal} (hmem : (how, t) ∈ m.removed)
    (hhow : how ≠ .delEvent) : handedOver m t = 1 := by
  rw [h.handedOver_eq]
  apply le_antisymm
  · have hsub : ((m.removed.filter fun x => x.1 ≠ .delEvent).map Prod.snd).count t ≤
        (m.removed.map Prod.snd).count t :=
      (List.filter_sublist.map Prod.snd).count_le t
    have := h.count_tickets (h.removed_lt hmem)
    omega
  · rw [Nat.succ_le_iff, List.count_pos_iff, List.mem_map]
    exact ⟨(how, t), List.mem_filter.mpr ⟨hmem, by simpa using hhow⟩, rfl⟩

/-- Not removed, or removed by `delEvent`: never handed over. -/
theorem handedOver_zero (h : Inv ok m slots)
    (hnone : ∀ how, (how, t) ∈ m.removed → how = .delEvent) : handedOver m t = 0 := by
  rw [h.handedOver_eq, List.count_eq_zero, List.mem_map]
  rintro ⟨⟨how, t'⟩, hmem, rfl⟩
  obtain ⟨hin, hne⟩ := List.mem_filter.mp hmem
  exact absurd (hnone how hin) (by simpa using hne)

/-- With a scheduler at every registration the bits are those of the armed contexts. -/
theorem has_iff_armed (h : Inv (fun s => s.isSome = true) m slots) {fd : ℕ}
    {c : FdContext F C S} (hc : m.fdContexts[fd]? = some c) :
    (has c.events .read = true ↔ c.read.Armed) ∧ (has c.events .write = true ↔ c.write.Armed) := by
  rw [h.represents fd, Option.map_eq_some_iff] at hc
  rcases hc with ⟨sl, hsl, rfl⟩
  have harmed : ∀ event v, sl.get event = some v → v.scheduler.isSome = true := by
    intro event v hv
    exact h.schedulers v (mem_waiting_of_get hsl hv)
  rw [has_ofSlots, has_ofSlots]
  constructor
  · exact (armed_ofWaiter_iff (harmed .read)).symm
  · exact (armed_ofWaiter_iff (harmed .write)).symm

end Inv

theorem waiters_handed_over_once (h : Reachable (fun s => s.isSome = true) m) :
    (∀ (fd : ℕ) (c : FdContext F C S), m.fdContexts[fd]? = some c →
      (has c.events .read = true ↔ c.read.Armed) ∧
        (has c.events .write = true ↔ c.write.Armed)) ∧
    m.pendingEventCount = (m.fdContexts.map FdContext.bitCount).sum ∧
    ∀ t < m.registered.length,
      (∀ how, (how, t) ∈ m.removed → how ≠ .delEvent → handedOver m t = 1) ∧
      ((.delEvent, t) ∈ m.removed → handedOver m t = 0) ∧
      ((∀ how, (how, t) ∉ m.removed) → handedOver m t = 0) ∧
      ∀ x ∈ m.scheduled, x.2.2 = t → m.registered[t]? = some (some x.1, x.2.1) := by
  rcases h.inv with ⟨slots, hinv⟩
  constructor
  · intro fd c hc
    exact hinv.has_iff_armed hc
  constructor
  · rw [hinv.represents.sum_bitCount, hinv.pending]
  · intro t _
    constructor
    · intro how hmem hhow
      exact hinv.handedOver_one hmem hhow
    constructor
    · intro hdel
      apply hinv.handedOver_zero
      intro how hmem
      exact hinv.removed_unique hmem hdel
    constructor
    · intro hnone
      apply hinv.handedOver_zero
      intro how hmem
      exact absurd hmem (hnone how)
    · rintro x hx rfl
      exact hinv.handed x hx

theorem waiters_handed_over_once_cancel :
    ∃ m : IOManager Unit Unit Unit, Reachable (fun s => s.isSome = true) m ∧
      m.registered.length = 1 ∧ (Removal.cancelEvent, 0) ∈ m.removed ∧ handedOver m 0 = 1 := by
  have hinit : Reachable (fun s => s.isSome = true) (init : IOManager Unit Unit Unit) := .init
  have hadd := hinit.step (a := .addEvent 0 .read (some ()) (some ()) () true true)
    (by exact rfl) rfl
  have hcancel := hadd.step (a := .cancelEvent 0 .read true)
    (by exact trivial) rfl
  refine ⟨_, hcancel, rfl, by decide, ?_⟩
  exact ((waiters_handed_over_once hcancel).2.2 0 (by decide)).1 .cancelEvent (by decide) (by decide)

/-- On a thread without a scheduler the bit is set and nothing can be handed over. -/
theorem foreign_thread_not_armed :
    ∃ (m : IOManager Unit Unit Unit) (c : FdContext Unit Unit Unit),
      Reachable (fun _ => True) m ∧ m.fdContexts[0]? = some c ∧
        has c.events .read = true ∧ ¬c.read.Armed := by
  have hinit : Reachable (fun _ => True) (init : IOManager Unit Unit Unit) := .init
  have hadd := hinit.step (a := .addEvent 0 .read (some ()) none () true true)
    (by exact trivial) rfl
  refine ⟨_, _, hadd, rfl, by decide, ?_⟩
  intro harmed
  cases harmed.1

end Sylar.IOManager
