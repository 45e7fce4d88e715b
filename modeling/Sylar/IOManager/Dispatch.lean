import Sylar.IOManager.Runs

/-! # The dispatch round

The round triggers what is ready, not what is ready and registered: the
registered events only decide whether anything is triggered at all.
-/
namespace Sylar.IOManager
open Memory
open Scheduler (Task)

variable {F C S : Type}

/-- The event is reported, or an error or hangup is, which counts as both. -/
def ready (mask : Mask) (event : Event) : Bool :=
  has mask event || decide (mask &&& (EPOLLERR ||| EPOLLHUP) ≠ 0)

/-- What triggering a context hands to its scheduler. -/
def EventContext.entry (e : EventContext F C S) : List (S × Task F C × ℕ) :=
  match e.scheduler, e.cb, e.fiber with
  | some s, some c, _ => [(s, .cb c.val, c.ticket)]
  | some s, none, some f => [(s, .fiber f.val, f.ticket)]
  | _, _, _ => []

/-- The round returns, exactly the registered events among the ready ones have been triggered,
in the order read, write, and the counter has dropped by their number. -/
def DispatchExact (m : IOManager F C S) (fd : ℕ) (c : FdContext F C S) (mask : Mask) (ok : Bool) :
    Prop :=
  ∃ m' c', dispatch fd mask ok m = .done () m' ∧ m'.fdContexts[fd]? = some c' ∧
    (∀ event, has c'.events event = (has c.events event && !ready mask event)) ∧
    m'.scheduled = m.scheduled ++
      (if has c.events .read && ready mask .read then c.read.entry else []) ++
      (if has c.events .write && ready mask .write then c.write.entry else []) ∧
    m'.pendingEventCount = m.pendingEventCount -
      ((if has c.events .read && ready mask .read then 1 else 0) +
        if has c.events .write && ready mask .write then 1 else 0)

/-- No registered event is ready. -/
def Idle (c : FdContext F C S) (mask : Mask) : Prop :=
  ∀ event, event ≠ .none → ¬(has c.events event = true ∧ ready mask event = true)

/-- Every ready event is registered, by a thread that had a scheduler. -/
def Covered (c : FdContext F C S) (mask : Mask) : Prop :=
  (ready mask .read = true → has c.events .read = true ∧ c.read.scheduler.isSome) ∧
    (ready mask .write = true → has c.events .write = true ∧ c.write.scheduler.isSome)

theorem or_and_absorb (x y z : Mask) (h : y &&& z = z) : (x ||| y) &&& z = z := by
  rw [BitVec.and_or_distrib_right, h]
  apply BitVec.eq_of_getLsbD_eq
  intro i _
  rw [BitVec.getLsbD_or, BitVec.getLsbD_and]
  cases x.getLsbD i <;> cases z.getLsbD i <;> rfl

theorem mask_of_tests (p q : Prop) [Decidable p] [Decidable q] :
    (if q then (if p then Event.none.mask ||| Event.read.mask else Event.none.mask) |||
        Event.write.mask
      else if p then Event.none.mask ||| Event.read.mask else Event.none.mask) =
      bits (decide p) (decide q) := by
  by_cases hp : p <;> by_cases hq : q <;> simp only [hp, hq, if_true, if_false] <;> decide

theorem realEventsOf_eq (mask : Mask) :
    realEventsOf mask = bits (ready mask .read) (ready mask .write) := by
  rw [realEventsOf, ready, ready]
  by_cases herr : mask &&& (EPOLLERR ||| EPOLLHUP) ≠ 0
  · have hread : (mask ||| (EPOLLIN ||| EPOLLOUT)) &&& EPOLLIN = EPOLLIN :=
      or_and_absorb _ _ _ (by decide)
    have hwrite : (mask ||| (EPOLLIN ||| EPOLLOUT)) &&& EPOLLOUT = EPOLLOUT :=
      or_and_absorb _ _ _ (by decide)
    rw [if_pos herr, decide_eq_true herr, Bool.or_true, Bool.or_true]
    simp only [hread, hwrite]
    decide
  · rw [if_neg herr, decide_eq_false herr, Bool.or_false, Bool.or_false]
    exact mask_of_tests _ _

/-- The scheduler of a triggered context is used whether or not there is one. -/
theorem scheduler_ofWaiter (w : Option (Waiter F C S)) :
    (EventContext.ofWaiter w).scheduler = w.bind Waiter.scheduler := by
  rcases w with _ | ⟨s, _ | _, t⟩ <;> rfl

theorem entry_ofWaiter {w : Waiter F C S} {s : S} (hs : w.scheduler = some s) :
    (EventContext.ofWaiter (some w)).entry = [(s, w.task, w.ticket)] := by
  rcases w with ⟨_, _ | _, t⟩ <;> cases hs <;> rfl

section Trigger

variable {m m' : IOManager F C S} {fd : ℕ} {sl : Slots F C S} {how : Removal} {event : Event}
  {mask : Mask}

theorem triggerIf_spec (how : Removal) (mask : Mask) (event : Event)
    (hc : m.fdContexts[fd]? = some (.ofSlots fd sl))
    (hs : has mask event = true → (EventContext.ofWaiter (sl.get event)).scheduler.isSome) :
    ∃ m', triggerIf how fd mask event m = .done () m' ∧
      m'.fdContexts[fd]? =
        some (.ofSlots fd (if has mask event then sl.set event none else sl)) ∧
      m'.scheduled = m.scheduled ++
        (if has mask event then (EventContext.ofWaiter (sl.get event)).entry else []) ∧
      m'.pendingEventCount = m.pendingEventCount - (if has mask event then 1 else 0) := by
  rw [triggerIf, Command.ite_apply]
  by_cases hhas : has mask event = true
  · have hsome := hs hhas
    rw [scheduler_ofWaiter] at hsome
    simp only [if_pos hhas]
    rcases Option.isSome_iff_exists.mp hsome with ⟨s, hbind⟩
    rcases Option.bind_eq_some_iff.mp hbind with ⟨w, hget, hw⟩
    have htrigger : FdContext.triggerEvent how fd event m =
        .done () (trigger m how fd sl event w s) := by
      rw [triggerEvent_spec hc, hget]
      simp only [hw]
    have hlt : fd < m.fdContexts.length := (List.getElem?_eq_some_iff.mp hc).1
    rw [Command.bind_done htrigger, decPending, Command.modify_apply]
    refine ⟨_, rfl, ?_, ?_, rfl⟩
    · exact List.getElem?_set_self hlt
    · rw [hget, entry_ofWaiter hw]
      rfl
  · simp only [if_neg hhas]
    exact ⟨m, rfl, hc, (List.append_nil _).symm, (sub_zero _).symm⟩

/-- A trigger that returns has found its waiter and a scheduler. -/
theorem triggerIf_done (hc : m.fdContexts[fd]? = some (.ofSlots fd sl))
    (hrun : triggerIf how fd mask event m = .done () m') (hhas : has mask event = true) :
    (EventContext.ofWaiter (sl.get event)).scheduler.isSome := by
  rw [triggerIf, Command.ite_apply, if_pos hhas] at hrun
  rcases Command.bind_eq_done.mp hrun with ⟨_, m₁, htrigger, -⟩
  rw [triggerEvent_spec hc] at htrigger
  rw [scheduler_ofWaiter]
  cases hget : sl.get event with
  | none => simp [hget] at htrigger
  | some w =>
    cases hs : w.scheduler with
    | none => simp [hget, hs] at htrigger
    | some s => simp [hs]

end Trigger

theorem bits_and (r w r' w' : Bool) : bits r w &&& bits r' w' = bits (r && r') (w && w') := by
  cases r <;> cases w <;> cases r' <;> cases w' <;> decide

section Round

variable {m m' : IOManager F C S} {fd : ℕ} {sl : Slots F C S} {mask : Mask} {ok : Bool}

theorem idle_iff :
    Idle (FdContext.ofSlots fd sl) mask ↔
      (FdContext.ofSlots fd sl).events &&& realEventsOf mask = Event.none.mask := by
  have hnone : Event.none.mask = 0 := rfl
  rw [realEventsOf_eq, FdContext.ofSlots, bits_and, hnone, bits_eq_zero, Idle]
  constructor
  · intro hidle
    have hread := hidle .read (by decide)
    have hwrite := hidle .write (by decide)
    rw [has_bits] at hread hwrite
    exact ⟨by simpa using hread, by simpa using hwrite⟩
  · rintro ⟨hread, hwrite⟩ event hne ⟨hhas, hready⟩
    rw [has_bits] at hhas
    cases event with
    | none => exact hne rfl
    | read => simp_all
    | write => simp_all

theorem dispatch_idle (hc : m.fdContexts[fd]? = some (.ofSlots fd sl))
    (hidle : Idle (FdContext.ofSlots fd sl) mask) : dispatch fd mask ok m = .done () m := by
  rw [dispatch, dispatchVia, Command.bind_done (context_eq hc)]
  exact if_pos (idle_iff.mp hidle) ▸ rfl

/-- A round with something to trigger: `epoll_ctl`, then one trigger for each ready event. -/
theorem dispatch_busy (ok : Bool) (hc : m.fdContexts[fd]? = some (.ofSlots fd sl))
    (hbusy : ¬Idle (FdContext.ofSlots fd sl) mask) :
    ∃ f, dispatch fd mask ok m = if ok then (triggerIf .dispatch fd (realEventsOf mask) .read >>=
      fun _ => triggerIf .dispatch fd (realEventsOf mask) .write) { m with interest := f }
      else .done () m := by
  rw [idle_iff] at hbusy
  rw [dispatch, dispatchVia, Command.bind_done (context_eq hc)]
  dsimp only
  rw [Command.ite_apply, if_neg hbusy]
  cases ok with
  | false => exact ⟨m.interest, rfl⟩
  | true => exact ⟨_, rfl⟩

theorem has_realEventsOf_read (mask : Mask) :
    has (realEventsOf mask) .read = ready mask .read := by
  rw [realEventsOf_eq, has_bits]

theorem has_realEventsOf_write (mask : Mask) :
    has (realEventsOf mask) .write = ready mask .write := by
  rw [realEventsOf_eq, has_bits]

/-- The slots after the events of `realEvents` have been triggered. -/
def Slots.triggered (sl : Slots F C S) (mask : Mask) (event : Event) : Slots F C S :=
  if has (realEventsOf mask) event then sl.set event none else sl

theorem get_write_triggered_read (sl : Slots F C S) (mask : Mask) :
    (sl.triggered mask .read).get .write = sl.get .write := by
  rw [Slots.triggered]
  split <;> rfl

theorem has_triggered (event : Event) :
    has (FdContext.ofSlots fd ((sl.triggered mask .read).triggered mask .write)).events event =
      (has (FdContext.ofSlots fd sl).events event && !ready mask event) := by
  rw [has_ofSlots, has_ofSlots, Slots.triggered, Slots.triggered, has_realEventsOf_read,
    has_realEventsOf_write]
  cases event with
  | none => cases ready mask .read <;> cases ready mask .write <;> rfl
  | read => cases ready mask .read <;> cases ready mask .write <;> simp [Slots.get, Slots.set]
  | write => cases ready mask .read <;> cases ready mask .write <;> simp [Slots.get, Slots.set]

theorem dispatchExact_of_idle (hc : m.fdContexts[fd]? = some (.ofSlots fd sl))
    (hidle : Idle (FdContext.ofSlots fd sl) mask) :
    DispatchExact m fd (.ofSlots fd sl) mask ok := by
  have hkeep : ∀ event, event ≠ .none →
      (has (FdContext.ofSlots fd sl).events event && ready mask event) = false := by
    intro event hne
    simpa using hidle event hne
  refine ⟨m, _, dispatch_idle hc hidle, hc, ?_, ?_, ?_⟩
  · intro event
    cases event with
    | none => rw [has_ofSlots]; rfl
    | read => have := hkeep .read (by decide); grind
    | write => have := hkeep .write (by decide); grind
  · simp [hkeep .read (by decide), hkeep .write (by decide)]
  · simp [hkeep .read (by decide), hkeep .write (by decide)]

theorem dispatchExact_of_covered (hc : m.fdContexts[fd]? = some (.ofSlots fd sl))
    (hbusy : ¬Idle (FdContext.ofSlots fd sl) mask)
    (hcov : Covered (FdContext.ofSlots fd sl) mask) :
    DispatchExact m fd (.ofSlots fd sl) mask true := by
  rcases dispatch_busy true hc hbusy with ⟨f, hrun⟩
  have hc₀ : ({ m with interest := f } : IOManager F C S).fdContexts[fd]? =
      some (.ofSlots fd sl) := hc
  have hsread : has (realEventsOf mask) .read = true →
      (EventContext.ofWaiter (sl.get .read)).scheduler.isSome := by
    intro hhas
    exact (hcov.1 (has_realEventsOf_read mask ▸ hhas)).2
  have hswrite : has (realEventsOf mask) .write = true →
      (EventContext.ofWaiter ((sl.triggered mask .read).get .write)).scheduler.isSome := by
    intro hhas
    rw [get_write_triggered_read]
    exact (hcov.2 (has_realEventsOf_write mask ▸ hhas)).2
  rcases triggerIf_spec .dispatch _ .read hc₀ hsread with ⟨m₁, hread, hc₁, hsched₁, hpend₁⟩
  rcases triggerIf_spec .dispatch _ .write hc₁ hswrite with ⟨m₂, hwrite, hc₂, hsched₂, hpend₂⟩
  rw [if_pos rfl, Command.bind_done hread, hwrite] at hrun
  have hregread : (has (FdContext.ofSlots fd sl).events .read && ready mask .read) =
      has (realEventsOf mask) .read := by
    rw [has_realEventsOf_read]
    cases hready : ready mask .read with
    | false => exact Bool.and_false _
    | true => rw [(hcov.1 hready).1, Bool.and_true]
  have hregwrite : (has (FdContext.ofSlots fd sl).events .write && ready mask .write) =
      has (realEventsOf mask) .write := by
    rw [has_realEventsOf_write]
    cases hready : ready mask .write with
    | false => exact Bool.and_false _
    | true => rw [(hcov.2 hready).1, Bool.and_true]
  refine ⟨m₂, _, hrun, hc₂, has_triggered, ?_, ?_⟩
  · rw [hsched₂, hsched₁, ← Slots.triggered, get_write_triggered_read, hregread, hregwrite]
    rfl
  · rw [hpend₂, hpend₁, hregread, hregwrite, sub_sub]

/-- A round that triggered what it should have was allowed to change the interest list. -/
theorem ok_of_dispatchExact (hc : m.fdContexts[fd]? = some (.ofSlots fd sl))
    (hbusy : ¬Idle (FdContext.ofSlots fd sl) mask)
    (hexact : DispatchExact m fd (.ofSlots fd sl) mask ok) : ok = true := by
  cases ok with
  | true => rfl
  | false =>
    rcases dispatch_busy false hc hbusy with ⟨f, hrun⟩
    rcases hexact with ⟨m', c', hdone, hc', hbits, -, -⟩
    rw [hrun, if_neg (by decide), Outcome.done.injEq] at hdone
    rw [← hdone.2, hc, Option.some_inj] at hc'
    exfalso
    apply hbusy
    rintro event - ⟨hhas, hready⟩
    have := hbits event
    rw [← hc', hhas, hready] at this
    cases this

theorem covered_of_done (hc : m.fdContexts[fd]? = some (.ofSlots fd sl))
    (hbusy : ¬Idle (FdContext.ofSlots fd sl) mask)
    (hdone : dispatch fd mask true m = .done () m') :
    Covered (FdContext.ofSlots fd sl) mask := by
  rcases dispatch_busy true hc hbusy with ⟨f, hrun⟩
  rw [hrun, if_pos rfl] at hdone
  rcases Command.bind_eq_done.mp hdone with ⟨_, m₁, hread, hwrite⟩
  have hc₀ : ({ m with interest := f } : IOManager F C S).fdContexts[fd]? =
      some (.ofSlots fd sl) := hc
  have hsread := triggerIf_done hc₀ hread
  rcases triggerIf_spec .dispatch _ .read hc₀ hsread with ⟨m₁', hread', hc₁, -, -⟩
  rw [hread, Outcome.done.injEq] at hread'
  rw [← hread'.2, ← Slots.triggered] at hc₁
  have hswrite := triggerIf_done hc₁ hwrite
  rw [has_realEventsOf_read] at hsread
  rw [has_realEventsOf_write, get_write_triggered_read] at hswrite
  have hget : ∀ event, (EventContext.ofWaiter (sl.get event)).scheduler.isSome = true →
      has (FdContext.ofSlots fd sl).events event = true := by
    intro event hs
    rw [has_ofSlots]
    rw [scheduler_ofWaiter] at hs
    exact Option.isSome_of_isSome_bind hs
  constructor
  · intro hready
    exact ⟨hget .read (hsread hready), hsread hready⟩
  · intro hready
    exact ⟨hget .write (hswrite hready), hswrite hready⟩

end Round

theorem dispatch_exact_iff {m : IOManager F C S} (h : Reachable (fun _ => True) m) {fd : ℕ}
    {c : FdContext F C S} (hc : m.fdContexts[fd]? = some c) (mask : Mask) (ok : Bool) :
    DispatchExact m fd c mask ok ↔ Idle c mask ∨ (ok = true ∧ Covered c mask) := by
  rcases h.inv with ⟨slots, hinv⟩
  have hsl := hc
  rw [hinv.represents fd, Option.map_eq_some_iff] at hsl
  rcases hsl with ⟨sl, -, rfl⟩
  by_cases hidle : Idle (FdContext.ofSlots fd sl) mask
  · exact iff_of_true (dispatchExact_of_idle hc hidle) (.inl hidle)
  · constructor
    · intro hexact
      have hok := ok_of_dispatchExact hc hidle hexact
      subst hok
      rcases hexact with ⟨m', c', hdone, -⟩
      exact .inr ⟨rfl, covered_of_done hc hidle hdone⟩
    · rintro (hidle' | ⟨rfl, hcov⟩)
      · exact absurd hidle' hidle
      · exact dispatchExact_of_covered hc hidle hcov

theorem dispatch_exact_both :
    ∃ (m : IOManager Unit Unit Unit) (c : FdContext Unit Unit Unit),
      Reachable (fun _ => True) m ∧ m.fdContexts[0]? = some c ∧ m.pendingEventCount = 2 ∧
        DispatchExact m 0 c EPOLLHUP true := by
  have hinit : Reachable (fun _ => True) (init : IOManager Unit Unit Unit) := .init
  have hread := hinit.step (a := .addEvent 0 .read (some ()) (some ()) () true true)
    (by exact trivial) rfl
  have hboth := hread.step (a := .addEvent 0 .write none (some ()) () true true)
    (by exact trivial) rfl
  refine ⟨_, _, hboth, rfl, by decide, ?_⟩
  refine (dispatch_exact_iff hboth rfl EPOLLHUP true).mpr (.inr ⟨rfl, ?_⟩)
  exact ⟨fun _ => ⟨by decide, rfl⟩, fun _ => ⟨by decide, rfl⟩⟩

/-- A reader alone on its descriptor: an error condition also triggers the absent writer. -/
theorem error_triggers_unregistered :
    ∃ (m m' : IOManager Unit Unit Unit) (c : FdContext Unit Unit Unit),
      Reachable (fun s => s.isSome = true) m ∧ m.fdContexts[0]? = some c ∧
        has c.events .read = true ∧ has c.events .write = false ∧
        dispatch 0 EPOLLERR true m = .raised ⟨"events & event"⟩ m' ∧
        ¬DispatchExact m 0 c EPOLLERR true := by
  have hinit : Reachable (fun s => s.isSome = true) (init : IOManager Unit Unit Unit) := .init
  have hread := hinit.step (a := .addEvent 0 .read (some ()) (some ()) () true true)
    (by exact rfl) rfl
  refine ⟨_, _, _, hread, rfl, by decide, by decide, rfl, ?_⟩
  rintro ⟨m', c', hdone, -⟩
  cases hdone

end Sylar.IOManager
