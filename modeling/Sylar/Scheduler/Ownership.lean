import Sylar.Scheduler.Possession

/-! # The fiber that a thread keeps for callbacks

`cb_fiber` is reused from callback to callback. If it is scheduled only while it executes, and not
queued when its function ends or yields to `READY`, then it has no other holder and no switch but
that of its thread starts a function on it. Nothing is asked of other fibers.
-/
namespace Sylar.Scheduler
open Memory

variable {T C : Type}

/-- What a thread relies on for its callback fiber. -/
def CallOk (x : Sheet C) : Stage → Prop
  | .parked => x.queued = 0
  | .resume => x.queued = 0 ∧ x.fiber.context = .fresh ∧ ∃ c, x.fiber.cb = some (.user c)
  | .running => x.fiber.state = .exec
  | .back => x.fiber.context ≠ .fresh ∧ (x.fiber.state = .exec ∨ x.queued = 0)

def callDiscipline : Discipline (T × Kind) Stage (Sheet C) where
  good x := 0 < x.queued → x.made
  ok p a x := x.made ∧ (p.2 = .callback → CallOk x a)
  shared p _ _ := p.2 ≠ .callback

def Owned (s : Scheduler T C) : Prop := s.ledger.Inv callDiscipline

/-- The fiber exists, and a thread that keeps it for callbacks executes it or has just done so. -/
def MayQueue (s : Scheduler T C) (f : ℕ) : Prop :=
  f < s.nextId ∧ ∀ t, (s.worker t).cbFiber = some f →
    ((s.worker t).pc = .running .callback ∨ (s.worker t).pc = .back .callback) ∧
      s.getState f = .exec

theorem act_context {x y : Fiber C} {b : Body} (hact : act x b = .ok y) : y.context ≠ .fresh := by
  rcases (act_inv hact).2 with ⟨h, -⟩ | ⟨h, -⟩ <;> rw [h] <;> decide

/-- A callback fiber is not queued when its function ends or yields to `READY`. -/
def MayEnd (k : Kind) (x : Sheet C) (b : Body) : Prop :=
  k = .callback → b = .yieldToReady ∨ Ends x.fiber b → x.queued = 0

theorem CallOk.passes {a b : Stage} {x x' : Sheet C} (hok : CallOk x a)
    (hpass : Passes MayEnd .callback a x (some b) x') : CallOk x' b := by
  cases hpass with
  | reuse c => exact ⟨hok, rfl, c, rfl⟩
  | swapIn => exact rfl
  | leave hmay hact =>
    refine ⟨act_context hact, ?_⟩
    rcases act_state hact with hsame | ⟨hb, -⟩ | ⟨-, hends⟩
    · exact .inl (hsame.trans hok)
    · exact .inr (hmay rfl (.inl hb))
    · exact .inr (hmay rfl (.inr hends))
  | clear hfin => exact hok.2.resolve_left (finished_ne_exec hfin)

/-- A fiber that is kept for callbacks and does not execute is not queued. -/
theorem CallOk.queued {a : Stage} {x : Sheet C} (hok : CallOk x a)
    (hexec : x.fiber.state ≠ .exec) : x.queued = 0 := by
  cases a with
  | parked => exact hok
  | resume => exact hok.1
  | running => exact absurd hok hexec
  | back => exact hok.2.resolve_left hexec

theorem fair_callDiscipline :
    Fair MayEnd (callDiscipline : Discipline (T × Kind) Stage (Sheet C)) where
  queued _ h := h
  made _ _ _ h := h.1
  fresh _ _ := trivial
  callback _ c := ⟨trivial, fun _ => ⟨rfl, rfl, c, rfl⟩⟩
  idle _ := ⟨trivial, nofun⟩
  pass t k a x stage x' _ hok hpass := by
    have hmade : x'.made := hpass.made ▸ hok.1
    refine ⟨fun _ => hmade, ?_, ?_⟩
    · rintro b rfl
      refine ⟨hmade, ?_⟩
      rintro rfl
      exact (hok.2 rfl).passes hpass
    · intro hshared q b _ hsharedq
      exact ⟨⟨hmade, fun hk => absurd hk hsharedq⟩, hsharedq, fun _ _ => hshared⟩
  take t x hgood hpos hexec := by
    have hmade := hgood hpos
    refine ⟨fun _ => hmade, ⟨hmade, nofun⟩, ?_⟩
    intro q b hok
    have hk : q.2 ≠ .callback := by
      intro hk
      exact absurd ((hok.2 hk).queued hexec) (Nat.pos_iff_ne_zero.mp hpos)
    exact ⟨⟨hmade, fun hk' => absurd hk' hk⟩, hk, nofun⟩

section Ownership

variable {s s' : Scheduler T C} {t : T} {k : Kind} {f : ℕ}

/-- Nobody else holds the fiber that a thread keeps for callbacks. -/
theorem Owned.sole (h : Owned s) (hcb : (s.worker t).cbFiber = some f) {p : T × Kind}
    (hp : (s.worker p.1).slot p.2 = some f) : p = (t, .callback) :=
  Ledger.Inv.sole (p := (t, Kind.callback)) h (hold_eq hcb rfl) (fun hshared => hshared rfl)
    (hold_eq hp rfl)

theorem Owned.callOk (h : Owned s) (hcb : (s.worker t).cbFiber = some f) :
    CallOk (s.sheet f) ((s.worker t).pc.stage .callback) :=
  (h.ok (t, .callback) f _ (hold_eq hcb rfl)).2 rfl

theorem Owned.made (h : Owned s) (hslot : (s.worker t).slot k = some f) : f < s.nextId :=
  (h.ok (t, k) f _ (hold_eq hslot rfl)).1

theorem scheduleNoLock_owned (h : Owned s) {task : Option (Task ℕ C)} (pin : Option T)
    (hmay : ∀ f, task = some (.fiber f) → MayQueue s f) : Owned (scheduleNoLock task pin s) := by
  apply scheduleNoLock_inv h
  intro f hf
  obtain ⟨hmade, hkept⟩ := hmay f hf
  refine ⟨fun _ => hmade, ?_⟩
  intro t k hslot
  refine ⟨⟨hmade, ?_⟩, id⟩
  rintro rfl
  obtain ⟨hpc | hpc, hexec⟩ := hkept t hslot
  · rw [hpc, stage_running]
    exact hexec
  · have hok := h.callOk hslot
    rw [hpc, stage_back] at hok ⊢
    exact ⟨hok.1, .inl hexec⟩

end Ownership

end Sylar.Scheduler
