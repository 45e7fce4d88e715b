import Sylar.IOManager.Moves

/-! # Waiters are counted and handed over exactly once

The invariant of all runs: the counter is the number of waiters in the table,
every registration is in the table or has left it once, and what has left it
other than by `delEvent` is what was scheduled.
-/
namespace Sylar.IOManager
open Memory
open Scheduler (Task)

variable {F C S : Type}

/-- The waiters of the whole table. -/
def waiting (slots : List (Slots F C S)) : List (Waiter F C S) := slots.flatMap Slots.waiters

section Waiting

variable {slots : List (Slots F C S)} {fd : ℕ} {sl : Slots F C S} {event : Event}
  {w : Waiter F C S}

/-- Changing one descriptor changes one stretch of the list of waiters. -/
theorem waiting_split (hsl : slots[fd]? = some sl) :
    ∃ l₁ l₂, waiting slots = l₁ ++ sl.waiters ++ l₂ ∧
      ∀ sl', waiting (slots.set fd sl') = l₁ ++ sl'.waiters ++ l₂ := by
  obtain ⟨hlt, rfl⟩ := List.getElem?_eq_some_iff.mp hsl
  refine ⟨(slots.take fd).flatMap Slots.waiters, (slots.drop (fd + 1)).flatMap Slots.waiters,
    ?_, fun sl' => ?_⟩
  · rw [waiting]
    nth_rewrite 1 [← List.take_append_drop fd slots]
    rw [List.flatMap_append, List.drop_eq_getElem_cons hlt, List.flatMap_cons, List.append_assoc]
  · rw [waiting, List.set_eq_take_append_cons_drop, if_pos hlt, List.flatMap_append,
      List.flatMap_cons, List.append_assoc]

theorem waiters_set_some (hget : sl.get event = none) (hne : event ≠ .none)
    (w : Waiter F C S) : (sl.set event (some w)).waiters.Perm (w :: sl.waiters) := by
  cases event with
  | none => exact absurd rfl hne
  | read =>
    have hr : sl.read = none := hget
    simp [Slots.waiters, Slots.set, hr]
  | write =>
    have hw : sl.write = none := hget
    simp [Slots.waiters, Slots.set, hw, List.perm_append_singleton]

theorem waiters_set_none (hget : sl.get event = some w) :
    sl.waiters.Perm (w :: (sl.set event none).waiters) := by
  cases event with
  | none => cases hget
  | read =>
    have hr : sl.read = some w := hget
    simp [Slots.waiters, Slots.set, hr]
  | write =>
    have hw : sl.write = some w := hget
    simp [Slots.waiters, Slots.set, hw, List.perm_append_singleton]

theorem waiting_enter (hsl : slots[fd]? = some sl) (hget : sl.get event = none)
    (hne : event ≠ .none) (w : Waiter F C S) :
    (waiting (slots.set fd (sl.set event (some w)))).Perm (w :: waiting slots) := by
  obtain ⟨l₁, l₂, hold, hnew⟩ := waiting_split hsl
  rw [hold, hnew, List.append_assoc, List.append_assoc]
  refine (List.Perm.append_left l₁ ((waiters_set_some hget hne w).append_right l₂)).trans ?_
  exact List.perm_middle

theorem waiting_leave (hsl : slots[fd]? = some sl) (hget : sl.get event = some w) :
    (waiting slots).Perm (w :: waiting (slots.set fd (sl.set event none))) := by
  obtain ⟨l₁, l₂, hold, hnew⟩ := waiting_split hsl
  rw [hold, hnew, List.append_assoc, List.append_assoc]
  refine (List.Perm.append_left l₁ ((waiters_set_none hget).append_right l₂)).trans ?_
  exact List.perm_middle

theorem waiting_grow (k : ℕ) :
    waiting (slots ++ List.replicate k Slots.empty) = waiting slots := by
  have hnew : waiting (List.replicate k (Slots.empty : Slots F C S)) = [] := by
    rw [waiting, List.flatMap_eq_nil_iff]
    intro sl hsl
    rw [List.eq_of_mem_replicate hsl]
    rfl
  rw [waiting, List.flatMap_append, ← waiting, ← waiting, hnew, List.append_nil]

end Waiting

theorem getElem?_append_of_eq_some {α : Type} {l l' : List α} {i : ℕ} {a : α}
    (h : l[i]? = some a) : (l ++ l')[i]? = some a := by
  rw [List.getElem?_append_left (List.getElem?_eq_some_iff.mp h).1, h]

/-- The invariant of the manager, its contexts being those of `slots`. -/
structure Inv (ok : Option S → Prop) (m : IOManager F C S) (slots : List (Slots F C S)) : Prop where
  represents : Represents m slots
  pending : m.pendingEventCount = (waiting slots).length
  tickets : ((waiting slots).map Waiter.ticket ++ m.removed.map Prod.snd).Perm
    (List.range m.registered.length)
  scheduled : m.scheduled.map (fun x => x.2.2) =
    (m.removed.filter fun x => x.1 ≠ .delEvent).map Prod.snd
  schedulers : ∀ w ∈ waiting slots, ok w.scheduler
  origin : ∀ w ∈ waiting slots, m.registered[w.ticket]? = some (w.scheduler, w.task)
  handed : ∀ x ∈ m.scheduled, m.registered[x.2.2]? = some (some x.1, x.2.1)

theorem init_inv (ok : Option S → Prop) :
    Inv ok (init : IOManager F C S) (List.replicate 32 .empty) := by
  have hempty : Represents (⟨[], 0, fun _ => .none, [], [], []⟩ : IOManager F C S) [] := by
    intro i
    rfl
  have hgrow : Represents (init : IOManager F C S) (List.replicate 32 .empty) :=
    hempty.grow (Nat.zero_le 32)
  have hwaiting : waiting ([] ++ List.replicate 32 (Slots.empty : Slots F C S)) = [] :=
    waiting_grow 32
  rw [List.nil_append] at hwaiting
  refine ⟨hgrow, ?_, ?_, rfl, ?_, ?_, ?_⟩
  · rw [hwaiting]
    rfl
  · rw [hwaiting]
    rfl
  · rw [hwaiting]
    simp
  · rw [hwaiting]
    simp
  · intro x hx
    cases hx

/-- Every move keeps the invariant. -/
theorem Inv.move {ok : Option S → Prop} {m m' : IOManager F C S}
    {slots slots' : List (Slots F C S)} (h : Inv ok m slots)
    (hmove : Move ok (m, slots) (m', slots')) : Inv ok m' slots' := by
  have hrep := hmove.represents h.represents
  cases hmove with
  | ctl f => exact ⟨hrep, h.pending, h.tickets, h.scheduled, h.schedulers, h.origin, h.handed⟩
  | grow hsize =>
    refine ⟨hrep, ?_, ?_, h.scheduled, ?_, ?_, h.handed⟩
    · rw [waiting_grow]
      exact h.pending
    · rw [waiting_grow]
      exact h.tickets
    · rw [waiting_grow]
      exact h.schedulers
    · rw [waiting_grow]
      exact h.origin
  | @enter _ _ fd sl event w hsl hne hget hticket hok =>
    have hperm := waiting_enter hsl hget hne w
    refine ⟨hrep, ?_, ?_, h.scheduled, fun v hv => ?_, fun v hv => ?_, fun x hx => ?_⟩
    · rw [hperm.length_eq, List.length_cons, register, h.pending]
      push_cast
      rfl
    · rw [register, List.length_append, List.length_singleton, List.range_succ]
      refine ((hperm.map Waiter.ticket).append_right _).trans ?_
      rw [List.map_cons, List.cons_append, hticket]
      exact (h.tickets.cons _).trans (List.perm_append_singleton _ _).symm
    · rcases List.mem_cons.mp (hperm.subset hv) with rfl | hv
      · exact hok
      · exact h.schedulers v hv
    · rcases List.mem_cons.mp (hperm.subset hv) with rfl | hv
      · rw [register, hticket, List.getElem?_concat_length]
      · exact getElem?_append_of_eq_some (h.origin v hv)
    · exact getElem?_append_of_eq_some (h.handed x hx)
  | @fire _ _ fd sl event w s how hsl hget hs hhow =>
    have hperm := waiting_leave hsl hget
    refine ⟨hrep, ?_, ?_, ?_, fun v hv => ?_, fun v hv => ?_, fun x hx => ?_⟩
    · rw [h.pending, hperm.length_eq, List.length_cons]
      push_cast
      exact add_sub_cancel_right _ _
    · refine List.Perm.trans ?_ h.tickets
      rw [trigger, List.map_append, List.map_singleton, ← List.append_assoc]
      refine (List.perm_append_singleton _ _).trans ?_
      exact ((hperm.map Waiter.ticket).append_right _).symm
    · rw [trigger, List.map_append, List.filter_append, List.map_append, h.scheduled]
      simp [hhow]
    · exact h.schedulers v (hperm.symm.subset (List.mem_cons_of_mem _ hv))
    · exact h.origin v (hperm.symm.subset (List.mem_cons_of_mem _ hv))
    · rcases List.mem_append.mp hx with hx | hx
      · exact h.handed x hx
      · rw [List.mem_singleton.mp hx, ← hs]
        exact h.origin w (hperm.symm.subset List.mem_cons_self)
  | @drop _ _ fd sl event w hsl hget =>
    have hperm := waiting_leave hsl hget
    refine ⟨hrep, ?_, ?_, ?_, fun v hv => ?_, fun v hv => ?_, h.handed⟩
    · rw [h.pending, hperm.length_eq, List.length_cons]
      push_cast
      exact add_sub_cancel_right _ _
    · refine List.Perm.trans ?_ h.tickets
      rw [List.map_append, List.map_singleton, ← List.append_assoc]
      refine (List.perm_append_singleton _ _).trans ?_
      exact ((hperm.map Waiter.ticket).append_right _).symm
    · rw [List.filter_append, List.map_append, ← h.scheduled]
      simp
    · exact h.schedulers v (hperm.symm.subset (List.mem_cons_of_mem _ hv))
    · exact h.origin v (hperm.symm.subset (List.mem_cons_of_mem _ hv))

theorem Inv.moves {ok : Option S → Prop} {m m' : IOManager F C S} {slots : List (Slots F C S)}
    (h : Inv ok m slots) (hmoves : Moves ok m slots m') : ∃ slots', Inv ok m' slots' := by
  obtain ⟨slots', hsteps⟩ := hmoves
  refine ⟨slots', ?_⟩
  suffices hall : ∀ q : IOManager F C S × List (Slots F C S),
      Relation.ReflTransGen (Move ok) (m, slots) q → Inv ok q.1 q.2 from hall _ hsteps
  intro q hq
  induction hq with
  | refl => exact h
  | tail _ hmove ih => exact ih.move hmove

end Sylar.IOManager
