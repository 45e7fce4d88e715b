import Sylar.IOManager.Slots
import Sylar.Memory.Agree
import Sylar.Memory.Heap
import Sylar.Memory.Run

/-! # The table of contexts under concurrent growth

`addEvent` tests the size of `m_fdContexts` under the read lock and enlarges the table under
the write lock, so that other threads may run in between. The table holds pointers; a pointer that a
thread has read stays with it until it has locked the context. A context is given by its two
waiters, which determine the mask and the event contexts.
-/
namespace Sylar.IOManager
open Memory
open Scheduler (Assertion)

namespace Table

/-- `FdContext`, a waiter being what `addEvent` stores in the event context. -/
structure Node (W : Type) where
  fd : ℕ
  read : Option W
  write : Option W
deriving DecidableEq, Repr

variable {T W : Type}

def Node.get (n : Node W) : Event → Option W
  | .read => n.read
  | .write => n.write
  | .none => none

def Node.set (n : Node W) (event : Event) (w : Option W) : Node W :=
  match event with
  | .read => { n with read := w }
  | .write => { n with write := w }
  | .none => n

def Node.clear (n : Node W) (events : List Event) : Node W := events.foldl (fun n e => n.set e none) n

/-- Where a thread is: outside, between the two locks of `addEvent`, or about to lock the context
whose pointer it has read. -/
inductive Pc (W : Type) where
  | idle
  | growing (fd : ℕ) (event : Event) (w : W)
  | adding (p : ℕ) (event : Event) (w : W)
  | removing (p : ℕ) (events : List Event)
deriving DecidableEq, Repr

structure Shared (T W : Type) where
  heap : Heap (Node W)
  table : List ℕ
  pc : T → Pc W

abbrev Cmd (T W : Type) := Command Assertion (Shared T W)

/-- `new FdContext` for each of the next `k` null entries. -/
def fill : ℕ → Shared T W → Shared T W
  | 0, s => s
  | k + 1, s => fill k { s with
      heap := s.heap.alloc ⟨s.table.length, none, none⟩
      table := s.table ++ [s.heap.brk] }

/-- `contextResize`: what is cut off is forgotten, not deleted. -/
def contextResize (size : ℕ) (s : Shared T W) : Shared T W :=
  fill (size - s.table.length) { s with table := s.table.take size }

def init : Shared T W := contextResize 32 ⟨.empty, [], fun _ => .idle⟩

/-- `m_fdContexts[fd]`. -/
def entry (fd : ℕ) : Cmd T W ℕ := Command.lookup .outOfBounds fun s => s.table[fd]?

def deref (p : ℕ) : Cmd T W (Node W) := Command.lookup .danglingPointer fun s => s.heap.get p

variable [DecidableEq T]

def Shared.setPc (t : T) (pc : Pc W) (s : Shared T W) : Shared T W :=
  { s with pc := Function.update s.pc t pc }

def goto (t : T) (pc : Pc W) : Cmd T W Unit := Command.modify (Shared.setPc t pc)

def store (p : ℕ) (n : Node W) : Cmd T W Unit :=
  Command.modify fun s => { s with heap := s.heap.set p n }

/-- The steps of a thread; `ok` is the answer of `epoll_ctl`. -/
inductive Act (T W : Type) where
  | addEvent (t : T) (fd : ℕ) (event : Event) (w : W)
  | grow (t : T)
  | bind (t : T) (ok : Bool)
  | find (t : T) (fd : ℕ) (events : List Event)
  | remove (t : T) (ok : Bool)

/-- `addEvent` up to the end of the read lock. -/
def addEvent (t : T) (fd : ℕ) (event : Event) (w : W) : Cmd T W Unit := do
  let s ← Command.state
  if s.table.length > fd then do
    let p ← entry fd
    goto t (.adding p event w)
  else goto t (.growing fd event w)

/-- The part of `addEvent` under the write lock. -/
def grow (t : T) (fd : ℕ) (event : Event) (w : W) : Cmd T W Unit := do
  Command.modify (contextResize (fd * 3 / 2))
  let p ← entry fd
  goto t (.adding p event w)

/-- The part of `addEvent` under the mutex of the context. -/
def bind (t : T) (p : ℕ) (event : Event) (w : W) (ok : Bool) : Cmd T W Unit := do
  let n ← deref p
  if (n.get event).isSome then Command.raise ⟨"!(fd_ctx->events & event)"⟩
  else do
    store p (if ok then n.set event (some w) else n)
    goto t .idle

/-- `delEvent` and `cancelEvent` (of one event) and `cancelAll` (of both) up to the end of the read
lock; `false` if the call returns at this point. -/
def find (t : T) (fd : ℕ) (events : List Event) : Cmd T W Bool := do
  let s ← Command.state
  if s.table.length ≤ fd then pure false
  else do
    let p ← entry fd
    goto t (.removing p events)
    pure true

/-- Their part under the mutex of the context. -/
def remove (t : T) (p : ℕ) (events : List Event) (ok : Bool) : Cmd T W Unit := do
  let n ← deref p
  store p (if ok then n.clear events else n)
  goto t .idle

def Act.run (a : Act T W) : Cmd T W Unit := do
  let s ← Command.state
  match a with
  | .addEvent t fd event w => Table.addEvent t fd event w
  | .grow t =>
    match s.pc t with
    | .growing fd event w => Table.grow t fd event w
    | _ => pure ()
  | .bind t ok =>
    match s.pc t with
    | .adding p event w => Table.bind t p event w ok
    | _ => pure ()
  | .find t fd events => do let _ ← Table.find t fd events
  | .remove t ok =>
    match s.pc t with
    | .removing p events => Table.remove t p events ok
    | _ => pure ()

/-- A thread begins a call when it is outside. -/
def Act.Allowed (s : Shared T W) : Act T W → Prop
  | .addEvent t _ event _ => s.pc t = .idle ∧ event ≠ .none
  | .find t _ _ => s.pc t = .idle
  | _ => True

/-- No other thread has enlarged the table beyond what this one is about to ask for. -/
def Act.Fits (s : Shared T W) : Act T W → Prop
  | .grow t => ∀ fd event w, s.pc t = .growing fd event w → s.table.length ≤ fd * 3 / 2
  | _ => True

/-- Every context is in the table, at the place of its descriptor. -/
structure Placed (s : Shared T W) : Prop where
  placed : ∀ p n, s.heap.get p = some n → s.table[n.fd]? = some p
  entries : ∀ (i p : ℕ), s.table[i]? = some p → ∃ n, s.heap.get p = some n ∧ n.fd = i

variable {s s' : Shared T W}

section Growth

omit [DecidableEq T]

theorem Placed.push (h : Placed s) : Placed { s with
    heap := s.heap.alloc ⟨s.table.length, none, none⟩
    table := s.table ++ [s.heap.brk] } := by
  constructor
  · intro p n hn
    dsimp only at hn ⊢
    by_cases hp : p = s.heap.brk
    · rw [hp, Heap.get_alloc_self] at hn
      cases hn
      rw [List.getElem?_concat_length, hp]
    · rw [Heap.alloc, Heap.get_set_of_ne _ hp] at hn
      exact List.getElem?_append_left (List.getElem?_eq_some_iff.mp (h.placed p n hn)).1 |>.trans
        (h.placed p n hn)
  · intro i p hp
    dsimp only at hp ⊢
    rcases Nat.lt_or_ge i s.table.length with hlt | hge
    · rw [List.getElem?_append_left hlt] at hp
      obtain ⟨n, hn, hfd⟩ := h.entries i p hp
      exact ⟨n, Heap.get_alloc_of_get _ hn, hfd⟩
    · rw [List.getElem?_append_right hge, List.getElem?_singleton] at hp
      split_ifs at hp with hi
      cases hp
      refine ⟨_, Heap.get_alloc_self _ _, ?_⟩
      dsimp only
      omega

theorem Placed.fill (h : Placed s) (k : ℕ) : Placed (fill k s) := by
  induction k generalizing s with
  | zero => exact h
  | succ k ih => exact ih h.push

theorem fill_table (k : ℕ) (s : Shared T W) :
    s.table <+: (fill k s).table ∧ (fill k s).table.length = s.table.length + k := by
  induction k generalizing s with
  | zero => exact ⟨List.prefix_rfl, rfl⟩
  | succ k ih =>
    obtain ⟨hpre, hlen⟩ := ih { s with
      heap := s.heap.alloc ⟨s.table.length, none, none⟩
      table := s.table ++ [s.heap.brk] }
    refine ⟨(List.prefix_append _ _).trans hpre, ?_⟩
    rw [Table.fill, hlen, List.length_append, List.length_singleton]
    omega

theorem contextResize_of_le {size : ℕ} (h : s.table.length ≤ size) :
    contextResize size s = fill (size - s.table.length) s := by
  rw [contextResize, List.take_of_length_le h]

theorem length_contextResize (size : ℕ) (s : Shared T W) :
    (contextResize size s).table.length = size := by
  rw [contextResize, (fill_table _ _).2, List.length_take]
  omega

/-- The table keeps its entries exactly if it does not become smaller. -/
theorem contextResize_keeps_iff {size : ℕ} :
    (∀ i p : ℕ, s.table[i]? = some p → (contextResize size s).table[i]? = some p) ↔
      s.table.length ≤ size := by
  constructor
  · intro h
    by_contra hlt
    have hget : s.table[size]? = some s.table[size] := List.getElem?_eq_getElem (by omega)
    have := (List.getElem?_eq_some_iff.mp (h size _ hget)).1
    rw [length_contextResize] at this
    omega
  · intro h i p hp
    obtain ⟨rest, hrest⟩ := (fill_table (size - s.table.length) s).1
    rw [contextResize_of_le h, ← hrest,
      List.getElem?_append_left (List.getElem?_eq_some_iff.mp hp).1, hp]

theorem placed_init : Placed (init : Shared T W) := by
  have hempty : Placed (⟨.empty, [], fun _ => .idle⟩ : Shared T W) := by
    constructor
    · intro p n hn
      cases hn
    · intro i p hp
      cases hp
  rw [init, contextResize_of_le (Nat.zero_le _)]
  exact hempty.fill _

end Growth

section Steps

variable {t : T} {fd p : ℕ} {event : Event} {w : W} {ok : Bool}

omit [DecidableEq T]

theorem fd_set (n : Node W) (event : Event) (w : Option W) : (n.set event w).fd = n.fd := by
  cases event <;> rfl

theorem fd_clear (n : Node W) (events : List Event) : (n.clear events).fd = n.fd := by
  induction events generalizing n with
  | nil => rfl
  | cons e events ih => exact (ih (n.set e none)).trans (fd_set n e none)

/-- The waiters of a context may change, its descriptor may not. -/
theorem Placed.store (h : Placed s) {n n' : Node W} (hn : s.heap.get p = some n)
    (hfd : n'.fd = n.fd) : Placed { s with heap := s.heap.set p n' } := by
  constructor
  · intro q m hm
    dsimp only at hm ⊢
    by_cases hq : q = p
    · rw [hq, Heap.get_set_self] at hm
      cases hm
      rw [hfd, hq]
      exact h.placed p n hn
    · rw [Heap.get_set_of_ne _ hq] at hm
      exact h.placed q m hm
  · intro i q hq
    obtain ⟨m, hm, hmi⟩ := h.entries i q hq
    by_cases hqp : q = p
    · rw [hqp, hn] at hm
      cases hm
      exact ⟨n', by rw [hqp]; exact Heap.get_set_self _ _ _, hfd.trans hmi⟩
    · exact ⟨m, by rw [← hm]; exact Heap.get_set_of_ne _ hqp _, hmi⟩

end Steps

/-- What a step can do to the table. -/
theorem Act.run_cases {a : Act T W} (h : a.run s = .done () s') :
    (s'.table = s.table ∧ a.Fits s ∧ (s'.heap = s.heap ∨ ∃ p n n', s.heap.get p = some n ∧ n'.fd = n.fd ∧
      s'.heap = s.heap.set p n')) ∨
    ∃ t fd event w, a = .grow t ∧ s.pc t = .growing fd event w ∧
      s'.table = (contextResize (fd * 3 / 2) s).table ∧
      s'.heap = (contextResize (fd * 3 / 2) s).heap := by
  rw [Act.run, Command.state_bind_apply] at h
  cases a with
  | addEvent t fd event w =>
    dsimp only at h
    rw [Table.addEvent, Command.state_bind_apply, Command.ite_apply] at h
    split at h
    · obtain ⟨p, s₁, hp, hgoto⟩ := Command.bind_eq_done.mp h
      obtain ⟨rfl, -⟩ := Command.lookup_inv hp
      cases hgoto
      exact .inl ⟨rfl, trivial, .inl rfl⟩
    · cases h
      exact .inl ⟨rfl, trivial, .inl rfl⟩
  | grow t =>
    dsimp only at h
    cases hpc : s.pc t with
    | growing fd event w =>
      rw [hpc] at h
      dsimp only at h
      rw [Table.grow, Command.modify_bind_apply] at h
      obtain ⟨p, s₁, hp, hgoto⟩ := Command.bind_eq_done.mp h
      obtain ⟨rfl, -⟩ := Command.lookup_inv hp
      cases hgoto
      exact .inr ⟨t, fd, event, w, rfl, hpc, rfl, rfl⟩
    | _ =>
      rw [hpc] at h
      cases h
      refine .inl ⟨rfl, fun fd event w hgrowing => ?_, .inl rfl⟩
      rw [hpc] at hgrowing
      cases hgrowing
  | bind t ok =>
    dsimp only at h
    cases hpc : s.pc t with
    | adding p event w =>
      rw [hpc] at h
      obtain ⟨n, s₁, hn, hrest⟩ := Command.bind_eq_done.mp h
      obtain ⟨rfl, hget⟩ := Command.lookup_inv hn
      rw [Command.ite_apply] at hrest
      split at hrest
      · cases hrest
      · cases hrest
        refine .inl ⟨rfl, trivial, .inr ⟨p, n, _, hget, ?_, rfl⟩⟩
        split
        · exact fd_set n event (some w)
        · rfl
    | _ =>
      rw [hpc] at h
      cases h
      exact .inl ⟨rfl, trivial, .inl rfl⟩
  | find t fd events =>
    obtain ⟨b, s₁, hfind, hret⟩ := Command.bind_eq_done.mp h
    cases hret
    rw [Table.find, Command.state_bind_apply, Command.ite_apply] at hfind
    split at hfind
    · cases hfind
      exact .inl ⟨rfl, trivial, .inl rfl⟩
    · obtain ⟨p, s₁, hp, hgoto⟩ := Command.bind_eq_done.mp hfind
      obtain ⟨rfl, -⟩ := Command.lookup_inv hp
      cases hgoto
      exact .inl ⟨rfl, trivial, .inl rfl⟩
  | remove t ok =>
    dsimp only at h
    cases hpc : s.pc t with
    | removing p events =>
      rw [hpc] at h
      obtain ⟨n, s₁, hn, hrest⟩ := Command.bind_eq_done.mp h
      obtain ⟨rfl, hget⟩ := Command.lookup_inv hn
      cases hrest
      refine .inl ⟨rfl, trivial, .inr ⟨p, n, _, hget, ?_, rfl⟩⟩
      split
      · exact fd_clear n events
      · rfl
    | _ =>
      rw [hpc] at h
      cases h
      exact .inl ⟨rfl, trivial, .inl rfl⟩

theorem Placed.step {a : Act T W} (h : Placed s) (hfits : a.Fits s) (hrun : a.run s = .done () s') :
    Placed s' := by
  rcases Act.run_cases hrun with ⟨htable, -, hheap | ⟨p, n, n', hn, hfd, hheap⟩⟩ |
    ⟨t, fd, event, w, rfl, hpc, htable, hheap⟩
  · exact ⟨by rw [htable, hheap]; exact h.placed, by rw [htable, hheap]; exact h.entries⟩
  · have hstore := h.store hn hfd
    exact ⟨by rw [htable, hheap]; exact hstore.placed, by rw [htable, hheap]; exact hstore.entries⟩
  · have hfill := h.fill (fd * 3 / 2 - s.table.length)
    rw [← contextResize_of_le (hfits fd event w hpc)] at hfill
    exact ⟨by rw [htable, hheap]; exact hfill.placed, by rw [htable, hheap]; exact hfill.entries⟩

theorem placed_of_reachable
    (h : Memory.Reachable init Act.run (fun s a => a.Allowed s ∧ a.Fits s) s) : Placed s :=
  h.invariant placed_init fun _ _ _ h ha hrun => h.step ha.2 hrun

/-- As long as no thread asks for a table that is smaller than the one it finds, every context that
was ever created stays in the table, so that its waiters are found there; a step that does ask
for a smaller one loses an entry. -/
theorem contexts_kept (h : Memory.Reachable init Act.run (fun s a => a.Allowed s ∧ a.Fits s) s) :
    (∀ p n, s.heap.get p = some n → s.table[n.fd]? = some p) ∧
      ∀ (a : Act T W) (s' : Shared T W), a.Allowed s → a.run s = .done () s' →
        ((∀ i p : ℕ, s.table[i]? = some p → s'.table[i]? = some p) ↔ a.Fits s) := by
  refine ⟨(placed_of_reachable h).placed, fun a s' _ hrun => ?_⟩
  rcases Act.run_cases hrun with ⟨htable, hfits, -⟩ | ⟨t, fd, event, w, rfl, hpc, htable, -⟩
  · rw [htable]
    exact ⟨fun _ => hfits, fun _ i p hp => hp⟩
  · rw [htable, contextResize_keeps_iff]
    constructor
    · intro hle fd' event' w' hpc'
      rw [hpc] at hpc'
      cases hpc'
      exact hle
    · intro hfits
      exact hfits fd event w hpc

/-- A descriptor beyond the table: the call asks for a larger one. -/
theorem addEvent_beyond {t : T} {fd : ℕ} (h : s.table.length ≤ fd) (event : Event) (w : W) :
    (Act.addEvent t fd event w).run s =
      .done () (s.setPc t (.growing fd event w)) := by
  rw [Act.run, Command.state_bind_apply]
  dsimp only
  rw [Table.addEvent, Command.state_bind_apply, Command.ite_apply, if_neg (by omega)]
  rfl

/-- The table that it asks for has an entry for the descriptor. -/
theorem grow_done {t : T} {fd : ℕ} {event : Event} {w : W} (hpc : s.pc t = .growing fd event w)
    (hfd : 2 ≤ fd) : ∃ s', (Act.grow t).run s = .done () s' ∧ s'.table.length = fd * 3 / 2 := by
  have hlen := length_contextResize (fd * 3 / 2) s
  have hget := List.getElem?_eq_getElem (show fd < (contextResize (fd * 3 / 2) s).table.length by omega)
  have hentry : entry fd (contextResize (fd * 3 / 2) s) =
      .done _ (contextResize (fd * 3 / 2) s) := Command.lookup_done hget
  rw [Act.run, Command.state_bind_apply]
  dsimp only
  rw [hpc]
  dsimp only
  rw [Table.grow, Command.modify_bind_apply, Command.bind_done hentry]
  exact ⟨_, rfl, hlen⟩

theorem contexts_kept_grown : ∃ s : Shared Bool Unit, s.table.length = 72 ∧
    ∀ p n, s.heap.get p = some n → s.table[n.fd]? = some p := by
  have hinit : Memory.Reachable init Act.run (fun s a => a.Allowed s ∧ a.Fits s)
    (init : Shared Bool Unit) := .init
  have hlen : (init : Shared Bool Unit).table.length = 32 := length_contextResize _ _
  have h₁ := hinit.step (show Act.Allowed init (.addEvent true 48 .read ()) ∧
    Act.Fits init (.addEvent true 48 .read ()) from ⟨⟨rfl, by decide⟩, trivial⟩)
    (addEvent_beyond (by omega) .read ())
  let s₁ : Shared Bool Unit := (init : Shared Bool Unit).setPc true (.growing 48 .read ())
  have hpc : s₁.pc true = .growing 48 .read () := rfl
  have hfits : Act.Fits s₁ (.grow true) := by
    intro fd event w hgrowing
    rw [hpc] at hgrowing
    cases hgrowing
    exact hlen.le.trans (by decide)
  have hallowed : Act.Allowed s₁ (.grow true) := trivial
  obtain ⟨s, hrun, htable⟩ := grow_done hpc (by decide)
  exact ⟨s, htable, (contexts_kept (h₁.step ⟨hallowed, hfits⟩ hrun)).1⟩

/-- The larger table is asked for first: the other thread cuts off the context of descriptor 48
after a waiter has been registered there, and `delEvent` finds nothing. -/
theorem growth_loses_waiter :
    let acts : List (Act Bool Unit) := [.addEvent true 48 .read (), .addEvent false 32 .read (),
      .grow true, .bind true true, .grow false]
    ((runAll Act.run acts init).final.map fun s : Shared Bool Unit =>
      (s.heap.get 48, s.table.length, (Table.find true 48 [.read] s).answer)) =
    some (some ⟨48, some (), none⟩, 48, .done false ()) := by
  decide +kernel

end Table
end Sylar.IOManager
