import Mathlib.Data.List.Chain
import Sylar.Memory.Run

/-! # `ConfigVar` under concurrent assignment

`setValue` compares and notifies under the read lock and assigns under the write lock. Several
calls may hold the read lock one after the other before any of them assigns, and then the
listeners hear of changes that do not follow each other.
-/
namespace Sylar.Config
open Memory

/-- `pc` has the values of the calls of `setValue` that have notified and not yet assigned; `rounds`
is the history of notifications: who was called, with which old and new value. -/
structure Shared (C T : Type) where
  val : T
  cbs : List ℕ
  funId : ℕ
  pc : C → Option T
  rounds : List (List ℕ × T × T)

inductive Act (C T : Type) where
  | setValue (c : C) (v : T)
  | assign (c : C)
  | addListener
  | delListener (key : ℕ)
  | clearListener
deriving DecidableEq

variable {C T : Type}

namespace Shared

/-- The callbacks are called with the old value and the new one. -/
def notify (v : T) (s : Shared C T) : Shared C T :=
  { s with rounds := s.rounds ++ [(s.cbs, s.val, v)] }

def putVal (v : T) (s : Shared C T) : Shared C T := { s with val := v }

def goto [DecidableEq C] (c : C) (pc : Option T) (s : Shared C T) : Shared C T :=
  { s with pc := Function.update s.pc c pc }

def putCbs (cbs : List ℕ) (s : Shared C T) : Shared C T := { s with cbs := cbs }

def received (s : Shared C T) (key : ℕ) : List (T × T) :=
  s.rounds.filterMap fun r => if key ∈ r.1 then some r.2 else none

/-- The last new value that a listener has been told, or the given one if it was told nothing. -/
def lastTold (s : Shared C T) (key : ℕ) (init : T) : T :=
  (s.received key).getLast?.elim init Prod.snd

/-- A variable of a listener that stores the new value, as the listeners of
`_RequestSizeIniter` do. -/
def cache (s : Shared C T) (key : ℕ) (init : T) : T :=
  (s.received key).foldl (fun _ n => n.2) init

def Quiet (s : Shared C T) : Prop := ∀ c, s.pc c = none

end Shared

variable [DecidableEq C] [BEq T]

/-- The part of `setValue` under the read lock. -/
def setValue (c : C) (v : T) : Command Empty (Shared C T) Unit := do
  let s ← Command.state
  if v == s.val then pure ()
  else do
    Command.modify (Shared.notify v)
    Command.modify (Shared.goto c (some v))

omit [BEq T] in
/-- The part of `setValue` under the write lock. -/
def assign (c : C) (v : T) : Command Empty (Shared C T) Unit := do
  Command.modify (Shared.putVal v)
  Command.modify (Shared.goto c none)

def Act.run (a : Act C T) : Command Empty (Shared C T) Unit := do
  let s ← Command.state
  match a with
  | .setValue c v =>
    match s.pc c with
    | some _ => pure ()
    | none => Config.setValue c v
  | .assign c =>
    match s.pc c with
    | some v => Config.assign c v
    | none => pure ()
  | .addListener => Command.modify fun s =>
      { s with funId := s.funId + 1, cbs := s.cbs ++ [s.funId + 1] }
  | .delListener key => Command.modify fun s => s.putCbs (s.cbs.erase key)
  | .clearListener => Command.modify (Shared.putCbs [])

/-- The notifications of a listener form a chain, and when no call is in progress the last of them
told the present value. -/
structure Coherent (key : ℕ) (start s : Shared C T) : Prop where
  chain : (s.received key).IsChain fun m n => n.1 = m.2
  last : s.Quiet → s.lastTold key start.val = s.val
  cache : s.Quiet → s.cache key start.val = s.val

def Registered (key : ℕ) (_ : Shared C T) : Act C T → Prop
  | .delListener k => k ≠ key
  | .clearListener => False
  | _ => True

/-- Nobody notifies while another call has yet to assign. -/
def Alone (s : Shared C T) : Act C T → Prop
  | .setValue c v => s.pc c = none → (v == s.val) = false → s.Quiet
  | _ => True

/-- A call that has yet to assign is the only one, and its value is the last that was told. -/
structure Inv (key : ℕ) (start s : Shared C T) : Prop where
  registered : key ∈ s.cbs
  chain : (s.received key).IsChain fun m n => n.1 = m.2
  quiet : s.Quiet → s.lastTold key start.val = s.val
  pending : ∀ c v, s.pc c = some v → (∀ c', c' ≠ c → s.pc c' = none) ∧
    (∃ m, (s.received key).getLast? = some m ∧ m.2 = v) ∧ (v == s.val) = false

section Steps

variable {key : ℕ} {start s s' : Shared C T} {a : Act C T} {c : C} {v : T}

omit [DecidableEq C] [BEq T] in
theorem received_notify (h : key ∈ s.cbs) :
    (s.notify v).received key = s.received key ++ [(s.val, v)] := by
  rw [Shared.received, Shared.notify, List.filterMap_append]
  simp [Shared.received, h]

omit [DecidableEq C] [BEq T] in
theorem cache_eq (init : T) : s.cache key init = s.lastTold key init := by
  rw [Shared.cache, Shared.lastTold]
  cases h : (s.received key).getLast? with
  | none =>
    rw [List.getLast?_eq_none_iff] at h
    rw [h]
    rfl
  | some n =>
    rcases List.getLast?_eq_some_iff.mp h with ⟨l, hl⟩
    rw [hl, List.foldl_append]
    rfl

omit [DecidableEq C] in
theorem Inv.coherent (h : Inv key start s) : Coherent key start s where
  chain := h.chain
  last := h.quiet
  cache := by
    intro hquiet
    rw [cache_eq]
    exact h.quiet hquiet

omit [DecidableEq C] in
/-- A notification to a listener that was told the present value before. -/
theorem chain_notify (h : Inv key start s) : s.Quiet →
    ((s.notify v).received key).IsChain fun m n => n.1 = m.2 := by
  intro hquiet
  rw [received_notify h.registered, List.isChain_append]
  refine ⟨h.chain, List.isChain_singleton _, ?_⟩
  intro m hm n hn
  have htold := h.quiet hquiet
  rw [Shared.lastTold, Option.mem_def.mp hm] at htold
  simp only [List.head?_cons, Option.mem_some_iff] at hn
  rw [← hn]
  exact htold.symm

/-- A call that finds no other in progress. -/
theorem setValue_inv (h : Inv key start s) (hquiet : s.Quiet) (hne : (v == s.val) = false) :
    Inv key start ((s.notify v).goto c (some v)) where
  registered := h.registered
  chain := chain_notify h hquiet
  quiet := by
    intro hq
    have hc : Function.update s.pc c (some v) c = none := hq c
    rw [Function.update_self] at hc
    cases hc
  pending := by
    intro c' v' hpc
    change Function.update s.pc c (some v) c' = some v' at hpc
    by_cases hcc : c' = c
    · rw [hcc, Function.update_self] at hpc
      cases hpc
      refine ⟨fun d hd => ?_, ⟨(s.val, v), ?_, rfl⟩, hne⟩
      · change Function.update s.pc c (some v) d = none
        rw [Function.update_of_ne (hcc ▸ hd)]
        exact hquiet d
      · change ((s.notify v).received key).getLast? = _
        rw [received_notify h.registered]
        exact List.getLast?_concat
    · rw [Function.update_of_ne hcc, hquiet c'] at hpc
      cases hpc

theorem assign_inv (h : Inv key start s) (hpc : s.pc c = some v) :
    Inv key start ((s.putVal v).goto c none) := by
  rcases h.pending c v hpc with ⟨hothers, ⟨m, hlast, hm⟩, -⟩
  have hnone : ∀ c', Function.update s.pc c none c' = none := by
    intro c'
    by_cases hcc : c' = c
    · rw [hcc, Function.update_self]
    · rw [Function.update_of_ne hcc]
      exact hothers c' hcc
  refine ⟨h.registered, h.chain, fun _ => ?_, fun c' v' hc' => ?_⟩
  · change (s.received key).getLast?.elim start.val Prod.snd = v
    rw [hlast]
    exact hm
  · change Function.update s.pc c none c' = some v' at hc'
    rw [hnone c'] at hc'
    cases hc'

omit [DecidableEq C] in
theorem Inv.putCbs (h : Inv key start s) {cbs : List ℕ} (hkey : key ∈ cbs) (funId : ℕ) :
    Inv key start { s with cbs := cbs, funId := funId } :=
  ⟨hkey, h.chain, h.quiet, h.pending⟩

theorem setValue_run (hpc : s.pc c = none) (hne : (v == s.val) = false) :
    (Act.setValue c v).run s = .done () ((s.notify v).goto c (some v)) := by
  simp only [Act.run, Command.state_bind_apply, hpc]
  rw [setValue, Command.state_bind_apply, hne]
  rfl

theorem step_inv (h : Inv key start s) (hreg : Registered key s a) (halone : Alone s a)
    (hrun : a.run s = .done () s') : Inv key start s' := by
  cases a with
  | setValue c v =>
    cases hpc : s.pc c with
    | some w =>
      simp only [Act.run, Command.state_bind_apply, hpc] at hrun
      cases hrun
      exact h
    | none =>
      cases hne : v == s.val with
      | true =>
        simp only [Act.run, Command.state_bind_apply, hpc] at hrun
        rw [setValue, Command.state_bind_apply, hne] at hrun
        cases hrun
        exact h
      | false =>
        rw [setValue_run hpc hne] at hrun
        cases hrun
        exact setValue_inv h (halone hpc hne) hne
  | assign c =>
    cases hpc : s.pc c with
    | none =>
      simp only [Act.run, Command.state_bind_apply, hpc] at hrun
      cases hrun
      exact h
    | some v =>
      simp only [Act.run, Command.state_bind_apply, hpc] at hrun
      cases hrun
      exact assign_inv h hpc
  | addListener =>
    cases hrun
    exact h.putCbs (List.mem_append_left _ h.registered) _
  | delListener k =>
    cases hrun
    exact h.putCbs ((List.mem_erase_of_ne (Ne.symm hreg)).mpr h.registered) _
  | clearListener => cases hreg

/-- A notification between the two sections of another call breaks the chain. -/
theorem step_clash [ReflBEq T] (h : Inv key start s) (hclash : ¬Alone s a)
    (hrun : a.run s = .done () s') : ¬Coherent key start s' := by
  cases a with
  | setValue c v =>
    simp only [Alone, Classical.not_imp, Shared.Quiet, not_forall] at hclash
    rcases hclash with ⟨hpc, hne, c', hc'⟩
    rcases Option.ne_none_iff_exists'.mp hc' with ⟨v', hv'⟩
    rcases h.pending c' v' hv' with ⟨-, ⟨m, hlast, rfl⟩, hdiff⟩
    rw [setValue_run hpc hne] at hrun
    cases hrun
    intro hcoherent
    have hchain : ((s.notify v).received key).IsChain fun m n => n.1 = m.2 := hcoherent.chain
    rw [received_notify h.registered, List.isChain_append] at hchain
    have hlink : s.val = m.2 := hchain.2.2 m (Option.mem_def.mpr hlast) _ rfl
    rw [← hlink, beq_self_eq_true] at hdiff
    cases hdiff
  | _ => exact absurd trivial hclash

theorem act_run_done (a : Act C T) (s : Shared C T) : ∃ s', a.run s = .done () s' := by
  cases a with
  | setValue c v =>
    cases hpc : s.pc c <;> cases hne : v == s.val <;>
      simp [Act.run, hpc, setValue, hne]
  | assign c => cases hpc : s.pc c <;> simp [Act.run, hpc, assign]
  | addListener => exact ⟨_, rfl⟩
  | delListener k => exact ⟨_, rfl⟩
  | clearListener => exact ⟨_, rfl⟩

theorem runAll_coherent {acts : List (Act C T)} (h : Inv key start s)
    (hreg : Along (Registered key) Act.run acts s) (halone : Along Alone Act.run acts s)
    (hrun : runAll Act.run acts s = .done () s') : Inv key start s' := by
  induction acts generalizing s with
  | nil =>
    cases hrun
    exact h
  | cons a acts ih =>
    rcases runAll_cons_done.mp hrun with ⟨s₁, ha, hrest⟩
    rw [along_cons ha] at hreg halone
    exact ih (step_inv h hreg.1 halone.1 ha) hreg.2 halone.2 hrest

theorem runAll_alone [ReflBEq T] {acts : List (Act C T)} (h : Inv key start s)
    (hreg : Along (Registered key) Act.run acts s)
    (hcoherent : ∀ n s', runAll Act.run (acts.take n) s = .done () s' → Coherent key start s') :
    Along Alone Act.run acts s := by
  induction acts generalizing s with
  | nil => trivial
  | cons a acts ih =>
    rcases act_run_done a s with ⟨s₁, ha⟩
    rw [along_cons ha] at hreg ⊢
    have halone : Alone s a := by
      by_contra hclash
      apply step_clash h hclash ha
      exact hcoherent 1 s₁ (runAll_cons_done.mpr ⟨s₁, ha, by simp [runAll]⟩)
    refine ⟨halone, ih (step_inv h hreg.1 halone ha) hreg.2 fun n s' hrun => ?_⟩
    exact hcoherent (n + 1) s' (runAll_cons_done.mpr ⟨s₁, ha, hrun⟩)

end Steps

/-- A listener is registered, no call is in progress and nothing has been notified. -/
structure Shared.Start (key : ℕ) (s : Shared C T) : Prop where
  registered : key ∈ s.cbs
  quiet : s.Quiet
  rounds : s.rounds = []

omit [DecidableEq C] in
theorem Shared.Start.inv {key : ℕ} {s : Shared C T} (h : s.Start key) : Inv key s s where
  registered := h.registered
  chain := by simp [Shared.received, h.rounds]
  quiet := by simp [Shared.lastTold, Shared.received, h.rounds]
  pending := by
    intro c v hpc
    rw [h.quiet c] at hpc
    cases hpc

/-- The notifications of a listener form a chain that ends in the present value, throughout a run,
exactly if no call notifies while another has yet to assign. -/
theorem notifications_coherent (key : ℕ) (start : Shared C T) (acts : List (Act C T))
    (hstart : start.Start key) (hreg : Along (Registered key) Act.run acts start) :
    (Along Alone Act.run acts start →
      ∀ n s, runAll Act.run (acts.take n) start = .done () s → Coherent key start s) ∧
    (∀ [ReflBEq T],
      (∀ n s, runAll Act.run (acts.take n) start = .done () s → Coherent key start s) →
      Along Alone Act.run acts start) := by
  constructor
  · intro halone n s hrun
    exact (runAll_coherent hstart.inv (hreg.take n) (halone.take n) hrun).coherent
  · intro _ hcoherent
    exact runAll_alone hstart.inv hreg hcoherent

/-- `http.request.buffer_size` with its listener. -/
def bufferSize : Shared Bool UInt64 := ⟨4096, [1], 1, fun _ => none, []⟩

theorem bufferSize_start : bufferSize.Start 1 := ⟨by decide, fun _ => rfl, rfl⟩

theorem notifications_coherent_bufferSize :
    ∃ s, runAll Act.run [.setValue true 8192, .assign true, .setValue false 1024, .assign false]
      bufferSize = .done () s ∧ s.received 1 = [(4096, 8192), (8192, 1024)] ∧
      Coherent 1 bufferSize s := by
  have hreg : Along (Registered 1) Act.run
      [.setValue true 8192, .assign true, .setValue false 1024, .assign false] bufferSize := by
    iterate 4
      refine (along_cons (by rfl)).mpr ⟨trivial, ?_⟩
    trivial
  have halone : Along Alone Act.run
      [.setValue true 8192, .assign true, .setValue false 1024, .assign false] bufferSize := by
    refine (along_cons (by rfl)).mpr ⟨fun _ _ _ => rfl, ?_⟩
    refine (along_cons (by rfl)).mpr ⟨trivial, ?_⟩
    refine (along_cons (by rfl)).mpr ⟨fun _ _ c => ?_, ?_⟩
    · cases c <;> rfl
    · exact (along_cons (by rfl)).mpr ⟨trivial, trivial⟩
  refine ⟨_, rfl, rfl, ?_⟩
  exact (notifications_coherent 1 bufferSize _ bufferSize_start hreg).1 halone 4 _ rfl

/-- Both calls notify before either assigns, and the one that notified last assigns first. -/
theorem notifications_diverge :
    ∃ s, runAll Act.run [.setValue true 8192, .setValue false 1024, .assign false, .assign true]
      bufferSize = .done () s ∧ s.Quiet ∧ s.received 1 = [(4096, 8192), (4096, 1024)] ∧
      s.cache 1 4096 = 1024 ∧ s.val = 8192 ∧ ¬Coherent 1 bufferSize s := by
  refine ⟨_, rfl, ?_, rfl, rfl, rfl, ?_⟩
  · intro c
    cases c <;> rfl
  · intro h
    have hchain : List.IsChain (fun m n : UInt64 × UInt64 => n.1 = m.2)
        [(4096, 8192), (4096, 1024)] := h.chain
    rw [List.isChain_cons_cons] at hchain
    exact absurd hchain.1 (by decide)

end Sylar.Config
