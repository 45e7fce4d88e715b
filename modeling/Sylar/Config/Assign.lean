import Sylar.Memory.Run

/-! # Assignment to a `ConfigVar`

`setValue` calls the listeners with the old value and the new one and assigns after the last of
them has returned. A listener that throws ends it in between, and `fromString` reports a failure
of which the listeners before it and the listener itself have already heard.
-/
namespace Sylar.Config
open Memory

/-- Of a listener only whether it throws `std::exception` is known. -/
structure Listener (T : Type) where
  key : ℕ
  throws : T → T → Bool

/-- `told` is what the listeners were called with: who, the old and the new value. -/
structure ConfigVar (T : Type) where
  val : T
  cbs : List (Listener T)
  told : List (ℕ × T × T)

inductive Exception where
  | badCast
  | listener (key : ℕ)
  | invalidArgument (name : List UInt8)
deriving DecidableEq, Repr

variable {T : Type}

namespace ConfigVar

def tell (key : ℕ) (old new : T) (s : ConfigVar T) : ConfigVar T :=
  { s with told := s.told ++ [(key, old, new)] }

def notify (old new : T) : List (Listener T) → Command Exception (ConfigVar T) Unit
  | [] => pure ()
  | i :: cbs => do
    Command.modify (tell i.key old new)
    if i.throws old new then Command.raise (.listener i.key)
    else notify old new cbs

def setValue [BEq T] (v : T) : Command Exception (ConfigVar T) Unit := do
  let s ← Command.state
  if v == s.val then pure ()
  else do
    notify s.val v s.cbs
    Command.modify fun s => { s with val := v }

/-- `LexicalCast<std::string, T>`, which may throw. -/
def cast (fromStr : List UInt8 → Option T) (val : List UInt8) :
    Command Exception (ConfigVar T) T :=
  match fromStr val with
  | some v => pure v
  | none => Command.raise .badCast

def fromString [BEq T] (fromStr : List UInt8 → Option T) (val : List UInt8) :
    Command Exception (ConfigVar T) Bool := fun s =>
  match (cast fromStr val >>= setValue) s with
  | .done _ s' => .done true s'
  | .raised _ s' => .done false s'
  | .fault x => .fault x

/-- `fromString` returns, and either nothing has happened, or the value is the converted one and
every listener was called once with the old and the new value if these differ by `operator==`. -/
def AllOrNothing [BEq T] (fromStr : List UInt8 → Option T) (val : List UInt8) (s : ConfigVar T) :
    Prop :=
  ∃ b s', fromString fromStr val s = .done b s' ∧
    match b with
    | false => s'.val = s.val ∧ s'.told = s.told
    | true => ∃ v, fromStr val = some v ∧
        if v == s.val then s'.val = s.val ∧ s'.told = s.told
        else s'.val = v ∧ s'.told = s.told ++ s.cbs.map fun i => (i.key, s.val, v)

section Notify

variable {old new : T} {cbs : List (Listener T)} {s : ConfigVar T}

theorem notify_done (h : ∀ i ∈ cbs, i.throws old new = false) :
    notify old new cbs s =
      .done () { s with told := s.told ++ cbs.map fun i => (i.key, old, new) } := by
  induction cbs generalizing s with
  | nil => simp [notify]
  | cons i cbs ih =>
    rw [List.forall_mem_cons] at h
    rw [notify, Command.modify_bind_apply, h.1, if_neg Bool.false_ne_true, ih h.2]
    simp [tell]

/-- A listener that throws has been called before. -/
theorem notify_raised (h : ∃ i ∈ cbs, i.throws old new = true) :
    ∃ e s' m, notify old new cbs s = .raised e s' ∧ s'.told = s.told ++ m ∧ m ≠ [] := by
  induction cbs generalizing s with
  | nil =>
    rcases h with ⟨i, hi, -⟩
    cases hi
  | cons i cbs ih =>
    rw [notify, Command.modify_bind_apply]
    by_cases hi : i.throws old new = true
    · rw [if_pos hi]
      exact ⟨_, _, _, rfl, rfl, List.cons_ne_nil _ _⟩
    · rw [if_neg hi]
      have hrest : ∃ j ∈ cbs, j.throws old new = true := by
        simpa [hi] using h
      rcases ih (s := tell i.key old new s) hrest with ⟨e, s', m, hrun, htold, -⟩
      refine ⟨e, s', (i.key, old, new) :: m, hrun, ?_, List.cons_ne_nil _ _⟩
      rw [htold, tell, List.append_assoc]
      rfl

end Notify

section FromString

variable [BEq T] {fromStr : List UInt8 → Option T} {val : List UInt8} {s : ConfigVar T} {v : T}

theorem fromString_badCast (h : fromStr val = none) :
    fromString fromStr val s = .done false s := by
  have hraised : cast fromStr val s = .raised .badCast s := by
    rw [cast, h]
    rfl
  rw [fromString, Command.bind_raised hraised]

theorem fromString_cast (h : fromStr val = some v) :
    fromString fromStr val s =
      match setValue v s with
      | .done _ s' => .done true s'
      | .raised _ s' => .done false s'
      | .fault x => .fault x := by
  have hdone : cast fromStr val s = .done v s := by
    rw [cast, h]
    rfl
  rw [fromString, Command.bind_done hdone]

theorem setValue_same (h : (v == s.val) = true) : setValue v s = .done () s := by
  rw [setValue, Command.state_bind_apply, if_pos h]
  rfl

theorem setValue_new (h : (v == s.val) = false) :
    setValue v s = (notify s.val v s.cbs >>= fun _ =>
      Command.modify fun s => { s with val := v }) s := by
  rw [setValue, Command.state_bind_apply, h, if_neg Bool.false_ne_true]

/-- The variable after `fromString`. -/
def loaded (fromStr : List UInt8 → Option T) (s : ConfigVar T) (val : List UInt8) : ConfigVar T :=
  match fromString fromStr val s with
  | .done _ s' => s'
  | .raised _ s' => s'
  | .fault _ => s

theorem fromString_loaded (fromStr : List UInt8 → Option T) (s : ConfigVar T) (val : List UInt8) :
    ∃ b, fromString fromStr val s = .done b (loaded fromStr s val) := by
  have hdone : ∃ b s', fromString fromStr val s = .done b s' := by
    cases hcast : fromStr val with
    | none => exact ⟨_, _, fromString_badCast hcast⟩
    | some v =>
      rw [fromString_cast hcast]
      cases hsame : v == s.val with
      | true =>
        rw [setValue_same hsame]
        exact ⟨_, _, rfl⟩
      | false =>
        rw [setValue_new hsame]
        by_cases hthrows : ∀ i ∈ s.cbs, i.throws s.val v = false
        · rw [Command.bind_done (notify_done hthrows)]
          exact ⟨_, _, rfl⟩
        · have hex : ∃ i ∈ s.cbs, i.throws s.val v = true := by
            simpa using hthrows
          rcases notify_raised (s := s) hex with ⟨e, s', m, hnotify, -, -⟩
          rw [Command.bind_raised hnotify]
          exact ⟨_, _, rfl⟩
  rcases hdone with ⟨b, s', hrun⟩
  refine ⟨b, ?_⟩
  rw [loaded, hrun]

omit [BEq T] in
/-- No listener throws. -/
def Quiet (s : ConfigVar T) : Prop := ∀ i ∈ s.cbs, ∀ old new, i.throws old new = false

theorem loaded_of_none (h : fromStr val = none) : loaded fromStr s val = s := by
  rw [loaded, fromString_badCast h]

theorem loaded_of_some (hquiet : s.Quiet) (h : fromStr val = some v) :
    loaded fromStr s val =
      if v == s.val then s
      else { s with val := v, told := s.told ++ s.cbs.map fun i => (i.key, s.val, v) } := by
  rw [loaded, fromString_cast h]
  cases hsame : v == s.val with
  | true => rw [setValue_same hsame, if_pos rfl]
  | false =>
    rw [setValue_new hsame, Command.bind_done (notify_done fun i hi => hquiet i hi s.val v)]
    rfl

/-- It is all or nothing unless a listener throws. -/
theorem fromString_allOrNothing_iff (fromStr : List UInt8 → Option T) (val : List UInt8)
    (s : ConfigVar T) :
    AllOrNothing fromStr val s ↔
      ∀ v, fromStr val = some v → (v == s.val) = false → ∀ i ∈ s.cbs, i.throws s.val v = false := by
  cases hcast : fromStr val with
  | none =>
    refine iff_of_true ⟨false, s, fromString_badCast hcast, rfl, rfl⟩ nofun
  | some v =>
    have hrun := fromString_cast (s := s) hcast
    cases hsame : v == s.val with
    | true =>
      rw [setValue_same hsame] at hrun
      refine iff_of_true ⟨true, s, hrun, v, hcast, ?_⟩ ?_
      · rw [if_pos hsame]
        exact ⟨rfl, rfl⟩
      · intro w hw hne
        cases hw
        rw [hsame] at hne
        cases hne
    | false =>
      rw [setValue_new hsame] at hrun
      by_cases hthrows : ∀ i ∈ s.cbs, i.throws s.val v = false
      · rw [Command.bind_done (notify_done hthrows)] at hrun
        refine iff_of_true ⟨true, _, hrun, v, hcast, ?_⟩ ?_
        · rw [hsame, if_neg Bool.false_ne_true]
          exact ⟨rfl, rfl⟩
        · intro w hw _
          cases hw
          exact hthrows
      · have hex : ∃ i ∈ s.cbs, i.throws s.val v = true := by
          simpa using hthrows
        rcases notify_raised (s := s) hex with ⟨e, s', m, hnotify, htold, hm⟩
        rw [Command.bind_raised hnotify] at hrun
        refine iff_of_false ?_ fun h => hthrows (h v rfl hsame)
        rintro ⟨b, s₁, hrun₁, hall⟩
        rw [hrun, Outcome.done.injEq] at hrun₁
        rcases hrun₁ with ⟨rfl, rfl⟩
        rw [hall.2] at htold
        exact hm (by simpa using htold)

/-- The first listener hears of a value that is never assigned, because the second one throws. -/
theorem told_and_not_assigned :
    ∃ s', fromString (fun _ => some true) []
        ⟨false, [⟨1, fun _ _ => false⟩, ⟨2, fun _ _ => true⟩], []⟩ = .done false s' ∧
      s'.val = false ∧ s'.told = [(1, false, true), (2, false, true)] ∧
      ¬AllOrNothing (fun _ => some true) []
        ⟨false, [⟨1, fun _ _ => false⟩, ⟨2, fun _ _ => true⟩], []⟩ := by
  refine ⟨_, rfl, rfl, rfl, ?_⟩
  rintro ⟨b, s', hrun, hall⟩
  cases hrun
  exact absurd hall.2 (by decide)

end FromString

end ConfigVar

end Sylar.Config
