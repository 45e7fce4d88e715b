import Sylar.Memory.Run
import Mathlib.Data.Int.Notation
import Mathlib.Data.Nat.Notation
import Mathlib.Logic.Function.Basic

/-! # `FdManager`

`get` looks a context up under the read lock and creates it under the write lock, so that other
threads may run in between. The table holds pointers to contexts; whoever has been given one
reads and writes the same `FdCtx` as everybody else who has.
-/
namespace Sylar.Hook
open Memory

/-- An open file, as `fstat` and `fcntl` show it. -/
structure File where
  isSock : Bool
  flags : BitVec 32
deriving DecidableEq, Repr

def O_NONBLOCK : BitVec 32 := 0x800

/-- What `F_SETFL` changes: `O_APPEND`, `O_NONBLOCK`, `O_ASYNC`, `O_DIRECT` and `O_NOATIME`. -/
def settable : BitVec 32 := 0x46C00

/-- `fcntl_f(fd, F_SETFL, arg)`. -/
def File.setfl (f : File) (arg : BitVec 32) : File :=
  { f with flags := f.flags &&& ~~~settable ||| arg &&& settable }

structure FdCtx where
  isInit : Bool
  isSocket : Bool
  sysNonblock : Bool
  userNonblock : Bool
  isClosed : Bool
  fd : ℤ
  recvTimeout : UInt64
  sendTimeout : UInt64
deriving DecidableEq, Repr

/-- The constructor, with `init`, of a descriptor for which the kernel knows the given file. The
file of a socket is made non-blocking. -/
def FdCtx.new (fd : ℤ) (file : Option File) : FdCtx × Option File :=
  let ctx : FdCtx := ⟨file.isSome, file.any File.isSock, file.any File.isSock, false, false, fd,
    -1, -1⟩
  let file' := file.map fun f =>
    if f.isSock ∧ f.flags &&& O_NONBLOCK = 0 then f.setfl (f.flags ||| O_NONBLOCK) else f
  (ctx, file')

/-- `SO_RCVTIMEO`, or any other option name. -/
inductive TimeoutType where
  | recv
  | other
deriving DecidableEq, Repr

def FdCtx.setTimeout (type : TimeoutType) (v : UInt64) (ctx : FdCtx) : FdCtx :=
  match type with
  | .recv => { ctx with recvTimeout := v }
  | .other => { ctx with sendTimeout := v }

def FdCtx.setUserNonblock (v : Bool) (ctx : FdCtx) : FdCtx := { ctx with userNonblock := v }

/-- The open files of the process, the `FdCtx` objects by address, and `m_datas`. -/
structure Fds where
  files : ℤ → Option File
  ctxs : List FdCtx
  datas : List (Option ℕ)

abbrev Cmd := Command Empty Fds

/-- `(int)` of a `size_t`. -/
def toInt (n : ℕ) : ℤ := Int.bmod n 4294967296

namespace Fds

/-- `FdManager::FdManager`. -/
def init (files : ℤ → Option File) : Fds := ⟨files, [], List.replicate 64 none⟩

/-- `new FdCtx(fd)`; the address is the number of contexts before. -/
def alloc (fd : ℤ) (s : Fds) : Fds :=
  { s with
    files := Function.update s.files fd (FdCtx.new fd (s.files fd)).2
    ctxs := s.ctxs ++ [(FdCtx.new fd (s.files fd)).1] }

/-- `m_datas.resize(n)`. -/
def resize (n : ℕ) (s : Fds) : Fds :=
  { s with datas := s.datas.take n ++ List.replicate (n - s.datas.length) none }

def put (i : ℕ) (p : Option ℕ) (s : Fds) : Fds := { s with datas := s.datas.set i p }

def putFile (fd : ℤ) (f : Option File) (s : Fds) : Fds :=
  { s with files := Function.update s.files fd f }

def update (p : ℕ) (f : FdCtx → FdCtx) (s : Fds) : Fds := { s with ctxs := s.ctxs.modify p f }

def slot (s : Fds) (fd : ℤ) : Option ℕ := if fd < 0 then none else s.datas[fd.toNat]?.join

end Fds

/-- `m_datas[fd]`. -/
def entry (fd : ℤ) : Cmd (Option ℕ) := do
  let s ← Command.state
  if fd < 0 then Command.abort .outOfBounds
  else
    match s.datas[fd.toNat]? with
    | none => Command.abort .outOfBounds
    | some p => pure p

/-- `m_datas[fd] = p`. -/
def assign (fd : ℤ) (p : Option ℕ) : Cmd Unit := do
  let _ ← entry fd
  Command.modify (Fds.put fd.toNat p)

/-- `FdManager::get` up to the end of the read lock; `none` if the call goes on. -/
def lookup (fd : ℤ) (autoCreate : Bool) : Cmd (Option (Option ℕ)) := do
  let s ← Command.state
  if fd = -1 then pure (some none)
  else if toInt s.datas.length ≤ fd then
    if autoCreate = false then pure (some none) else pure none
  else do
    let p ← entry fd
    if p.isSome ∨ autoCreate = false then pure (some p) else pure none

/-- `m_datas.resize(fd * 1.5)` if the table is too short. -/
def makeRoom (fd : ℤ) : Cmd Unit := do
  let s ← Command.state
  if fd ≥ toInt s.datas.length then
    if fd < 0 then Command.abort .outOfBounds
    else Command.modify (Fds.resize (fd.toNat * 3 / 2))
  else pure ()

/-- The part of `get` under the write lock. -/
def create (fd : ℤ) : Cmd ℕ := do
  let s ← Command.state
  Command.modify (Fds.alloc fd)
  makeRoom fd
  assign fd (some s.ctxs.length)
  pure s.ctxs.length

def get (fd : ℤ) (autoCreate : Bool) : Cmd (Option ℕ) := do
  let r ← lookup fd autoCreate
  match r with
  | some p => pure p
  | none => do
    let p ← create fd
    pure (some p)

def del (fd : ℤ) : Cmd Unit := do
  let s ← Command.state
  if toInt s.datas.length ≤ fd then pure () else assign fd none

section Lemmas

variable {s s' : Fds} {fd g : ℤ} {p : Option ℕ} {i n : ℕ}

theorem slot_of_entry (hfd : 0 ≤ fd) (h : s.datas[fd.toNat]? = some p) : s.slot fd = p := by
  rw [Fds.slot, if_neg (by omega), h, Option.join_some]

theorem entry_inv (h : entry fd s = .done p s') :
    s' = s ∧ 0 ≤ fd ∧ fd.toNat < s.datas.length ∧ s.slot fd = p := by
  rw [entry, Command.state_bind_apply, Command.ite_apply] at h
  by_cases hfd : fd < 0
  · rw [if_pos hfd] at h
    cases h
  · rw [if_neg hfd] at h
    cases hget : s.datas[fd.toNat]? with
    | none =>
      rw [hget] at h
      cases h
    | some q =>
      rw [hget] at h
      cases h
      have hlt : fd.toNat < s.datas.length := (List.getElem?_eq_some_iff.mp hget).1
      exact ⟨rfl, by omega, hlt, slot_of_entry (by omega) hget⟩

theorem assign_inv (h : assign fd p s = .done () s') :
    s' = s.put fd.toNat p ∧ 0 ≤ fd ∧ fd.toNat < s.datas.length := by
  rcases Command.bind_eq_done.mp h with ⟨_, _, hentry, hput⟩
  rcases entry_inv hentry with ⟨rfl, hfd, hlt, _⟩
  cases hput
  exact ⟨rfl, hfd, hlt⟩

theorem slot_put_self (hfd : 0 ≤ fd) (hlt : fd.toNat < s.datas.length) :
    (s.put fd.toNat p).slot fd = p := by
  apply slot_of_entry hfd
  exact List.getElem?_set_self hlt

theorem slot_put_of_ne (hg : 0 ≤ g) (hne : fd ≠ g) : (s.put g.toNat p).slot fd = s.slot fd := by
  rw [Fds.slot, Fds.slot]
  by_cases hfd : fd < 0
  · rw [if_pos hfd, if_pos hfd]
  · rw [if_neg hfd, if_neg hfd, Fds.put, List.getElem?_set_ne (by omega)]

theorem toInt_of_lt (h : n < 2147483648) : toInt n = n := by
  have hlt : (n : ℤ) < 2147483648 := by omega
  have hnonneg : (0 : ℤ) ≤ n := by omega
  unfold toInt
  generalize (n : ℤ) = m at hlt hnonneg ⊢
  exact Int.bmod_eq_of_le (by omega) (by omega)

theorem slot_resize (h : s.datas.length ≤ n) : (s.resize n).slot fd = s.slot fd := by
  rw [Fds.slot, Fds.slot, Fds.resize, List.take_of_length_le h]
  by_cases hlen : fd.toNat < s.datas.length
  · rw [List.getElem?_append_left hlen]
  · rw [List.getElem?_append_right (Nat.le_of_not_lt hlen), List.getElem?_replicate,
      List.getElem?_eq_none (Nat.le_of_not_lt hlen)]
    by_cases hfit : fd.toNat - s.datas.length < n - s.datas.length
    · rw [if_pos hfit, Option.join_some, Option.join_none]
    · rw [if_neg hfit]

/-- The largest descriptor for which the size of the table fits an `int`. -/
def maxFd : ℤ := 1431655765

/-- The table only grows, since entry `0` and entry `1` do not fit the size made for them. -/
theorem makeRoom_inv (hsmall : s.datas.length < 2147483648) (hfd : fd ≤ maxFd)
    (h : makeRoom fd s = .done () s') (hlt : fd.toNat < s'.datas.length) :
    s'.files = s.files ∧ s'.ctxs = s.ctxs ∧ s'.datas.length < 2147483648 ∧
      ∀ g, s'.slot g = s.slot g := by
  rw [makeRoom, Command.state_bind_apply, Command.ite_apply, Command.ite_apply,
    toInt_of_lt hsmall] at h
  rw [maxFd] at hfd
  by_cases hlen : fd ≥ s.datas.length
  · rw [if_pos hlen, if_neg (by omega)] at h
    cases h
    have hsize : (s.resize (fd.toNat * 3 / 2)).datas.length = fd.toNat * 3 / 2 := by
      rw [Fds.resize, List.length_append, List.length_take, List.length_replicate]
      omega
    rw [hsize] at hlt ⊢
    exact ⟨rfl, rfl, by omega, fun g => slot_resize (by omega)⟩
  · rw [if_neg hlen] at h
    cases h
    exact ⟨rfl, rfl, hsmall, fun g => rfl⟩

theorem length_ctxs_alloc : (s.alloc fd).ctxs.length = s.ctxs.length + 1 := List.length_append

/-- The new context is the entry of its descriptor, and the only new entry. -/
theorem create_inv {q : ℕ} (hsmall : s.datas.length < 2147483648) (hfd : fd ≤ maxFd)
    (h : create fd s = .done q s') :
    q = s.ctxs.length ∧ s'.files = (s.alloc fd).files ∧ s'.ctxs = (s.alloc fd).ctxs ∧
      s'.datas.length < 2147483648 ∧ s'.slot fd = some q ∧
      ∀ g, g ≠ fd → s'.slot g = s.slot g := by
  rw [create, Command.state_bind_apply, Command.modify_bind_apply] at h
  rcases Command.bind_eq_done.mp h with ⟨_, s₁, hroom, h⟩
  rcases Command.bind_eq_done.mp h with ⟨_, s₂, hassign, hret⟩
  cases hret
  rcases assign_inv hassign with ⟨rfl, hnonneg, hlt⟩
  rcases makeRoom_inv (s := s.alloc fd) hsmall hfd hroom hlt with
    ⟨hfiles, hctxs, hsize, hslot⟩
  refine ⟨rfl, hfiles, hctxs, ?_, slot_put_self hnonneg hlt, fun g hg => ?_⟩
  · rw [Fds.put, List.length_set]
    exact hsize
  · rw [slot_put_of_ne hnonneg hg, hslot g]
    rfl

theorem del_inv (h : del fd s = .done () s') :
    s'.ctxs = s.ctxs ∧ s'.datas.length = s.datas.length ∧
      ∀ g, g ≠ fd → s'.slot g = s.slot g := by
  rw [del, Command.state_bind_apply, Command.ite_apply] at h
  by_cases hlen : toInt s.datas.length ≤ fd
  · rw [if_pos hlen] at h
    cases h
    exact ⟨rfl, rfl, fun _ _ => rfl⟩
  · rw [if_neg hlen] at h
    rcases assign_inv h with ⟨rfl, hfd, _⟩
    exact ⟨rfl, List.length_set, fun g hg => slot_put_of_ne hfd hg⟩

theorem lookup_false_inv {r : Option (Option ℕ)} (h : lookup fd false s = .done r s') :
    s' = s ∧ ∃ p, r = some p := by
  rw [lookup, Command.state_bind_apply, Command.ite_apply, Command.ite_apply,
    Command.ite_apply] at h
  by_cases hneg : fd = -1
  · rw [if_pos hneg] at h
    cases h
    exact ⟨rfl, none, rfl⟩
  rw [if_neg hneg] at h
  by_cases hlen : toInt s.datas.length ≤ fd
  · rw [if_pos hlen, if_pos rfl] at h
    cases h
    exact ⟨rfl, none, rfl⟩
  · rw [if_neg hlen] at h
    rcases Command.bind_eq_done.mp h with ⟨p, s₁, hentry, h⟩
    rw [Command.ite_apply, if_pos (.inr rfl)] at h
    cases h
    exact ⟨(entry_inv hentry).1, p, rfl⟩

/-- A call that is to create a context returns the entry, or goes on if there is none. -/
theorem lookup_inv {r : Option (Option ℕ)} (hsmall : s.datas.length < 2147483648)
    (h : lookup fd true s = .done r s') : s' = s ∧
      ((r = some (s.slot fd) ∧ (s.slot fd = none → fd = -1)) ∨
        (r = none ∧ fd ≠ -1 ∧ s.slot fd = none)) := by
  rw [lookup, Command.state_bind_apply, Command.ite_apply, Command.ite_apply, Command.ite_apply,
    toInt_of_lt hsmall] at h
  by_cases hneg : fd = -1
  · rw [if_pos hneg] at h
    cases h
    rw [hneg]
    exact ⟨rfl, .inl ⟨rfl, fun _ => rfl⟩⟩
  rw [if_neg hneg] at h
  by_cases hlen : s.datas.length ≤ fd
  · rw [if_pos hlen, if_neg (by simp)] at h
    cases h
    refine ⟨rfl, .inr ⟨rfl, hneg, ?_⟩⟩
    rw [Fds.slot, List.getElem?_eq_none (by omega)]
    split <;> rfl
  · rw [if_neg hlen] at h
    rcases Command.bind_eq_done.mp h with ⟨p, s₁, hentry, h⟩
    rcases entry_inv hentry with ⟨hs, _, _, hp⟩
    rw [Command.ite_apply, hs, ← hp] at h
    by_cases hsome : (s.slot fd).isSome
    · rw [if_pos (.inl hsome)] at h
      cases h
      refine ⟨rfl, .inl ⟨rfl, fun hnone => ?_⟩⟩
      rw [hnone] at hsome
      cases hsome
    · rw [if_neg (by simpa using hsome)] at h
      cases h
      exact ⟨rfl, .inr ⟨rfl, hneg, by simpa using hsome⟩⟩

theorem entry_done (hfd : 0 ≤ fd) (h : s.datas[fd.toNat]? = some p) : entry fd s = .done p s := by
  rw [entry, Command.state_bind_apply, Command.ite_apply, if_neg (by omega), h]
  rfl

/-- A descriptor within the table that has no context gets one. -/
theorem get_vacant (hsmall : s.datas.length < 2147483648) (hfd : 0 ≤ fd)
    (h : s.datas[fd.toNat]? = some none) :
    get fd true s =
      .done (some s.ctxs.length) ((s.alloc fd).put fd.toNat (some s.ctxs.length)) := by
  have hlt : fd.toNat < s.datas.length := (List.getElem?_eq_some_iff.mp h).1
  have hlook : lookup fd true s = .done none s := by
    rw [lookup, Command.state_bind_apply, Command.ite_apply, Command.ite_apply,
      toInt_of_lt hsmall, if_neg (by omega), if_neg (by omega),
      Command.bind_done (entry_done hfd h)]
    rfl
  have hroom : makeRoom fd (s.alloc fd) = .done () (s.alloc fd) := by
    have hfits : ¬fd ≥ toInt (s.alloc fd).datas.length := by
      change ¬fd ≥ toInt s.datas.length
      rw [toInt_of_lt hsmall]
      omega
    rw [makeRoom, Command.state_bind_apply, Command.ite_apply, if_neg hfits]
    rfl
  have hassign : assign fd (some s.ctxs.length) (s.alloc fd) =
      .done () ((s.alloc fd).put fd.toNat (some s.ctxs.length)) :=
    Command.bind_done (entry_done (s := s.alloc fd) hfd h) _
  have hcreate : create fd s =
      .done s.ctxs.length ((s.alloc fd).put fd.toNat (some s.ctxs.length)) := by
    rw [create, Command.state_bind_apply, Command.modify_bind_apply, Command.bind_done hroom,
      Command.bind_done hassign]
    rfl
  rw [get, Command.bind_done hlook]
  exact Command.bind_done hcreate _

end Lemmas

end Sylar.Hook
