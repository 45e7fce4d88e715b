import Sylar.Hook.FdManager

/-! # The two views of `O_NONBLOCK`

A hooked socket is non-blocking for the kernel, whatever the user asks for; what the user asked
for is kept in its context and shown by `F_GETFL`. `fcntl` and `ioctl` are the two calls by which
the user asks.
-/
namespace Sylar.Hook
open Memory

/-- `socket_f` and `accept_f`: the new descriptor and its file, or `-1`. -/
def install (r : Option (ℤ × File)) : Cmd ℤ :=
  match r with
  | none => pure (-1)
  | some (fd, file) => do
    Command.modify (Fds.putFile fd (some file))
    pure fd

/-- `socket`, where the kernel answers `r`. -/
def socket (hookEnable : Bool) (r : Option (ℤ × File)) : Cmd ℤ := do
  let fd ← install r
  if hookEnable = false ∨ fd = -1 then pure fd
  else do
    let _ ← get fd true
    pure fd

/-- `accept`, where `do_io` returns what the kernel answers in the end. -/
def accept (r : Option (ℤ × File)) : Cmd ℤ := do
  let fd ← install r
  if fd ≥ 0 then do
    let _ ← get fd true
    pure fd
  else pure fd

/-- `fcntl_f(fd, F_SETFL, arg)`, which the kernel may refuse. -/
def kernelSetfl (fd : ℤ) (arg : BitVec 32) (accepted : Bool) : Cmd (BitVec 32) := do
  let s ← Command.state
  match s.files fd with
  | none => pure (-1)
  | some f =>
    if accepted then do
      Command.modify (Fds.putFile fd (some (f.setfl arg)))
      pure 0
    else pure (-1)

/-- `fcntl_f(fd, F_GETFL)`. -/
def kernelGetfl (fd : ℤ) : Cmd (BitVec 32) := do
  let s ← Command.state
  match s.files fd with
  | none => pure (-1)
  | some f => pure f.flags

def File.setNonblock (v : Bool) (f : File) : File :=
  { f with flags := if v then f.flags ||| O_NONBLOCK else f.flags &&& ~~~O_NONBLOCK }

/-- `ioctl_f(fd, FIONBIO, &v)`. -/
def kernelFionbio (fd : ℤ) (v : BitVec 32) : Cmd (BitVec 32) := do
  let s ← Command.state
  match s.files fd with
  | none => pure (-1)
  | some f => do
    Command.modify (Fds.putFile fd (some (f.setNonblock (v ≠ 0))))
    pure 0

/-- The context through which a call goes: `none` if there is none, or the descriptor is closed or
no socket. -/
def hookedCtx (fd : ℤ) : Cmd (Option (ℕ × FdCtx)) := do
  let r ← get fd false
  match r with
  | none => pure none
  | some p => do
    let s ← Command.state
    match s.ctxs[p]? with
    | none => Command.abort .danglingPointer
    | some ctx => if ctx.isClosed ∨ ctx.isSocket = false then pure none else pure (some (p, ctx))

def fcntlSetfl (fd : ℤ) (arg : BitVec 32) (accepted : Bool) : Cmd (BitVec 32) := do
  let r ← hookedCtx fd
  match r with
  | none => kernelSetfl fd arg accepted
  | some (p, ctx) => do
    Command.modify (Fds.update p (FdCtx.setUserNonblock (arg &&& O_NONBLOCK ≠ 0)))
    kernelSetfl fd (if ctx.sysNonblock then arg ||| O_NONBLOCK else arg &&& ~~~O_NONBLOCK) accepted

def fcntlGetfl (fd : ℤ) : Cmd (BitVec 32) := do
  let arg ← kernelGetfl fd
  let r ← hookedCtx fd
  match r with
  | none => pure arg
  | some (_, ctx) =>
    pure (if ctx.userNonblock then arg ||| O_NONBLOCK else arg &&& ~~~O_NONBLOCK)

def ioctlFionbio (fd : ℤ) (v : BitVec 32) : Cmd (BitVec 32) := do
  let r ← hookedCtx fd
  match r with
  | none => kernelFionbio fd v
  | some (p, _) => do
    Command.modify (Fds.update p (FdCtx.setUserNonblock (v ≠ 0)))
    kernelFionbio fd v

/-- The calls of the user; `accepted` is whether the kernel takes the flags. -/
inductive FlagCall where
  | setfl (arg : BitVec 32) (accepted : Bool)
  | getfl
  | fionbio (v : BitVec 32)
deriving DecidableEq, Repr

def FlagCall.run (fd : ℤ) (c : FlagCall) : Cmd Unit := do
  let _ ← match c with
    | .setfl arg accepted => fcntlSetfl fd arg accepted
    | .getfl => fcntlGetfl fd
    | .fionbio v => ioctlFionbio fd v
  pure ()

/-- Whether the user wants the descriptor non-blocking after the call. -/
def FlagCall.request (wanted : Bool) : FlagCall → Bool
  | .setfl arg _ => arg &&& O_NONBLOCK ≠ 0
  | .getfl => wanted
  | .fionbio v => v ≠ 0

def requested (calls : List FlagCall) : Bool := calls.foldl FlagCall.request false

def FlagCall.set (f : File) : FlagCall → File
  | .setfl arg true => f.setfl arg
  | _ => f

/-- The flags as they were last set, as far as the kernel took them. -/
def lastSet (f : File) (calls : List FlagCall) : File := calls.foldl FlagCall.set f

/-- The kernel has the descriptor non-blocking, while the user is shown what they asked for. -/
def Views (fd : ℤ) (file : File) (calls : List FlagCall) (s : Fds) : Prop :=
  (∃ f, s.files fd = some f ∧ f.flags &&& O_NONBLOCK ≠ 0) ∧
    (∃ p ctx, s.slot fd = some p ∧ s.ctxs[p]? = some ctx ∧ ctx.sysNonblock = true) ∧
    fcntlGetfl fd s = .done ((lastSet file calls).setNonblock (requested calls)).flags s

section Bits

variable {x arg : BitVec 32} {f g : File} {v : Bool} {i : ℕ}

theorem getLsbD_nonblock : O_NONBLOCK.getLsbD i = decide (i = 11) := by
  by_cases hi : i < 32
  · revert i
    decide
  · rw [BitVec.getLsbD_of_ge _ _ (by omega)]
    simp
    omega

theorem and_nonblock_ne_zero : x &&& O_NONBLOCK ≠ 0 ↔ x.getLsbD 11 = true := by
  constructor
  · intro h
    by_contra hbit
    apply h
    apply BitVec.eq_of_getLsbD_eq
    intro i _
    change (x &&& O_NONBLOCK).getLsbD i = (0#32).getLsbD i
    rw [BitVec.getLsbD_and, getLsbD_nonblock, BitVec.getLsbD_zero]
    by_cases h11 : i = 11
    · rw [Bool.not_eq_true] at hbit
      rw [h11, hbit]
      rfl
    · simp [h11]
  · intro hbit h
    have hzero : (x &&& O_NONBLOCK).getLsbD 11 = false := by
      rw [h]
      rfl
    rw [BitVec.getLsbD_and, hbit] at hzero
    cases hzero

/-- `F_SETFL` overwrites the bits that can be set. -/
theorem getLsbD_setfl : (f.setfl arg).flags.getLsbD i =
    if settable.getLsbD i then arg.getLsbD i else f.flags.getLsbD i := by
  by_cases hi : i < 32
  · rw [File.setfl, BitVec.getLsbD_or, BitVec.getLsbD_and, BitVec.getLsbD_and, BitVec.getLsbD_not]
    cases settable.getLsbD i <;> simp [hi]
  · rw [BitVec.getLsbD_of_ge _ _ (by omega), BitVec.getLsbD_of_ge _ _ (by omega),
      BitVec.getLsbD_of_ge _ _ (by omega), BitVec.getLsbD_of_ge _ _ (by omega)]
    rfl

theorem getLsbD_setNonblock (hi : i < 32) : (f.setNonblock v).flags.getLsbD i =
    if i = 11 then v else f.flags.getLsbD i := by
  cases v with
  | false =>
    change (f.flags &&& ~~~O_NONBLOCK).getLsbD i = _
    rw [BitVec.getLsbD_and, BitVec.getLsbD_not, getLsbD_nonblock]
    by_cases h11 : i = 11 <;> simp [h11, hi]
  | true =>
    change (f.flags ||| O_NONBLOCK).getLsbD i = _
    rw [BitVec.getLsbD_or, getLsbD_nonblock]
    by_cases h11 : i = 11 <;> simp [h11]

/-- The flags agree, except perhaps in `O_NONBLOCK`. -/
def File.Agree (f g : File) : Prop := ∀ i, i ≠ 11 → f.flags.getLsbD i = g.flags.getLsbD i

theorem File.Agree.setfl (h : f.Agree g) {arg' : BitVec 32}
    (harg : ∀ i, i ≠ 11 → arg'.getLsbD i = arg.getLsbD i) : (f.setfl arg').Agree (g.setfl arg) := by
  intro i hi
  rw [getLsbD_setfl, getLsbD_setfl, harg i hi, h i hi]

theorem File.Agree.setNonblock (h : f.Agree g) : (f.setNonblock v).Agree g := by
  intro i hi
  by_cases hlt : i < 32
  · rw [getLsbD_setNonblock hlt, if_neg hi]
    exact h i hi
  · rw [BitVec.getLsbD_of_ge _ _ (by omega), BitVec.getLsbD_of_ge _ _ (by omega)]

/-- What the user is shown depends on the other flags and on what they asked for. -/
theorem File.Agree.shown (h : f.Agree g) : (f.setNonblock v).flags = (g.setNonblock v).flags := by
  apply BitVec.eq_of_getLsbD_eq
  intro i hi
  rw [getLsbD_setNonblock hi, getLsbD_setNonblock hi]
  by_cases h11 : i = 11
  · rw [if_pos h11, if_pos h11]
  · rw [if_neg h11, if_neg h11, h i h11]

theorem getLsbD_or_nonblock (h : i ≠ 11) : (arg ||| O_NONBLOCK).getLsbD i = arg.getLsbD i := by
  rw [BitVec.getLsbD_or, getLsbD_nonblock]
  simp [h]

theorem setfl_nonblock : (f.setfl (arg ||| O_NONBLOCK)).flags &&& O_NONBLOCK ≠ 0 := by
  rw [and_nonblock_ne_zero, getLsbD_setfl, if_pos (by decide), BitVec.getLsbD_or,
    getLsbD_nonblock]
  simp

theorem setNonblock_nonblock : (f.setNonblock v).flags &&& O_NONBLOCK ≠ 0 ↔ v = true := by
  rw [and_nonblock_ne_zero, getLsbD_setNonblock (by decide), if_pos rfl]

end Bits

/-- A descriptor with the context of an open socket: the user asked for `wanted`, and the flags of
`file` are the last that were set. -/
structure Hooked (fd : ℤ) (file : File) (wanted : Bool) (f : File) (s : Fds) : Prop where
  small : s.datas.length < 2147483648
  nonneg : 0 ≤ fd
  slot : ∃ p ctx, s.datas[fd.toNat]? = some (some p) ∧ s.ctxs[p]? = some ctx ∧
    ctx.isClosed = false ∧ ctx.isSocket = true ∧ ctx.sysNonblock = true ∧ ctx.userNonblock = wanted
  files : s.files fd = some f
  agree : f.Agree file

namespace Hooked

variable {fd : ℤ} {file f : File} {wanted : Bool} {s s' : Fds} {arg v : BitVec 32}
  {accepted : Bool} {c : FlagCall}

/-- The request of the user is recorded in the context. -/
theorem record (h : Hooked fd file wanted f s) {p : ℕ} {ctx : FdCtx} (wanted' : Bool)
    (hslot : s.datas[fd.toNat]? = some (some p)) (hctx : s.ctxs[p]? = some ctx)
    (hopen : ctx.isClosed = false) (hsock : ctx.isSocket = true) (hsys : ctx.sysNonblock = true) :
    Hooked fd file wanted' f (s.update p (FdCtx.setUserNonblock wanted')) where
  small := h.small
  nonneg := h.nonneg
  slot := by
    refine ⟨p, ctx.setUserNonblock wanted', hslot, ?_, hopen, hsock, hsys, rfl⟩
    change (s.ctxs.modify p _)[p]? = _
    rw [List.getElem?_modify_eq, hctx]
    rfl
  files := h.files
  agree := h.agree

theorem putFile (h : Hooked fd file wanted f s) {file' f' : File} (hagree : f'.Agree file') :
    Hooked fd file' wanted f' (s.putFile fd (some f')) where
  small := h.small
  nonneg := h.nonneg
  slot := h.slot
  files := Function.update_self _ _ _
  agree := hagree

/-- The lookup finds the context, and a request can be recorded there. -/
theorem hookedCtx (h : Hooked fd file wanted f s) :
    ∃ p ctx, Hook.hookedCtx fd s = .done (some (p, ctx)) s ∧ ctx.sysNonblock = true ∧
      ctx.userNonblock = wanted ∧
      ∀ wanted', Hooked fd file wanted' f (s.update p (FdCtx.setUserNonblock wanted')) := by
  rcases h.slot with ⟨p, ctx, hslot, hctx, hopen, hsock, hsys, huser⟩
  have hlen : fd.toNat < s.datas.length := (List.getElem?_eq_some_iff.mp hslot).1
  have hfd := h.nonneg
  have hlook : lookup fd false s = .done (some (some p)) s := by
    rw [lookup, Command.state_bind_apply, Command.ite_apply, Command.ite_apply,
      toInt_of_lt h.small, if_neg (by omega), if_neg (by omega), Command.bind_done (entry_done hfd hslot)]
    rfl
  have hget : get fd false s = .done (some p) s := Command.bind_done hlook _
  refine ⟨p, ctx, ?_, hsys, huser, fun wanted' => h.record wanted' hslot hctx hopen hsock hsys⟩
  rw [Hook.hookedCtx, Command.bind_done hget]
  simp [hctx, hopen, hsock]

theorem fcntlGetfl (h : Hooked fd file wanted f s) :
    Hook.fcntlGetfl fd s = .done (file.setNonblock wanted).flags s := by
  rcases h.hookedCtx with ⟨p, ctx, hfound, _, rfl, _⟩
  have hkernel : kernelGetfl fd s = .done f.flags s := by
    rw [kernelGetfl, Command.state_bind_apply, h.files]
    rfl
  rw [Hook.fcntlGetfl, Command.bind_done hkernel, Command.bind_done hfound, ← h.agree.shown]
  rfl

theorem fcntlSetfl (h : Hooked fd file wanted f s) (arg : BitVec 32) (accepted : Bool) :
    ∃ r s' f', Hook.fcntlSetfl fd arg accepted s = .done r s' ∧
      Hooked fd (FlagCall.set file (.setfl arg accepted)) (arg &&& O_NONBLOCK ≠ 0) f' s' ∧
      (f.flags &&& O_NONBLOCK ≠ 0 → f'.flags &&& O_NONBLOCK ≠ 0) := by
  rcases h.hookedCtx with ⟨p, ctx, hfound, hsys, _, hrecord⟩
  have hnew := hrecord (arg &&& O_NONBLOCK ≠ 0)
  rw [Hook.fcntlSetfl, Command.bind_done hfound]
  simp only [Command.modify_bind_apply, kernelSetfl, Command.state_bind_apply, hnew.files, hsys]
  cases accepted with
  | true =>
    refine ⟨0, _, f.setfl (arg ||| O_NONBLOCK), rfl, hnew.putFile ?_, fun _ => setfl_nonblock⟩
    exact h.agree.setfl fun i hi => getLsbD_or_nonblock hi
  | false => exact ⟨-1, _, f, rfl, hnew, id⟩

theorem ioctlFionbio (h : Hooked fd file wanted f s) (v : BitVec 32) :
    ∃ r s', Hook.ioctlFionbio fd v s = .done r s' ∧
      Hooked fd file (v ≠ 0) (f.setNonblock (v ≠ 0)) s' := by
  rcases h.hookedCtx with ⟨p, ctx, hfound, _, _, hrecord⟩
  have hnew := hrecord (v ≠ 0)
  rw [Hook.ioctlFionbio, Command.bind_done hfound]
  simp only [Command.modify_bind_apply, kernelFionbio, Command.state_bind_apply, hnew.files]
  exact ⟨0, _, rfl, hnew.putFile h.agree.setNonblock⟩

/-- Whatever the call, the user's view follows it; the kernel's follows `FIONBIO`. -/
theorem run (h : Hooked fd file wanted f s) (c : FlagCall) :
    ∃ s' f', c.run fd s = .done () s' ∧ Hooked fd (c.set file) (c.request wanted) f' s' ∧
      (∀ v, c = .fionbio v → (f'.flags &&& O_NONBLOCK ≠ 0 ↔ v ≠ 0)) ∧
      ((∀ v, c ≠ .fionbio v) → f.flags &&& O_NONBLOCK ≠ 0 → f'.flags &&& O_NONBLOCK ≠ 0) := by
  cases c with
  | setfl arg accepted =>
    rcases h.fcntlSetfl arg accepted with ⟨r, s', f', hrun, hnew, hkept⟩
    exact ⟨s', f', Command.bind_done hrun _, hnew, by simp, fun _ => hkept⟩
  | getfl => exact ⟨s, f, Command.bind_done h.fcntlGetfl _, h, by simp, fun _ => id⟩
  | fionbio v =>
    rcases h.ioctlFionbio v with ⟨r, s', hrun, hnew⟩
    refine ⟨s', _, Command.bind_done hrun _, hnew, ?_, fun hne => absurd rfl (hne v)⟩
    rintro v' ⟨⟩
    rw [setNonblock_nonblock, decide_eq_true_eq]

theorem runAll (h : Hooked fd file wanted f s) (calls : List FlagCall) :
    ∃ s' f', Memory.runAll (FlagCall.run fd) calls s = .done () s' ∧
      Hooked fd (calls.foldl FlagCall.set file) (calls.foldl FlagCall.request wanted) f' s' ∧
      ((∀ v, .fionbio v ∈ calls → v ≠ 0) →
        f.flags &&& O_NONBLOCK ≠ 0 → f'.flags &&& O_NONBLOCK ≠ 0) := by
  induction calls generalizing s f file wanted with
  | nil => exact ⟨s, f, rfl, h, fun _ => id⟩
  | cons c calls ih =>
    rcases h.run c with ⟨s₁, f₁, hrun, h₁, hfionbio, hother⟩
    rcases ih h₁ with ⟨s', f', hrest, h', hkept⟩
    refine ⟨s', f', runAll_cons_done.mpr ⟨s₁, hrun, hrest⟩, h', fun hcalls hf => ?_⟩
    apply hkept fun v hv => hcalls v (List.mem_cons_of_mem _ hv)
    by_cases hc : ∀ v, c ≠ .fionbio v
    · exact hother hc hf
    · rcases not_forall_not.mp hc with ⟨v, rfl⟩
      exact (hfionbio v rfl).mpr (hcalls v List.mem_cons_self)

end Hooked

section Opened

variable {fd : ℤ} {file : File} {s s' : Fds}

/-- A hooked `socket` or `accept` that returns the descriptor. -/
def Opened (fd : ℤ) (file : File) (s s' : Fds) : Prop :=
  socket true (some (fd, file)) s = .done fd s' ∨ accept (some (fd, file)) s = .done fd s'

theorem Opened.get (h : Opened fd file s s') (hfd : 0 ≤ fd) :
    ∃ p, get fd true (s.putFile fd (some file)) = .done p s' := by
  have hinstall : install (some (fd, file)) s = .done fd (s.putFile fd (some file)) := rfl
  have hget : ∃ p s₁, Hook.get fd true (s.putFile fd (some file)) = .done p s₁ ∧
      (pure fd : Cmd ℤ) s₁ = .done fd s' := by
    rcases h with h | h
    · rw [socket, Command.bind_done hinstall, Command.ite_apply, if_neg (by simp; omega)] at h
      exact Command.bind_eq_done.mp h
    · rw [accept, Command.bind_done hinstall, Command.ite_apply, if_pos hfd] at h
      exact Command.bind_eq_done.mp h
  rcases hget with ⟨p, s₁, hget, hret⟩
  cases hret
  exact ⟨p, hget⟩

theorem FdCtx.new_socket (fd : ℤ) (hsock : file.isSock = true) :
    ∃ f, (FdCtx.new fd (some file)).2 = some f ∧ f.Agree file ∧ f.flags &&& O_NONBLOCK ≠ 0 := by
  by_cases hflag : file.flags &&& O_NONBLOCK = 0
  · refine ⟨file.setfl (file.flags ||| O_NONBLOCK), by simp [FdCtx.new, hsock, hflag], ?_,
      setfl_nonblock⟩
    intro i hi
    rw [getLsbD_setfl, getLsbD_or_nonblock hi, ite_self]
  · refine ⟨file, ?_, fun _ _ => rfl, hflag⟩
    rw [FdCtx.new, Option.map_some, if_neg fun h => hflag h.2]

/-- A socket that has no context yet gets one, and is non-blocking for the kernel. -/
theorem Opened.hooked (h : Opened fd file s s') (hsock : file.isSock = true)
    (hvacant : s.slot fd = none) (hsmall : s.datas.length < 2147483648) (hfd : 0 ≤ fd)
    (hmax : fd ≤ maxFd) :
    ∃ f, Hooked fd file false f s' ∧ f.flags &&& O_NONBLOCK ≠ 0 := by
  rcases h.get hfd with ⟨p, hget⟩
  rcases Command.bind_eq_done.mp hget with ⟨r, s₁, hlook, hrest⟩
  rcases lookup_inv (s := s.putFile fd (some file)) hsmall hlook with ⟨rfl, ⟨rfl, hnone⟩ | ⟨rfl, _, _⟩⟩
  · have hneg := hnone hvacant
    omega
  rcases Command.bind_eq_done.mp hrest with ⟨q, s₂, hcreate, hret⟩
  cases hret
  rcases create_inv (s := s.putFile fd (some file)) hsmall hmax hcreate with
    ⟨rfl, hfiles, hctxs, hlen, hslot, _⟩
  rcases FdCtx.new_socket fd hsock with ⟨f, hnew, hagree, hflag⟩
  have hfile : (s.putFile fd (some file)).files fd = some file := Function.update_self _ _ _
  refine ⟨f, ⟨hlen, hfd, ?_, ?_, hagree⟩, hflag⟩
  · refine ⟨s.ctxs.length, (FdCtx.new fd (some file)).1, ?_, ?_, rfl, hsock, hsock, rfl⟩
    · rw [Fds.slot, if_neg (by omega), Option.join_eq_some_iff] at hslot
      exact hslot
    · rw [hctxs, Fds.alloc, hfile]
      exact List.getElem?_concat_length
  · rw [hfiles, Fds.alloc, hfile, hnew]
    exact Function.update_self _ _ _

end Opened

/-- A socket that was opened by a hooked call stays non-blocking for the kernel, and shows what the
user asked for, throughout a sequence of calls exactly if none of them is `ioctl(FIONBIO)` with a
zero. -/
theorem nonblock_views (fd : ℤ) (file : File) (s₀ s₁ : Fds) (calls : List FlagCall)
    (hsock : file.isSock = true) (hvacant : s₀.slot fd = none)
    (hsmall : s₀.datas.length < 2147483648) (hfd : 0 ≤ fd) (hmax : fd ≤ maxFd)
    (hopen : Opened fd file s₀ s₁) :
    (∀ n, ∃ s, runAll (FlagCall.run fd) (calls.take n) s₁ = .done () s ∧
      Views fd file (calls.take n) s) ↔ ∀ v, .fionbio v ∈ calls → v ≠ 0 := by
  rcases hopen.hooked hsock hvacant hsmall hfd hmax with ⟨f, hhooked, hflag⟩
  constructor
  · intro hviews v hv hzero
    rcases List.mem_iff_getElem.mp hv with ⟨n, hn, hcall⟩
    -- the state after the call with zero
    rcases hviews (n + 1) with ⟨s', hrun', ⟨f', hf', hset⟩, -⟩
    rcases hhooked.runAll (calls.take n) with ⟨s, g, hrun, hs, -⟩
    rcases hs.run (.fionbio v) with ⟨s₂, g', hlast, hs₂, hfionbio, -⟩
    have hend : runAll (FlagCall.run fd) (calls.take (n + 1)) s₁ = .done () s₂ := by
      rw [List.take_succ_eq_append_getElem hn, hcall]
      exact runAll_append_done.mpr ⟨s, hrun, runAll_cons_done.mpr ⟨s₂, hlast, rfl⟩⟩
    rw [hrun'] at hend
    cases hend
    rw [hs₂.files] at hf'
    cases hf'
    exact (hfionbio v rfl).mp hset hzero
  · intro hcalls n
    rcases hhooked.runAll (calls.take n) with ⟨s, g, hrun, hs, hkept⟩
    refine ⟨s, hrun, ⟨g, hs.files, ?_⟩, ?_, hs.fcntlGetfl⟩
    · exact hkept (fun v hv => hcalls v (List.mem_of_mem_take hv)) hflag
    · rcases hs.slot with ⟨p, ctx, hslot, hctx, _, _, hsys, _⟩
      exact ⟨p, ctx, slot_of_entry hfd hslot, hctx, hsys⟩

def noFiles : Fds := Fds.init fun _ => none

theorem socket_noFiles (file : File) : ∃ s₁, socket true (some (3, file)) noFiles = .done 3 s₁ := by
  have hsmall : (noFiles.putFile 3 (some file)).datas.length < 2147483648 := by
    change noFiles.datas.length < 2147483648
    decide
  have hinstall : install (some (3, file)) noFiles =
      .done 3 (noFiles.putFile 3 (some file)) := rfl
  rw [socket, Command.bind_done hinstall, Command.ite_apply, if_neg (by decide),
    Command.bind_done (get_vacant hsmall (by decide) rfl)]
  exact ⟨_, rfl⟩

theorem nonblock_views_socket :
    ∃ s₁, socket true (some (3, ⟨true, 2⟩)) noFiles = .done 3 s₁ ∧
      ∀ n, ∃ s, runAll (FlagCall.run 3) ([.fionbio 1, .setfl 0x402 true, .getfl].take n) s₁ =
        .done () s ∧ Views 3 ⟨true, 2⟩ ([.fionbio 1, .setfl 0x402 true, .getfl].take n) s := by
  rcases socket_noFiles ⟨true, 2⟩ with ⟨s₁, hopen⟩
  refine ⟨s₁, hopen, ?_⟩
  apply (nonblock_views 3 ⟨true, 2⟩ noFiles s₁ [.fionbio 1, .setfl 0x402 true, .getfl] rfl rfl
    (by decide) (by decide) (by decide) (.inl hopen)).mpr
  intro v hv
  simp only [List.mem_cons, FlagCall.fionbio.injEq, reduceCtorEq, List.not_mem_nil, or_false] at hv
  rw [hv]
  decide

/-- After `ioctl(FIONBIO)` with a zero the kernel has the socket blocking. -/
theorem fionbio_zero_blocks :
    ∃ s₁ s f, socket true (some (3, ⟨true, 2⟩)) noFiles = .done 3 s₁ ∧
      runAll (FlagCall.run 3) [.fionbio 0] s₁ = .done () s ∧ s.files 3 = some f ∧
      f.flags &&& O_NONBLOCK = 0 ∧ ¬Views 3 ⟨true, 2⟩ [.fionbio 0] s := by
  rcases socket_noFiles ⟨true, 2⟩ with ⟨s₁, hopen⟩
  rcases Opened.hooked (.inl hopen) rfl rfl (by decide) (by decide) (by decide) with ⟨f, h, -⟩
  rcases h.run (.fionbio 0) with ⟨s, f', hrun, h', hfionbio, -⟩
  have hclear : f'.flags &&& O_NONBLOCK = 0 := by
    by_contra hset
    exact (hfionbio 0 rfl).mp hset rfl
  refine ⟨s₁, s, f', hopen, runAll_cons_done.mpr ⟨s, hrun, rfl⟩, h'.files, hclear, ?_⟩
  rintro ⟨⟨g, hg, hset⟩, -⟩
  rw [h'.files] at hg
  cases hg
  exact hset hclear

end Sylar.Hook
