import Sylar.Log.Model

/-! # The listener of the `logs` variable

`LogIniter` applies the difference between two values of `logs` to the loggers. The formatter of a
definition is applied only if it is there and in order; otherwise the logger keeps the formatter
that an earlier value gave it, even if it was out of the configuration in the meantime.
-/
namespace Sylar.Log
open Memory
open Http (bytes)

section Listener

-- `EnvMgr::has("d")`: a daemon does not write to the standard output.
variable (daemon : Bool)

/-- The appender of a definition, `none` being `continue`. Of an unknown type it is a null pointer,
which is used. -/
def makeAppender (a : LogAppenderDefine) : Command Empty Loggers (Option ℕ) :=
  if a.type = 1 then do
    let p ← newAppender (LogAppender.newFile a.file)
    pure (some p)
  else if a.type = 2 then
    if daemon then pure none
    else do
      let p ← newAppender LogAppender.newStdout
      pure (some p)
  else Command.abort .nullPointer

/-- An appender with the level and the formatter of its definition. -/
def LogAppender.configured (x : LogAppender) (a : LogAppenderDefine) : LogAppender :=
  let x := { x with level := a.level }
  if a.formatter = [] then x
  else if (LogFormatter.mk a.formatter).isError then x
  else x.setFormatter (some ⟨a.formatter⟩)

def attach (name : List UInt8) (a : LogAppenderDefine) : Command Empty Loggers Unit := do
  match ← makeAppender daemon a with
  | none => pure ()
  | some p => do
    let x ← appender p
    Command.modify (Loggers.putAppender p (x.configured a))
    Logger.addAppender name p

def configureFormatter (d : LogDefine) : Command Empty Loggers Unit :=
  if d.formatter = [] then pure () else Logger.setPattern d.name d.formatter

def configure (d : LogDefine) : Command Empty Loggers Unit := do
  getLogger d.name
  Logger.setLevel d.name d.level
  configureFormatter d
  Logger.clearAppenders d.name
  runAll (attach daemon d.name) d.appenders

/-- What the listener does for a definition of the new value. -/
def update (old : LogDefines) (d : LogDefine) : Command Empty Loggers Unit :=
  match old.find d with
  | none => configure daemon d
  | some e => if d = e then pure () else configure daemon d

/-- What the listener does for a definition of the old value. -/
def remove (new : LogDefines) (d : LogDefine) : Command Empty Loggers Unit :=
  match new.find d with
  | some _ => pure ()
  | none => do
    getLogger d.name
    Logger.setLevel d.name .unknow
    Logger.clearAppenders d.name

def listener (old new : LogDefines) : Command Empty Loggers Unit := do
  runAll (update daemon old) new.elems
  runAll (remove new) old.elems

/-- The variable `logs` and the loggers. -/
structure Logs where
  value : LogDefines
  loggers : Loggers

/-- `ConfigVar::setValue` of `logs`. -/
def setLogs (v : LogDefines) : Command Empty Logs Unit := do
  let s ← Command.state
  if v = s.value then pure ()
  else do
    Command.focus Logs.loggers (fun l s => { s with loggers := l }) (listener daemon s.value v)
    Command.modify fun s => { s with value := v }

end Listener

/-- What is seen of a logger: its level, its formatter and, of each of its appenders, the kind with the file,
the level and the formatter. -/
structure View where
  level : Level
  formatter : Option LogFormatter
  appenders : List (Kind × Level × Option LogFormatter)
deriving DecidableEq

def Loggers.view (s : Loggers) (name : List UInt8) : Option View :=
  (s.table.find name).map fun l =>
    ⟨l.level, l.formatter, (l.appenders.filterMap s.appenders.get).map fun a =>
      (a.kind, a.level, a.formatter)⟩

/-- The formatter that a definition applies. -/
def LogDefine.newFormatter (d : LogDefine) : Option LogFormatter :=
  if d.formatter = [] ∨ (LogFormatter.mk d.formatter).isError then none else some ⟨d.formatter⟩

/-- The formatter a logger has, or is made with. -/
def Loggers.formatterOf (s : Loggers) (name : List UInt8) : Option LogFormatter :=
  (s.table.find name).elim Logger.new.formatter Logger.formatter

section Applied

variable (daemon : Bool)

/-- The appender that a definition describes, before it is added to the logger. -/
def LogAppenderDefine.made (a : LogAppenderDefine) : Option LogAppender :=
  if a.type = 1 then some ((LogAppender.newFile a.file).configured a)
  else if a.type = 2 ∧ !daemon then some (LogAppender.newStdout.configured a)
  else none

/-- The appenders of a logger with a formatter after one more was attached. -/
def attached (f : Option LogFormatter) (as : List LogAppender) (a : LogAppenderDefine) :
    List LogAppender :=
  match a.made daemon with
  | none => as
  | some x => if as.any (·.same x) then as else as ++ [x.adopt f]

end Applied

namespace Loggers

/-- A shared pointer keeps its appender alive. -/
def Alive (s : Loggers) : Prop :=
  ∀ name l, s.table.find name = some l → ∀ p ∈ l.appenders, (s.appenders.get p).isSome

/-- The appenders at some addresses. -/
def Holds (s : Loggers) (ps : List ℕ) (as : List LogAppender) : Prop :=
  List.Forall₂ (fun p a => s.appenders.get p = some a) ps as

/-- What may change where only the logger `name` is worked on. -/
structure Frame (name : List UInt8) (s s' : Loggers) : Prop where
  others : ∀ n, n ≠ name → s'.table.find n = s.table.find n
  keeps : ∀ p x, s.appenders.get p = some x →
    (∀ l, s.table.find name = some l → p ∉ l.appenders) → s'.appenders.get p = some x
  stays : ∀ p, (s.appenders.get p).isSome → (s'.appenders.get p).isSome
  own : ∀ l', s'.table.find name = some l' → ∀ p ∈ l'.appenders, (s'.appenders.get p).isSome ∧
    ((∃ l, s.table.find name = some l ∧ p ∈ l.appenders) ∨ s.appenders.get p = none)

variable {s s' s'' : Loggers} {name n : List UInt8} {l : Logger} {p : ℕ} {a : LogAppender}

theorem find_putLogger : (s.putLogger name l).table.find n =
    if name = n then some l else s.table.find n := by
  rw [putLogger, OrderedMap.find_set]
  simp only [byteOrder_injective.eq_iff]

theorem get_putAppender (q : ℕ) : (s.putAppender p a).appenders.get q =
    if q = p then some a else s.appenders.get q := by
  rw [putAppender]
  split_ifs with hq
  · rw [hq, Heap.get_set_self]
  · rw [Heap.get_set_of_ne _ hq]

theorem Frame.refl (hs : s.Alive) : Frame name s s where
  others := fun _ _ => rfl
  keeps := fun _ _ hp _ => hp
  stays := fun _ hp => hp
  own := fun l hl p hp => ⟨hs name l hl p hp, .inl ⟨l, hl, hp⟩⟩

theorem Frame.trans (h : Frame name s s') (h' : Frame name s' s'') : Frame name s s'' where
  others := by
    intro n hn
    rw [h'.others n hn, h.others n hn]
  keeps := by
    intro p x hp hl
    apply h'.keeps p x (h.keeps p x hp hl)
    intro l' hl' hmem
    rcases (h.own l' hl' p hmem).2 with ⟨l, hfind, hin⟩ | hnone
    · exact hl l hfind hin
    · rw [hp] at hnone
      cases hnone
  stays := fun p hp => h'.stays p (h.stays p hp)
  own := by
    intro l'' hl'' p hp
    refine ⟨(h'.own l'' hl'' p hp).1, ?_⟩
    rcases (h'.own l'' hl'' p hp).2 with ⟨l', hl', hin⟩ | hnone
    · exact (h.own l' hl' p hin).2
    · right
      cases hget : s.appenders.get p with
      | none => rfl
      | some x =>
        have := h.stays p (by rw [hget]; rfl)
        rw [hnone] at this
        cases this

theorem Frame.alive (h : Frame name s s') (hs : s.Alive) : s'.Alive := by
  intro n l hl p hp
  by_cases hn : n = name
  · subst hn
    exact (h.own l hl p hp).1
  · rw [h.others n hn] at hl
    exact h.stays p (hs n l hl p hp)

/-- Another record for the logger, with no appender that it did not have. -/
theorem frame_putLogger (hs : s.Alive)
    (hl : ∀ p ∈ l.appenders, ∃ l₀, s.table.find name = some l₀ ∧ p ∈ l₀.appenders) :
    Frame name s (s.putLogger name l) where
  others := by
    intro n hn
    rw [find_putLogger, if_neg (Ne.symm hn)]
  keeps := fun p x hp _ => hp
  stays := fun p hp => hp
  own := by
    intro l' hl' p hp
    rw [find_putLogger, if_pos rfl] at hl'
    cases hl'
    rcases hl p hp with ⟨l₀, hfind, hin⟩
    exact ⟨hs name l₀ hfind p hin, .inl ⟨l₀, hfind, hin⟩⟩

/-- Another value for one of the logger's appenders. -/
theorem frame_putAppender (hs : s.Alive) (hl : s.table.find name = some l) (hp : p ∈ l.appenders) :
    Frame name s (s.putAppender p a) where
  others := fun n _ => rfl
  keeps := by
    intro q x hq hnot
    have hne : q ≠ p := by
      rintro rfl
      exact hnot l hl hp
    rwa [get_putAppender, if_neg hne]
  stays := by
    intro q hq
    rw [get_putAppender]
    split_ifs
    · rfl
    · exact hq
  own := by
    intro l' hl' q hq
    refine ⟨?_, .inl ⟨l', hl', hq⟩⟩
    rw [get_putAppender]
    split_ifs
    · rfl
    · exact hs name l' hl' q hq

end Loggers

section Commands

variable {s s' : Loggers} {name n : List UInt8} {l : Logger} {p : ℕ} {a : LogAppender}

theorem appender_inv (h : appender p s = .done a s') : s.appenders.get p = some a ∧ s' = s := by
  rw [appender, Command.state_bind_apply] at h
  cases hget : s.appenders.get p with
  | none => simp [hget] at h
  | some x =>
    rw [hget] at h
    cases h
    exact ⟨rfl, rfl⟩

theorem logger_inv (h : logger name s = .done l s') : s.table.find name = some l ∧ s' = s := by
  rw [logger, Command.state_bind_apply] at h
  cases hfind : s.table.find name with
  | none => simp [hfind] at h
  | some x =>
    rw [hfind] at h
    cases h
    exact ⟨rfl, rfl⟩

theorem appender_done (h : s.appenders.get p = some a) : appender p s = .done a s := by
  rw [appender, Command.state_bind_apply, h]
  rfl

theorem logger_done (h : s.table.find name = some l) : logger name s = .done l s := by
  rw [logger, Command.state_bind_apply, h]
  rfl

/-- After `getLogger` the logger is there, with the formatter it had or is made with. -/
theorem getLogger_spec (hs : s.Alive) (h : getLogger name s = .done () s') :
    s.Frame name s' ∧ ∃ l, s'.table.find name = some l ∧ l.formatter = s.formatterOf name := by
  rw [getLogger, Command.state_bind_apply] at h
  cases hfind : s.table.find name with
  | none =>
    rw [hfind] at h
    cases h
    refine ⟨Loggers.frame_putLogger hs (by simp [Logger.new]), Logger.new, ?_, ?_⟩
    · rw [Loggers.find_putLogger, if_pos rfl]
    · rw [Loggers.formatterOf, hfind]
      rfl
  | some l =>
    rw [hfind] at h
    cases h
    refine ⟨.refl hs, l, hfind, ?_⟩
    rw [Loggers.formatterOf, hfind]
    rfl

theorem setLevel_spec {level : Level} (hs : s.Alive) (hl : s.table.find name = some l)
    (h : Logger.setLevel name level s = .done () s') :
    s.Frame name s' ∧ s'.table.find name = some { l with level := level } := by
  rw [Logger.setLevel, Command.bind_done (logger_done hl)] at h
  cases h
  refine ⟨Loggers.frame_putLogger hs fun p hp => ⟨l, hl, hp⟩, ?_⟩
  rw [Loggers.find_putLogger, if_pos rfl]

theorem clearAppenders_spec (hs : s.Alive) (hl : s.table.find name = some l)
    (h : Logger.clearAppenders name s = .done () s') :
    s.Frame name s' ∧ s'.table.find name = some { l with appenders := [] } := by
  rw [Logger.clearAppenders, Command.bind_done (logger_done hl)] at h
  cases h
  refine ⟨Loggers.frame_putLogger hs (by simp), ?_⟩
  rw [Loggers.find_putLogger, if_pos rfl]

theorem inheritAll_spec {f : Option LogFormatter} {ps : List ℕ} (hs : s.Alive)
    (hl : s.table.find name = some l) (hps : ∀ p ∈ ps, p ∈ l.appenders)
    (h : Logger.inheritAll f ps s = .done () s') :
    s.Frame name s' ∧ s'.table.find name = some l := by
  induction ps generalizing s with
  | nil =>
    cases h
    exact ⟨.refl hs, hl⟩
  | cons p ps ih =>
    rw [List.forall_mem_cons] at hps
    rcases runAll_cons_done.mp h with ⟨s₁, hp, hrest⟩
    rcases Command.bind_eq_done.mp hp with ⟨a, s₂, ha, hput⟩
    rw [(appender_inv ha).2] at hput
    cases hput
    have hframe : s.Frame name (s.putAppender p (a.inherit f)) :=
      Loggers.frame_putAppender hs hl hps.1
    have hafter := ih (hframe.alive hs) hl hps.2 hrest
    exact ⟨hframe.trans hafter.1, hafter.2⟩

theorem setFormatter_spec {f : Option LogFormatter} (hs : s.Alive)
    (hl : s.table.find name = some l) (h : Logger.setFormatter name f s = .done () s') :
    s.Frame name s' ∧ s'.table.find name = some { l with formatter := f } := by
  rw [Logger.setFormatter, Command.bind_done (logger_done hl), Command.modify_bind_apply] at h
  have hframe : s.Frame name (s.putLogger name { l with formatter := f }) :=
    Loggers.frame_putLogger hs fun p hp => ⟨l, hl, hp⟩
  have hput : (s.putLogger name { l with formatter := f }).table.find name =
      some { l with formatter := f } := by
    rw [Loggers.find_putLogger, if_pos rfl]
  have hafter := inheritAll_spec (hframe.alive hs) hput (fun p hp => hp) h
  exact ⟨hframe.trans hafter.1, hafter.2⟩

/-- The formatter is replaced if the definition has one that is in order. -/
theorem configureFormatter_spec {d : LogDefine} (hs : s.Alive)
    (hl : s.table.find d.name = some l) (h : configureFormatter d s = .done () s') :
    s.Frame d.name s' ∧
      s'.table.find d.name = some { l with formatter := d.newFormatter.or l.formatter } := by
  rw [configureFormatter, Logger.setPattern] at h
  rw [LogDefine.newFormatter]
  by_cases hempty : d.formatter = []
  · rw [if_pos hempty] at h
    rw [if_pos (.inl hempty)]
    cases h
    exact ⟨.refl hs, hl⟩
  · rw [if_neg hempty] at h
    by_cases herror : (LogFormatter.mk d.formatter).isError
    · rw [if_pos herror] at h
      rw [if_pos (.inr herror)]
      cases h
      exact ⟨.refl hs, hl⟩
    · rw [if_neg herror] at h
      rw [if_neg (not_or.mpr ⟨hempty, herror⟩)]
      exact setFormatter_spec hs hl h

end Commands

section Attach

variable {daemon : Bool} {s s' : Loggers} {name n : List UInt8} {l : Logger}
  {as : List LogAppender} {a : LogAppenderDefine} {x : LogAppender}

theorem newAppender_apply :
    newAppender x s = .done s.appenders.brk { s with appenders := s.appenders.alloc x } := rfl

/-- Nothing is made, or an appender that is yet to get its level and formatter. -/
theorem makeAppender_inv {r : Option ℕ} (h : makeAppender daemon a s = .done r s') :
    (r = none ∧ a.made daemon = none ∧ s' = s) ∨
      ∃ x, a.made daemon = some (x.configured a) ∧ r = some s.appenders.brk ∧
        s' = { s with appenders := s.appenders.alloc x } := by
  rw [makeAppender] at h
  rw [LogAppenderDefine.made]
  split_ifs at h with hfile hstdout hdaemon
  · rw [Command.bind_done newAppender_apply] at h
    cases h
    exact .inr ⟨_, by rw [if_pos hfile], rfl, rfl⟩
  · cases h
    exact .inl ⟨rfl, by simp [hfile, hdaemon], rfl⟩
  · rw [Command.bind_done newAppender_apply] at h
    cases h
    exact .inr ⟨_, by simp [hstdout, hdaemon], rfl, rfl⟩
  · cases h

theorem holdsSame_spec {ps : List ℕ} (hps : s.Holds ps as) :
    Logger.holdsSame x ps s = .done (as.any (·.same x)) s := by
  induction hps with
  | nil => rfl
  | cons ha _ ih =>
    rw [Logger.holdsSame, Command.bind_done (appender_done ha), List.any_cons]
    split_ifs with hsame
    · rw [hsame]
      rfl
    · rw [ih, Bool.not_eq_true] at *
      rw [hsame]
      rfl

/-- What attaching does to the logger: it gets some addresses that were free. -/
structure Attaches (name : List UInt8) (l : Logger) (as : List LogAppender) (s s' : Loggers) :
    Prop where
  found : ∃ ps, s'.table.find name = some { l with appenders := l.appenders ++ ps } ∧
    s'.Holds (l.appenders ++ ps) as ∧ ∀ p ∈ ps, s.appenders.get p = none
  others : ∀ n, n ≠ name → s'.table.find n = s.table.find n
  keeps : ∀ p x, s.appenders.get p = some x → s'.appenders.get p = some x

theorem Loggers.Holds.mono {ps : List ℕ} (h : s.Holds ps as)
    (hkeeps : ∀ p ∈ ps, ∀ x, s.appenders.get p = some x → s'.appenders.get p = some x) :
    s'.Holds ps as := by
  induction h with
  | nil => exact .nil
  | cons ha _ ih =>
    rw [List.forall_mem_cons] at hkeeps
    exact .cons (hkeeps.1 _ ha) (ih hkeeps.2)

theorem Loggers.Holds.isSome {ps : List ℕ} {p : ℕ} (h : s.Holds ps as) (hp : p ∈ ps) :
    (s.appenders.get p).isSome := by
  induction h with
  | nil => cases hp
  | cons ha _ ih =>
    rcases List.mem_cons.mp hp with rfl | hp
    · rw [ha]
      rfl
    · exact ih hp

/-- Adding an appender that nobody holds yet. -/
theorem addAppender_spec {p : ℕ} (hl : s.table.find name = some l) (hp : s.appenders.get p = some x)
    (has : s.Holds l.appenders as) (h : Logger.addAppender name p s = .done () s') :
    if as.any (·.same x) then s' = s
    else s' = (s.putAppender p (x.adopt l.formatter)).putLogger name
      { l with appenders := l.appenders ++ [p] } := by
  rw [Logger.addAppender, Command.bind_done (logger_done hl), Command.bind_done (appender_done hp),
    Command.bind_done (holdsSame_spec has)] at h
  split_ifs with hsame
  · rw [if_pos hsame] at h
    cases h
    rfl
  · rw [if_neg hsame] at h
    cases h
    rfl

/-- An appender that was just made and configured is the only one that is new. -/
theorem Loggers.get_made {p : ℕ} {y z : LogAppender} (hp : s.appenders.get p = some z) :
    (Loggers.putAppender s.appenders.brk y
      { s with appenders := s.appenders.alloc x }).appenders.get p = some z := by
  rw [Loggers.putAppender, Heap.get_set_of_ne _ (Heap.lt_brk hp).ne]
  exact Heap.get_alloc_of_get x hp

theorem attach_spec (hl : s.table.find name = some l) (has : s.Holds l.appenders as)
    (h : attach daemon name a s = .done () s') :
    Attaches name l (attached daemon l.formatter as a) s s' := by
  rcases Command.bind_eq_done.mp h with ⟨r, s₁, hmake, hrest⟩
  rcases makeAppender_inv hmake with ⟨rfl, hmade, rfl⟩ | ⟨x, hmade, rfl, rfl⟩
  · cases hrest
    rw [attached, hmade]
    exact ⟨⟨[], by rw [List.append_nil]; exact hl, by rw [List.append_nil]; exact has, by simp⟩,
      fun _ _ => rfl, fun _ _ hp => hp⟩
  · rw [attached, hmade]
    have hget : (s.appenders.alloc x).get s.appenders.brk = some x := Heap.get_alloc_self _ _
    have hfree : s.appenders.get s.appenders.brk = none := s.appenders.fresh _ le_rfl
    dsimp only at hrest ⊢
    rw [Command.bind_done (appender_done hget), Command.modify_bind_apply] at hrest
    generalize hs₂ : Loggers.putAppender s.appenders.brk (x.configured a)
      { s with appenders := s.appenders.alloc x } = s₂ at hrest
    have hkeeps (p : ℕ) (z : LogAppender) (hp : s.appenders.get p = some z) :
        s₂.appenders.get p = some z := by
      rw [← hs₂]
      exact Loggers.get_made hp
    have htable : s₂.table = s.table := by rw [← hs₂]; rfl
    have hp : s₂.appenders.get s.appenders.brk = some (x.configured a) := by
      rw [← hs₂]
      exact Heap.get_set_self _ _ _
    have hadd := addAppender_spec (htable ▸ hl) hp (has.mono fun p _ => hkeeps p) hrest
    split_ifs at hadd ⊢ with hsame
    · rw [hadd]
      refine ⟨⟨[], ?_, ?_, by simp⟩, ?_, hkeeps⟩
      · rw [List.append_nil, htable]
        exact hl
      · rw [List.append_nil]
        exact has.mono fun p _ => hkeeps p
      · intro n _
        rw [htable]
    · have hkeeps' (p : ℕ) (z : LogAppender) (hp : s.appenders.get p = some z) :
          s'.appenders.get p = some z := by
        rw [hadd]
        exact (Heap.get_set_of_ne _ (Heap.lt_brk hp).ne _).trans (hkeeps p z hp)
      refine ⟨⟨[s.appenders.brk], ?_, ?_, ?_⟩, ?_, hkeeps'⟩
      · rw [hadd, Loggers.find_putLogger, if_pos rfl]
      · refine List.rel_append (has.mono fun p _ => hkeeps' p) (.cons ?_ .nil)
        rw [hadd]
        exact Heap.get_set_self _ _ _
      · intro p hp
        rw [List.mem_singleton.mp hp]
        exact hfree
      · intro n hn
        rw [hadd, Loggers.find_putLogger, if_neg (Ne.symm hn)]
        exact congrArg (OrderedMap.find · n) htable

theorem attachAll_spec {defs : List LogAppenderDefine} (hl : s.table.find name = some l)
    (has : s.Holds l.appenders as) (h : runAll (attach daemon name) defs s = .done () s') :
    Attaches name l (defs.foldl (attached daemon l.formatter) as) s s' := by
  induction defs generalizing s l as with
  | nil =>
    cases h
    exact ⟨⟨[], by rw [List.append_nil]; exact hl, by rw [List.append_nil]; exact has, by simp⟩,
      fun _ _ => rfl, fun _ _ hp => hp⟩
  | cons a defs ih =>
    rcases runAll_cons_done.mp h with ⟨s₁, ha, hrest⟩
    have hfirst := attach_spec hl has ha
    rcases hfirst.found with ⟨ps, hfind, hholds, hfree⟩
    have hlater := ih hfind hholds hrest
    rcases hlater.found with ⟨qs, hfind', hholds', hfree'⟩
    refine ⟨⟨ps ++ qs, ?_, ?_, ?_⟩, ?_, ?_⟩
    · rw [← List.append_assoc]
      exact hfind'
    · rw [← List.append_assoc]
      exact hholds'
    · intro p hp
      rcases List.mem_append.mp hp with hp | hp
      · exact hfree p hp
      · cases hget : s.appenders.get p with
        | none => rfl
        | some z =>
          have hnone := hfree' p hp
          rw [hfirst.keeps p z hget] at hnone
          cases hnone
    · intro n hn
      rw [hlater.others n hn, hfirst.others n hn]
    · intro p z hp
      exact hlater.keeps p z (hfirst.keeps p z hp)

theorem Attaches.frame (hl : s.table.find name = some l)
    (h : Attaches name l as s s') : s.Frame name s' where
  others := h.others
  keeps := fun p x hp _ => h.keeps p x hp
  stays := by
    intro p hp
    rcases Option.isSome_iff_exists.mp hp with ⟨x, hx⟩
    rw [h.keeps p x hx]
    rfl
  own := by
    intro l' hl' p hp
    rcases h.found with ⟨ps, hfind, hholds, hfree⟩
    rw [hfind, Option.some.injEq] at hl'
    rw [← hl'] at hp
    constructor
    · exact hholds.isSome hp
    · rcases List.mem_append.mp hp with hp | hp
      · exact .inl ⟨l, hl, hp⟩
      · exact .inr (hfree p hp)

end Attach

section Configure

variable {daemon : Bool} {s s' : Loggers} {d e : LogDefine} {n : List UInt8}

/-- The logger is as its definition says, and no other logger has its appenders. The formatter is
that of the definition, if it has one that is in order. -/
structure Applied (daemon : Bool) (s : Loggers) (d : LogDefine) (l : Logger) : Prop where
  found : s.table.find d.name = some l
  level : l.level = d.level
  formatter : d.newFormatter.or l.formatter = l.formatter
  appenders : s.Holds l.appenders (d.appenders.foldl (attached daemon l.formatter) [])
  alone : ∀ n l', n ≠ d.name → s.table.find n = some l' → l.appenders.Disjoint l'.appenders

/-- Work on one logger leaves the others as they are applied. -/
theorem Applied.frame {name : List UInt8} {l : Logger} (h : Applied daemon s d l)
    (hframe : s.Frame name s') (hne : d.name ≠ name) (hs : s.Alive) : Applied daemon s' d l where
  found := by
    rw [hframe.others _ hne]
    exact h.found
  level := h.level
  formatter := h.formatter
  appenders := by
    apply h.appenders.mono
    intro p hp x hx
    apply hframe.keeps p x hx
    intro l' hl' hp'
    exact h.alone name l' hne.symm hl' hp hp'
  alone := by
    intro n l' hn hl' p hp hp'
    by_cases hname : n = name
    · subst hname
      rcases (hframe.own l' hl' p hp').2 with ⟨l₀, hl₀, hin⟩ | hnone
      · exact h.alone n l₀ hn hl₀ hp hin
      · have hsome := hs d.name l h.found p hp
        rw [hnone] at hsome
        cases hsome
    · rw [hframe.others n hname] at hl'
      exact h.alone n l' hn hl' hp hp'

/-- After `configure` the logger is as the definition says. -/
theorem configure_spec (hs : s.Alive) (h : configure daemon d s = .done () s') :
    s.Frame d.name s' ∧ ∃ l, Applied daemon s' d l ∧
      l.formatter = d.newFormatter.or (s.formatterOf d.name) := by
  rcases Command.bind_eq_done.mp h with ⟨_, s₁, hget, h⟩
  rcases Command.bind_eq_done.mp h with ⟨_, s₂, hlevel, h⟩
  rcases Command.bind_eq_done.mp h with ⟨_, s₃, hformatter, h⟩
  rcases Command.bind_eq_done.mp h with ⟨_, s₄, hclear, hattach⟩
  rcases getLogger_spec hs hget with ⟨hframe₁, l, hl, hf⟩
  have hs₁ := hframe₁.alive hs
  rcases setLevel_spec hs₁ hl hlevel with ⟨hframe₂, hl₂⟩
  have hs₂ := hframe₂.alive hs₁
  rcases configureFormatter_spec hs₂ hl₂ hformatter with ⟨hframe₃, hl₃⟩
  have hs₃ := hframe₃.alive hs₂
  rcases clearAppenders_spec hs₃ hl₃ hclear with ⟨hframe₄, hl₄⟩
  have hs₄ := hframe₄.alive hs₃
  have hall := attachAll_spec hl₄ .nil hattach
  have hframe₅ := hall.frame hl₄
  refine ⟨hframe₁.trans (hframe₂.trans (hframe₃.trans (hframe₄.trans hframe₅))), ?_⟩
  rcases hall.found with ⟨ps, hfound, hholds, hfree⟩
  refine ⟨_, ⟨hfound, rfl, ?_, hholds, ?_⟩, ?_⟩
  · dsimp only
    cases d.newFormatter <;> rfl
  · intro n l' hn hl' p hp hp'
    rw [hall.others n hn] at hl'
    have hsome := hs₄ n l' hl' p hp'
    rw [hfree p hp] at hsome
    cases hsome
  · dsimp only
    rw [hf]

end Configure

end Sylar.Log
