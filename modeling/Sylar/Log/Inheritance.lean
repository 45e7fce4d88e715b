import Sylar.Log.Destinations

/-! # The formatters of appenders

An appender without a formatter of its own uses that of its logger. This is done by copies: a logger
writes its formatter into such appenders when it changes, and into one that has none when it is
added. What is copied is not taken back when the appender is detached, and setting the formatter of
an attached one to null copies nothing; every other order of calls keeps the two together.
-/
namespace Sylar.Log
open Memory
open Http (bytes)

/-- The formatter that was set on the appender itself. -/
def LogAppender.own (a : LogAppender) : Option LogFormatter :=
  if a.hasFormatter then a.formatter else none

inductive Call where
  | create (kind : Kind) (name : List UInt8) (level : Level)
  | getLogger (name : List UInt8)
  | addAppender (name : List UInt8) (p : ℕ)
  | delAppender (name : List UInt8) (p : ℕ)
  | clearAppenders (name : List UInt8)
  | setPattern (name pattern : List UInt8)
  | setFormatter (name : List UInt8) (f : LogFormatter)
  | setOwn (p : ℕ) (f : Option LogFormatter)

namespace Call

def act : Call → Command Empty Loggers Unit
  | create kind name level => do
    let _ ← newAppender ⟨kind, name, level, false, none⟩
    pure ()
  | getLogger name => Log.getLogger name
  | addAppender name p => Logger.addAppender name p
  | delAppender name p => Logger.delAppender name p
  | clearAppenders name => Logger.clearAppenders name
  | setPattern name pattern => Logger.setPattern name pattern
  | setFormatter name f => Logger.setFormatter name (some f)
  | setOwn p f => do
    let a ← appender p
    Command.modify (Loggers.putAppender p (a.setFormatter f))

/-- What is set explicitly. -/
def sets : Call → ℕ → Option LogFormatter → Option LogFormatter
  | setOwn p f, q, g => if q = p then f else g
  | _, _, g => g

/-- The objects exist, and an appender is attached to one logger at a time. -/
def Allowed (s : Loggers) : Call → Prop
  | create _ _ _ => True
  | getLogger _ => True
  | addAppender name p => (s.table.find name).isSome ∧ (s.appenders.get p).isSome ∧
      ∀ n l, n ≠ name → s.table.find n = some l → p ∉ l.appenders
  | delAppender name _ => (s.table.find name).isSome
  | clearAppenders name => (s.table.find name).isSome
  | setPattern name _ => (s.table.find name).isSome
  | setFormatter name _ => (s.table.find name).isSome
  | setOwn p _ => (s.appenders.get p).isSome

/-- The formatter of an attached appender is not set to null, and an appender that is added has a
formatter of its own, none at all or that of the logger; one that is dropped may have any. -/
def Keeps (s : Loggers) : Call → Prop
  | setOwn p none => ∀ n l, s.table.find n = some l → p ∉ l.appenders
  | addAppender name p => ∀ l a, s.table.find name = some l → s.appenders.get p = some a →
      (∃ q ∈ l.appenders, ∃ b, s.appenders.get q = some b ∧ b.same a = true) ∨
        a.own.isSome ∨ a.formatter = none ∨ a.formatter = l.formatter
  | _ => True

end Call

/-- The loggers and appenders, with the formatter that was last set on each appender. -/
structure Traced where
  loggers : Loggers
  set : ℕ → Option LogFormatter

def Traced.init : Traced := ⟨Loggers.init, fun _ => none⟩

def Call.run (c : Call) : Command Empty Traced Unit := do
  Command.focus Traced.loggers (fun l s => { s with loggers := l }) c.act
  Command.modify fun s => { s with set := fun p => c.sets p (s.set p) }

/-- Every attached appender has a formatter: the one that was set on it, or else that of its
logger. -/
def Traced.Formatted (s : Traced) : Prop :=
  ∀ name l, s.loggers.table.find name = some l → ∀ p ∈ l.appenders,
    ∃ a f, s.loggers.appenders.get p = some a ∧ a.formatter = some f ∧
      (s.set p).or l.formatter = some f

namespace Loggers

/-- The appenders that loggers hold are alive and in no other logger, loggers have formatters, and
the flag of an appender is set only where there is a formatter. -/
structure Tidy (s : Loggers) : Prop where
  alive : s.Alive
  formatter : ∀ name l, s.table.find name = some l → l.formatter.isSome
  alone : ∀ n n' l l', n ≠ n' → s.table.find n = some l → s.table.find n' = some l' →
    l.appenders.Disjoint l'.appenders
  flag : ∀ p a, s.appenders.get p = some a → a.hasFormatter = true → a.formatter.isSome

/-- Every attached appender uses the right formatter. -/
def Fit (s : Loggers) : Prop :=
  ∀ name l, s.table.find name = some l → ∀ p ∈ l.appenders, ∀ a, s.appenders.get p = some a →
    a.formatter = a.own.or l.formatter

def ownAt (s : Loggers) (p : ℕ) : Option LogFormatter := (s.appenders.get p).bind LogAppender.own

variable {s s' : Loggers} {name : List UInt8} {l : Logger} {p : ℕ} {a : LogAppender}

theorem Tidy.putLogger (h : s.Tidy) (hf : l.formatter.isSome)
    (hl : ∀ p ∈ l.appenders, (s.appenders.get p).isSome ∧
      ∀ n l', n ≠ name → s.table.find n = some l' → p ∉ l'.appenders) :
    (s.putLogger name l).Tidy where
  alive := by
    intro n l' hl' p hp
    rw [find_putLogger] at hl'
    split_ifs at hl'
    · cases hl'
      exact (hl p hp).1
    · exact h.alive n l' hl' p hp
  formatter := by
    intro n l' hl'
    rw [find_putLogger] at hl'
    split_ifs at hl'
    · cases hl'
      exact hf
    · exact h.formatter n l' hl'
  alone := by
    intro n n' l₁ l₂ hne hl₁ hl₂ p hp₁ hp₂
    rw [find_putLogger] at hl₁ hl₂
    split_ifs at hl₁ hl₂ with hn hn'
    · exact hne (hn.symm.trans hn')
    · cases hl₁
      exact (hl p hp₁).2 n' l₂ (fun h => hn' h.symm) hl₂ hp₂
    · cases hl₂
      exact (hl p hp₂).2 n l₁ (fun h => hn h.symm) hl₁ hp₁
    · exact h.alone n n' l₁ l₂ hne hl₁ hl₂ hp₁ hp₂
  flag := h.flag

/-- A change of appenders only. -/
theorem Tidy.of_table_eq (h : s.Tidy) (htable : s'.table = s.table)
    (hsome : ∀ p, (s.appenders.get p).isSome → (s'.appenders.get p).isSome)
    (hflag : ∀ p a, s'.appenders.get p = some a → a.hasFormatter = true → a.formatter.isSome) :
    s'.Tidy where
  alive := by
    intro n l hl p hp
    rw [htable] at hl
    exact hsome p (h.alive n l hl p hp)
  formatter := by
    rw [htable]
    exact h.formatter
  alone := by
    rw [htable]
    exact h.alone
  flag := hflag

/-- A logger keeps the appenders it holds, or fewer. -/
theorem Tidy.putLogger_of_subset (h : s.Tidy) (hf : l.formatter.isSome)
    (hl : ∀ p ∈ l.appenders, ∃ l₀, s.table.find name = some l₀ ∧ p ∈ l₀.appenders) :
    (s.putLogger name l).Tidy := by
  apply h.putLogger hf
  intro p hp
  rcases hl p hp with ⟨l₀, hl₀, hp₀⟩
  exact ⟨h.alive name l₀ hl₀ p hp₀, fun n l' hn hl' => h.alone name n l₀ l' hn.symm hl₀ hl' hp₀⟩

theorem Fit.putLogger_iff (h : s.Fit) : (s.putLogger name l).Fit ↔
    ∀ p ∈ l.appenders, ∀ a, s.appenders.get p = some a → a.formatter = a.own.or l.formatter := by
  constructor
  · intro hfit
    exact hfit name l (by rw [find_putLogger, if_pos rfl])
  · intro hown n l' hl'
    rw [find_putLogger] at hl'
    split_ifs at hl'
    · cases hl'
      exact hown
    · exact h n l' hl'

/-- The value of an appender that no logger holds does not matter. -/
theorem Fit.putAppender (h : s.Fit) (hp : ∀ n l, s.table.find n = some l → p ∉ l.appenders) :
    (s.putAppender p a).Fit := by
  intro n l hl q hq b hb
  have hne : q ≠ p := by
    rintro rfl
    exact hp n l hl hq
  rw [get_putAppender, if_neg hne] at hb
  exact h n l hl q hq b hb

theorem Tidy.putAppender (h : s.Tidy) (ha : a.hasFormatter = true → a.formatter.isSome) :
    (s.putAppender p a).Tidy := by
  refine Tidy.of_table_eq h ?_ ?_ ?_
  · rfl
  · intro q hq
    rw [get_putAppender]
    split_ifs
    · rfl
    · exact hq
  · intro q b hb
    rw [get_putAppender] at hb
    split_ifs at hb
    · cases hb
      exact ha
    · exact h.flag q b hb

theorem ownAt_putAppender (q : ℕ) :
    (s.putAppender p a).ownAt q = if q = p then a.own else s.ownAt q := by
  rw [ownAt, get_putAppender]
  split_ifs <;> rfl

theorem exists_holds {ps : List ℕ} (h : ∀ p ∈ ps, (s.appenders.get p).isSome) :
    ∃ as, s.Holds ps as := by
  induction ps with
  | nil => exact ⟨[], .nil⟩
  | cons p ps ih =>
    rw [List.forall_mem_cons] at h
    rcases Option.isSome_iff_exists.mp h.1 with ⟨a, ha⟩
    rcases ih h.2 with ⟨as, has⟩
    exact ⟨a :: as, .cons ha has⟩

theorem Holds.mem_iff {ps : List ℕ} {as : List LogAppender} (h : s.Holds ps as) :
    a ∈ as ↔ ∃ p ∈ ps, s.appenders.get p = some a := by
  rw [← h.filterMap, List.mem_filterMap]

end Loggers

namespace LogAppender

variable {a : LogAppender} {f : Option LogFormatter}

theorem inherit_inherit : (a.inherit f).inherit f = a.inherit f := by
  simp only [inherit]
  split_ifs <;> simp_all

theorem own_inherit : (a.inherit f).own = a.own := by
  simp only [inherit, own]
  split_ifs <;> simp_all

theorem formatter_inherit (ha : a.hasFormatter = true → a.formatter.isSome) :
    (a.inherit f).formatter = a.own.or f := by
  rw [inherit, own]
  split_ifs with h
  · rw [Option.or_of_isSome (ha h)]
  · rfl

theorem flag_inherit (ha : a.hasFormatter = true → a.formatter.isSome) :
    (a.inherit f).hasFormatter = true → (a.inherit f).formatter.isSome := by
  rw [inherit]
  split_ifs with h
  · exact ha
  · exact fun h' => absurd h' h

theorem own_setFormatter : (a.setFormatter f).own = f := by
  cases f <;> rfl

theorem adopt_of_own (ha : a.hasFormatter = true → a.formatter.isSome) :
    (a.adopt f).own = a.own := by
  rw [adopt]
  split_ifs with h
  · have hflag : ¬a.hasFormatter = true := by
      intro hf
      have := ha hf
      rw [h] at this
      cases this
    rw [own, own, if_neg hflag, if_neg hflag]
  · rfl

theorem flag_adopt (ha : a.hasFormatter = true → a.formatter.isSome) :
    (a.adopt f).hasFormatter = true → (a.adopt f).formatter.isSome := by
  rw [adopt]
  split_ifs with h
  · intro hf
    have := ha hf
    rw [h] at this
    cases this
  · exact ha

/-- An adopted appender uses the right formatter if it has one of its own, had none or already had
the right one. -/
theorem formatter_adopt_iff (ha : a.hasFormatter = true → a.formatter.isSome) :
    (a.adopt f).formatter = (a.adopt f).own.or f ↔
      a.own.isSome ∨ a.formatter = none ∨ a.formatter = f := by
  rw [adopt_of_own ha, adopt]
  by_cases hown : a.hasFormatter = true
  · have hsome := ha hown
    have hne : a.formatter ≠ none := Option.isSome_iff_ne_none.mp hsome
    rw [if_neg hne, own, if_pos hown, Option.or_of_isSome hsome]
    exact iff_of_true rfl (.inl hsome)
  · rw [own, if_neg hown]
    split_ifs with hnone
    · exact iff_of_true rfl (.inr (.inl hnone))
    · simp [hnone]

theorem same_self (a : LogAppender) : a.same a = true := by
  rw [same]
  cases a.kind <;> simp

end LogAppender

/-- What a call does. -/
structure Call.Step (c : Call) (s s' : Loggers) : Prop where
  tidy : s'.Tidy
  fit : s.Fit → (s'.Fit ↔ c.Keeps s)
  own : ∀ p, s'.ownAt p = c.sets p (s.ownAt p)

section Steps

variable {s s' : Loggers} {name : List UInt8} {l : Logger} {p : ℕ} {a : LogAppender} {c : Call}

/-- A new logger, or one with fewer appenders. -/
theorem step_putLogger (h : s.Tidy) (hkeeps : c.Keeps s) (hsets : ∀ p g, c.sets p g = g)
    (hf : l.formatter.isSome)
    (hl : ∀ p ∈ l.appenders, ∃ l₀, s.table.find name = some l₀ ∧ p ∈ l₀.appenders ∧
      l₀.formatter = l.formatter) : c.Step s (s.putLogger name l) where
  tidy := by
    apply h.putLogger_of_subset hf
    intro p hp
    rcases hl p hp with ⟨l₀, hl₀, hp₀, -⟩
    exact ⟨l₀, hl₀, hp₀⟩
  fit := by
    intro hfit
    rw [hfit.putLogger_iff]
    refine iff_of_true ?_ hkeeps
    intro p hp a ha
    rcases hl p hp with ⟨l₀, hl₀, hp₀, hf₀⟩
    rw [← hf₀]
    exact hfit name l₀ hl₀ p hp₀ a ha
  own := fun p => (hsets p _).symm

/-- No logger holds an address that is free. -/
theorem brk_notMem (h : s.Alive) (hl : s.table.find name = some l) :
    s.appenders.brk ∉ l.appenders := by
  intro hp
  have hfree : s.appenders.get s.appenders.brk = none := s.appenders.fresh _ (Nat.le_refl _)
  have hsome := h name l hl _ hp
  rw [hfree] at hsome
  cases hsome

theorem step_create {kind : Kind} {level : Level} (h : s.Tidy) :
    (Call.create kind name level).Step s
      (s.putAppender s.appenders.brk ⟨kind, name, level, false, none⟩) where
  tidy := h.putAppender nofun
  fit := fun hfit => iff_of_true (hfit.putAppender fun n l hl => brk_notMem h.alive hl) trivial
  own := by
    intro p
    have hfree : s.appenders.get s.appenders.brk = none := s.appenders.fresh _ (Nat.le_refl _)
    rw [Loggers.ownAt_putAppender]
    split_ifs with hp
    · rw [hp, Loggers.ownAt, hfree]
      rfl
    · rfl

theorem step_setOwn {f : Option LogFormatter} (h : s.Tidy) :
    (Call.setOwn p f).Step s (s.putAppender p (a.setFormatter f)) where
  tidy := h.putAppender id
  fit := by
    intro hfit
    cases f with
    | some f =>
      refine iff_of_true ?_ trivial
      intro n l hl q hq b hb
      rw [Loggers.get_putAppender] at hb
      split_ifs at hb
      · cases hb
        rfl
      · exact hfit n l hl q hq b hb
    | none =>
      constructor
      · intro hfit' n l hl hp
        have hself := Loggers.get_putAppender (s := s) (p := p) (a := a.setFormatter none) p
        rw [if_pos rfl] at hself
        have hnone : none = l.formatter := hfit' n l hl p hp _ hself
        have hsome := h.formatter n l hl
        rw [← hnone] at hsome
        cases hsome
      · exact hfit.putAppender
  own := by
    intro q
    rw [Loggers.ownAt_putAppender, LogAppender.own_setFormatter, Call.sets]

theorem inheritAll_values {f : Option LogFormatter} {ps : List ℕ}
    (hps : ∀ p ∈ ps, (s.appenders.get p).isSome) :
    ∃ s', Logger.inheritAll f ps s = .done () s' ∧ s'.table = s.table ∧
      ∀ p, s'.appenders.get p =
        if p ∈ ps then (s.appenders.get p).map (·.inherit f) else s.appenders.get p := by
  induction ps generalizing s with
  | nil => exact ⟨s, rfl, rfl, fun p => by simp⟩
  | cons q ps ih =>
    rw [List.forall_mem_cons] at hps
    rcases Option.isSome_iff_exists.mp hps.1 with ⟨a, ha⟩
    have hsome (p : ℕ) (hp : p ∈ ps) :
        ((s.putAppender q (a.inherit f)).appenders.get p).isSome := by
      rw [Loggers.get_putAppender]
      split_ifs
      · rfl
      · exact hps.2 p hp
    rcases ih hsome with ⟨s', hrun, htable, hvalues⟩
    refine ⟨s', ?_, htable, fun p => ?_⟩
    · refine runAll_cons_done.mpr ⟨_, ?_, hrun⟩
      rw [Command.bind_done (appender_done ha)]
      rfl
    · rw [hvalues p, Loggers.get_putAppender]
      by_cases hp : p = q
      · subst hp
        simp [ha, LogAppender.inherit_inherit]
      · simp [hp]

theorem step_setFormatter {f : LogFormatter} (h : s.Tidy) (hl : s.table.find name = some l)
    (hkeeps : c.Keeps s) (hsets : ∀ p g, c.sets p g = g) :
    ∃ s', Logger.setFormatter name (some f) s = .done () s' ∧ c.Step s s' := by
  have hput : (s.putLogger name { l with formatter := some f }).Tidy :=
    h.putLogger_of_subset rfl fun p hp => ⟨l, hl, hp⟩
  rcases inheritAll_values (f := some f) (s := s.putLogger name { l with formatter := some f })
    (h.alive name l hl) with ⟨s', hrun, htable, hvalues⟩
  have hget (p : ℕ) : s'.appenders.get p =
      if p ∈ l.appenders then (s.appenders.get p).map (·.inherit (some f))
      else s.appenders.get p := hvalues p
  refine ⟨s', ?_, ?_, ?_, ?_⟩
  · rw [Logger.setFormatter, Command.bind_done (logger_done hl), Command.modify_bind_apply]
    exact hrun
  · refine hput.of_table_eq htable ?_ ?_
    · intro p hp
      rw [hget]
      split_ifs
      · rw [Option.isSome_map]
        exact hp
      · exact hp
    · intro p a ha
      rw [hget] at ha
      split_ifs at ha
      · rcases Option.map_eq_some_iff.mp ha with ⟨b, hb, rfl⟩
        exact LogAppender.flag_inherit (h.flag p b hb)
      · exact h.flag p a ha
  · intro hfit
    refine iff_of_true ?_ hkeeps
    intro n l' hl' p hp a ha
    rw [htable, Loggers.find_putLogger] at hl'
    rw [hget] at ha
    split_ifs at hl' with hn
    · cases hl'
      rw [if_pos hp] at ha
      rcases Option.map_eq_some_iff.mp ha with ⟨b, hb, rfl⟩
      rw [LogAppender.own_inherit, LogAppender.formatter_inherit (h.flag p b hb)]
    · have hp' : p ∉ l.appenders := fun hmem => h.alone name n l l' hn hl hl' hmem hp
      rw [if_neg hp'] at ha
      exact hfit n l' hl' p hp a ha
  · intro p
    rw [hsets, Loggers.ownAt, hget, Loggers.ownAt]
    split_ifs
    · cases s.appenders.get p with
      | none => rfl
      | some a => exact LogAppender.own_inherit
    · rfl

theorem step_addAppender (h : s.Tidy) (hc : (Call.addAppender name p).Allowed s) :
    ∃ s', Logger.addAppender name p s = .done () s' ∧ (Call.addAppender name p).Step s s' := by
  rcases hc with ⟨hname, hp, hothers⟩
  rcases Option.isSome_iff_exists.mp hname with ⟨l, hl⟩
  rcases Option.isSome_iff_exists.mp hp with ⟨a, ha⟩
  rcases Loggers.exists_holds (h.alive name l hl) with ⟨as, has⟩
  rcases returns_addAppender hl hp has with ⟨_, s', hrun⟩
  refine ⟨s', hrun, ?_⟩
  have hspec := addAppender_spec hl ha has hrun
  have hflag := h.flag p a ha
  have hsame : as.any (·.same a) = true ↔
      ∃ q ∈ l.appenders, ∃ b, s.appenders.get q = some b ∧ b.same a = true := by
    rw [List.any_eq_true]
    constructor
    · rintro ⟨b, hb, hba⟩
      rcases has.mem_iff.mp hb with ⟨q, hq, hget⟩
      exact ⟨q, hq, b, hget, hba⟩
    · rintro ⟨q, hq, b, hget, hba⟩
      exact ⟨b, has.mem_iff.mpr ⟨q, hq, hget⟩, hba⟩
  split_ifs at hspec with hany
  · rw [hspec]
    refine ⟨h, fun hfit => iff_of_true hfit ?_, fun q => rfl⟩
    intro l' a' hl' ha'
    cases hl.symm.trans hl'
    cases ha.symm.trans ha'
    exact .inl (hsame.mp hany)
  · have hfree : ∀ n l, s.table.find n = some l → p ∉ l.appenders := by
      intro n l' hl' hmem
      by_cases hn : n = name
      · subst hn
        cases hl.symm.trans hl'
        exact hany (hsame.mpr ⟨p, hmem, a, ha, a.same_self⟩)
      · exact hothers n l' hn hl' hmem
    have hput : (s.putAppender p (a.adopt l.formatter)).Tidy :=
      h.putAppender (LogAppender.flag_adopt hflag)
    have hself : (s.putAppender p (a.adopt l.formatter)).appenders.get p =
        some (a.adopt l.formatter) := by
      rw [Loggers.get_putAppender, if_pos rfl]
    rw [hspec]
    refine ⟨?_, fun hfit => ?_, fun q => ?_⟩
    · refine hput.putLogger (h.formatter name l hl) ?_
      rw [List.forall_mem_append, List.forall_mem_singleton]
      constructor
      · intro q hq
        exact ⟨hput.alive name l hl q hq,
          fun n l' hn hl' => hput.alone name n l l' hn.symm hl hl' hq⟩
      · exact ⟨by rw [hself]; rfl, fun n l' _ hl' => hfree n l' hl'⟩
    · have hfit' : (s.putAppender p (a.adopt l.formatter)).Fit := hfit.putAppender hfree
      rw [hfit'.putLogger_iff, List.forall_mem_append, List.forall_mem_singleton]
      constructor
      · rintro ⟨-, hadopted⟩ l' a' hl' ha'
        cases hl.symm.trans hl'
        cases ha.symm.trans ha'
        exact .inr ((LogAppender.formatter_adopt_iff hflag).mp (hadopted _ hself))
      · intro hkeeps
        refine ⟨hfit' name l hl, fun b hb => ?_⟩
        cases hself.symm.trans hb
        rcases hkeeps l a hl ha with hin | hgood
        · exact absurd (hsame.mpr hin) hany
        · exact (LogAppender.formatter_adopt_iff hflag).mpr hgood
    · change (s.putAppender p (a.adopt l.formatter)).ownAt q = s.ownAt q
      rw [Loggers.ownAt_putAppender, LogAppender.adopt_of_own hflag]
      split_ifs with hq
      · rw [hq, Loggers.ownAt, ha]
        rfl
      · rfl

/-- Every call returns where it is allowed. -/
theorem Call.step (h : s.Tidy) (hc : c.Allowed s) : ∃ s', c.act s = .done () s' ∧ c.Step s s' := by
  cases c with
  | create kind name level => exact ⟨_, rfl, step_create h⟩
  | getLogger name =>
    rw [Call.act, Log.getLogger, Command.state_bind_apply]
    cases hfind : s.table.find name with
    | some l => exact ⟨s, rfl, h, fun hfit => iff_of_true hfit trivial, fun _ => rfl⟩
    | none => exact ⟨_, rfl, step_putLogger h trivial (fun _ _ => rfl) rfl (List.forall_mem_nil _)⟩
  | addAppender name p => exact step_addAppender h hc
  | delAppender name p =>
    rcases Option.isSome_iff_exists.mp hc with ⟨l, hl⟩
    refine ⟨_, Command.bind_done (logger_done hl) _, ?_⟩
    refine step_putLogger h trivial (fun _ _ => rfl) (h.formatter name l hl) ?_
    exact fun q hq => ⟨l, hl, List.mem_of_mem_erase hq, rfl⟩
  | clearAppenders name =>
    rcases Option.isSome_iff_exists.mp hc with ⟨l, hl⟩
    refine ⟨_, Command.bind_done (logger_done hl) _, ?_⟩
    exact step_putLogger h trivial (fun _ _ => rfl) (h.formatter name l hl) (List.forall_mem_nil _)
  | setPattern name pattern =>
    rcases Option.isSome_iff_exists.mp hc with ⟨l, hl⟩
    rw [Call.act, Logger.setPattern]
    split_ifs
    · exact ⟨s, rfl, h, fun hfit => iff_of_true hfit trivial, fun _ => rfl⟩
    · exact step_setFormatter h hl trivial fun _ _ => rfl
  | setFormatter name f =>
    rcases Option.isSome_iff_exists.mp hc with ⟨l, hl⟩
    exact step_setFormatter h hl trivial fun _ _ => rfl
  | setOwn p f =>
    rcases Option.isSome_iff_exists.mp hc with ⟨a, ha⟩
    exact ⟨_, Command.bind_done (appender_done ha) _, step_setOwn h⟩

end Steps

section Runs

variable {s : Traced} {c : Call}

/-- The recorded formatters are those that the appenders have as their own. -/
structure Traced.Kept (s : Traced) : Prop where
  tidy : s.loggers.Tidy
  set : ∀ p, s.set p = s.loggers.ownAt p

theorem Traced.Kept.fit_iff (h : s.Kept) : s.Formatted ↔ s.loggers.Fit := by
  constructor
  · intro hformatted name l hl p hp a ha
    rcases hformatted name l hl p hp with ⟨b, f, hb, hf, hset⟩
    cases ha.symm.trans hb
    rw [h.set, Loggers.ownAt, ha] at hset
    rw [hf]
    exact hset.symm
  · intro hfit name l hl p hp
    rcases Option.isSome_iff_exists.mp (h.tidy.alive name l hl p hp) with ⟨a, ha⟩
    rcases Option.isSome_iff_exists.mp (h.tidy.formatter name l hl) with ⟨g, hg⟩
    have hset : (s.set p).or l.formatter = a.formatter := by
      rw [h.set, Loggers.ownAt, ha]
      exact (hfit name l hl p hp a ha).symm
    have hsome : a.formatter.isSome := by
      rw [← hset, hg, Option.isSome_or, Option.isSome_some, Bool.or_true]
    rcases Option.isSome_iff_exists.mp hsome with ⟨f, hf⟩
    exact ⟨a, f, ha, hf, hset.trans hf⟩

theorem Call.run_step (h : s.Kept) (hc : c.Allowed s.loggers) :
    ∃ s', c.run s = .done () s' ∧ s'.Kept ∧
      (s.Formatted → (s'.Formatted ↔ c.Keeps s.loggers)) := by
  rcases c.step h.tidy hc with ⟨l, hact, hstep⟩
  have hkept : Traced.Kept ⟨l, fun p => c.sets p (s.set p)⟩ := by
    refine ⟨hstep.tidy, fun p => ?_⟩
    rw [hstep.own p, ← h.set p]
  refine ⟨_, Command.bind_done (Command.focus_done hact) _, hkept, fun hformatted => ?_⟩
  rw [hkept.fit_iff]
  exact hstep.fit (h.fit_iff.mp hformatted)

theorem get_init (p : ℕ) : Loggers.init.appenders.get p =
    if p = 0 then some (LogAppender.newStdout.adopt Logger.new.formatter) else none :=
  Loggers.get_putAppender (s := ⟨OrderedMap.empty, Heap.empty⟩) p

theorem init_kept : Traced.init.Kept where
  tidy :=
    { alive := init_alive
      formatter := by
        intro name l hl
        rw [Traced.init, find_init] at hl
        split_ifs at hl
        cases hl
        rfl
      alone := by
        intro n n' l l' hne hl hl'
        rw [Traced.init, find_init] at hl hl'
        split_ifs at hl hl' with hn hn'
        exact absurd (hn.symm.trans hn') hne
      flag := by
        intro p a ha
        rw [Traced.init, get_init] at ha
        split_ifs at ha
        cases ha
        nofun }
  set := by
    intro p
    rw [Traced.init, Loggers.ownAt, get_init]
    split_ifs <;> rfl

theorem init_formatted : Traced.init.Formatted := by
  rw [init_kept.fit_iff]
  intro name l hl p hp a ha
  rw [Traced.init, find_init] at hl
  rw [Traced.init, get_init] at ha
  split_ifs at hl ha
  cases hl
  cases ha
  rfl

/-- In every run every attached appender has its formatter after every call, if and only if every
call keeps to the condition. -/
theorem formatted_iff (calls : List Call)
    (h : Along (fun s c => c.Allowed s.loggers) Call.run calls Traced.init) :
    Along (fun s c => ∃ s', c.run s = .done () s' ∧ s'.Formatted) Call.run calls Traced.init ↔
      Along (fun s c => c.Keeps s.loggers) Call.run calls Traced.init :=
  Along.kept_iff (fun _ _ hs hc => Call.run_step hs hc) init_kept init_formatted h

/-- The appender of the root logger gets a formatter of its own, and then the logger another one. -/
theorem formatted_iff_root :
    Along (fun s c => ∃ s', c.run s = .done () s' ∧ s'.Formatted) Call.run
      [.setOwn 0 (some ⟨bytes "%m%n"⟩), .setFormatter (bytes "root") ⟨bytes "%p%n"⟩]
      Traced.init := by
  apply (formatted_iff _ _).mpr
  · exact ⟨trivial, trivial, trivial⟩
  · exact ⟨rfl, rfl, trivial⟩

/-- The appender of the root logger is left without a formatter. -/
theorem formatter_reset : ∃ s', (Call.setOwn 0 none).run Traced.init = .done () s' ∧
    ¬s'.Formatted := by
  refine ⟨_, rfl, fun h => ?_⟩
  rcases h (bytes "root") _ rfl 0 List.mem_cons_self with ⟨a, f, ha, hf, -⟩
  cases ha
  cases hf

end Runs

end Sylar.Log
