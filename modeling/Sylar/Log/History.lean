import Sylar.Log.Initer

/-! # Histories of the `logs` variable

After any sequence of assignments every logger of the last value has the level and the appenders
of its definition. Its formatter is the last one that any value of the history had for it.
-/
namespace Sylar.Log
open Memory
open Http (bytes)

/-- The formatter that a value applies to a logger. -/
def LogDefines.newFormatter (v : LogDefines) (name : List UInt8) : Option LogFormatter :=
  (v.elems.find? fun d => d.name = name).bind LogDefine.newFormatter

/-- The last formatter that the values of a history have for a logger, or else the one that it had
before. -/
def lastFormatter (s : Loggers) (name : List UInt8) (h : List LogDefines) : Option LogFormatter :=
  (h.filterMap fun v => LogDefines.newFormatter v name).getLast?.or (s.formatterOf name)

section Loops

variable {daemon : Bool} {s s' : Loggers} {old new : LogDefines} {d e : LogDefine} {l : Logger}
  {ds : List LogDefine}

theorem Applied.formatterOf (h : Applied daemon s d l) : s.formatterOf d.name = l.formatter := by
  rw [Loggers.formatterOf, h.found]
  rfl

theorem Loggers.Frame.formatterOf {name n : List UInt8} (h : s.Frame name s') (hn : n ≠ name) :
    s'.formatterOf n = s.formatterOf n := by
  rw [Loggers.formatterOf, Loggers.formatterOf, h.others n hn]

theorem update_spec (hs : s.Alive)
    (hold : ∀ e ∈ old.elems, e.name = d.name → ∃ l, Applied daemon s e l)
    (h : update daemon old d s = .done () s') :
    s.Frame d.name s' ∧ ∃ l, Applied daemon s' d l ∧
      l.formatter = d.newFormatter.or (s.formatterOf d.name) := by
  rw [update] at h
  cases hfind : old.find d with
  | none =>
    rw [hfind] at h
    exact configure_spec hs h
  | some e =>
    rw [hfind] at h
    dsimp only at h
    split_ifs at h with hsame
    · -- an equal definition has been applied before
      cases h
      rcases OrderedSet.find_eq_some_iff.mp hfind with ⟨he, -⟩
      rw [← hsame] at he
      rcases hold d he rfl with ⟨l, hl⟩
      refine ⟨.refl hs, l, hl, ?_⟩
      rw [hl.formatterOf, hl.formatter]
    · exact configure_spec hs h

/-- What a loop over some definitions does to the loggers. -/
structure Updates (daemon : Bool) (ds : List LogDefine) (s s' : Loggers) : Prop where
  alive : s'.Alive
  applied : ∀ d ∈ ds, ∃ l, Applied daemon s' d l ∧
    l.formatter = d.newFormatter.or (s.formatterOf d.name)
  others : ∀ n, (∀ d ∈ ds, n ≠ d.name) → s'.formatterOf n = s.formatterOf n
  keeps : ∀ e l, (∀ d ∈ ds, e.name ≠ d.name) → Applied daemon s e l → Applied daemon s' e l

theorem updateAll_spec (hs : s.Alive) (hnames : ds.Pairwise fun x y => x.name ≠ y.name)
    (hold : ∀ e ∈ old.elems, ∀ d ∈ ds, e.name = d.name → ∃ l, Applied daemon s e l)
    (h : runAll (update daemon old) ds s = .done () s') : Updates daemon ds s s' := by
  induction ds generalizing s with
  | nil =>
    cases h
    exact ⟨hs, by simp, fun _ _ => rfl, fun _ _ _ happlied => happlied⟩
  | cons d ds ih =>
    rw [List.pairwise_cons] at hnames
    rcases runAll_cons_done.mp h with ⟨s₁, hfirst, hrest⟩
    have hd := update_spec hs (fun e he => hold e he d List.mem_cons_self) hfirst
    rcases hd with ⟨hframe, l, hl, hformatter⟩
    have hlater : Updates daemon ds s₁ s' := by
      apply ih (hframe.alive hs) hnames.2 _ hrest
      intro e he x hx hname
      rcases hold e he x (List.mem_cons_of_mem _ hx) hname with ⟨l', hl'⟩
      refine ⟨l', hl'.frame hframe ?_ hs⟩
      rw [hname]
      exact (hnames.1 x hx).symm
    refine ⟨hlater.alive, ?_, ?_, ?_⟩
    · intro x hx
      rcases List.mem_cons.mp hx with rfl | hx
      · exact ⟨l, hlater.keeps x l hnames.1 hl, hformatter⟩
      · rcases hlater.applied x hx with ⟨l', hl', hformatter'⟩
        rw [hframe.formatterOf (hnames.1 x hx).symm] at hformatter'
        exact ⟨l', hl', hformatter'⟩
    · intro n hn
      rw [List.forall_mem_cons] at hn
      rw [hlater.others n hn.2, hframe.formatterOf hn.1]
    · intro e l' he happlied
      rw [List.forall_mem_cons] at he
      exact hlater.keeps e l' he.2 (happlied.frame hframe he.1 hs)

theorem remove_spec (hs : s.Alive) (h : remove new d s = .done () s') :
    s' = s ∨ (∀ e ∈ new.elems, e.name ≠ d.name) ∧ s.Frame d.name s' ∧
      s'.formatterOf d.name = s.formatterOf d.name := by
  rw [remove] at h
  cases hfind : new.find d with
  | some e =>
    rw [hfind] at h
    cases h
    exact .inl rfl
  | none =>
    rw [hfind] at h
    rcases Command.bind_eq_done.mp h with ⟨_, s₁, hget, h⟩
    rcases Command.bind_eq_done.mp h with ⟨_, s₂, hlevel, hclear⟩
    rcases getLogger_spec hs hget with ⟨hframe₁, l, hl, hf⟩
    have hs₁ := hframe₁.alive hs
    rcases setLevel_spec hs₁ hl hlevel with ⟨hframe₂, hl₂⟩
    have hs₂ := hframe₂.alive hs₁
    rcases clearAppenders_spec hs₂ hl₂ hclear with ⟨hframe₃, hl₃⟩
    refine .inr ⟨?_, hframe₁.trans (hframe₂.trans hframe₃), ?_⟩
    · intro e he hname
      exact OrderedSet.find_eq_none_iff.mp hfind e he (congrArg byteOrder hname)
    · rw [← hf, Loggers.formatterOf, hl₃]
      rfl

/-- What removing the loggers that are not in the new value does. -/
structure Removes (daemon : Bool) (new : LogDefines) (s s' : Loggers) : Prop where
  alive : s'.Alive
  formatters : ∀ n, s'.formatterOf n = s.formatterOf n
  keeps : ∀ d ∈ new.elems, ∀ l, Applied daemon s d l → Applied daemon s' d l

theorem removeAll_spec (hs : s.Alive) (h : runAll (remove new) ds s = .done () s') :
    Removes daemon new s s' := by
  induction ds generalizing s with
  | nil =>
    cases h
    exact ⟨hs, fun _ => rfl, fun _ _ _ happlied => happlied⟩
  | cons e ds ih =>
    rcases runAll_cons_done.mp h with ⟨s₁, hfirst, hrest⟩
    rcases remove_spec hs hfirst with hsame | ⟨hnew, hframe, hformatter⟩
    · rw [hsame] at hrest
      exact ih hs hrest
    · have hlater := ih (hframe.alive hs) hrest
      refine ⟨hlater.alive, ?_, ?_⟩
      · intro n
        rw [hlater.formatters n]
        by_cases hn : n = e.name
        · rw [hn, hformatter]
        · exact hframe.formatterOf hn
      · intro d hd l hl
        exact hlater.keeps d hd l (hl.frame hframe (hnew d hd) hs)

end Loops

section Runs

variable {daemon : Bool} {s₀ : Loggers} {s s' : Logs} {v : LogDefines} {h : List LogDefines}
  {name : List UInt8} {d : LogDefine} {l : Logger}

theorem lastFormatter_concat : lastFormatter s₀ name (h ++ [v]) =
    (LogDefines.newFormatter v name).or (lastFormatter s₀ name h) := by
  rw [lastFormatter, lastFormatter, List.filterMap_append]
  cases hv : LogDefines.newFormatter v name with
  | none => simp [hv]
  | some f => simp [hv]

theorem names_ne (v : LogDefines) : v.elems.Pairwise fun x y => x.name ≠ y.name :=
  v.sorted.imp fun hlt heq => ne_of_lt hlt (congrArg byteOrder heq)

theorem newFormatter_of_mem (hd : d ∈ v.elems) :
    LogDefines.newFormatter v d.name = d.newFormatter := by
  have hfind : (v.elems.find? fun e => e.name = d.name) = some d := by
    have := OrderedSet.find_self hd
    simpa only [OrderedSet.find, byteOrder_injective.eq_iff] using this
  rw [LogDefines.newFormatter, hfind]
  rfl

theorem newFormatter_of_forall_ne (hname : ∀ d ∈ v.elems, name ≠ d.name) :
    LogDefines.newFormatter v name = none := by
  have hfind : (v.elems.find? fun e => e.name = name) = none := by
    rw [List.find?_eq_none]
    intro d hd
    rw [decide_eq_true_eq]
    exact (hname d hd).symm
  rw [LogDefines.newFormatter, hfind]
  rfl

/-- What holds after a history: the definitions of the present value are applied, and every logger
has the last formatter that the history has for it. -/
structure Inv (daemon : Bool) (s₀ : Loggers) (h : List LogDefines) (s : Logs) : Prop where
  alive : s.loggers.Alive
  applied : ∀ d ∈ s.value.elems, ∃ l, Applied daemon s.loggers d l
  formatters : ∀ name, s.loggers.formatterOf name = lastFormatter s₀ name h

/-- A value that was applied has nothing new for any logger. -/
theorem Inv.newFormatter_or (hs : Inv daemon s₀ h s) :
    (LogDefines.newFormatter s.value name).or (s.loggers.formatterOf name) =
      s.loggers.formatterOf name := by
  by_cases hname : ∀ d ∈ s.value.elems, name ≠ d.name
  · rw [newFormatter_of_forall_ne hname]
    rfl
  · push Not at hname
    rcases hname with ⟨d, hd, rfl⟩
    rcases hs.applied d hd with ⟨l, hl⟩
    rw [newFormatter_of_mem hd, hl.formatterOf, hl.formatter]

theorem setLogs_inv (hs : Inv daemon s₀ h s) (hrun : setLogs daemon v s = .done () s') :
    Inv daemon s₀ (h ++ [v]) s' ∧ s'.value = v := by
  rw [setLogs, Command.state_bind_apply] at hrun
  split_ifs at hrun with hsame
  · cases hrun
    refine ⟨⟨hs.alive, hs.applied, ?_⟩, hsame.symm⟩
    intro name
    rw [lastFormatter_concat, ← hs.formatters name, hsame]
    exact hs.newFormatter_or.symm
  · rcases Command.bind_eq_done.mp hrun with ⟨_, t, hlistener, hput⟩
    rcases Command.focus_eq_done.mp hlistener with ⟨ls, hlistener, ht⟩
    rw [← ht] at hput
    cases hput
    rcases Command.bind_eq_done.mp hlistener with ⟨_, ls₁, hupdate, hremove⟩
    have hupdates : Updates daemon v.elems s.loggers ls₁ :=
      updateAll_spec hs.alive (names_ne v) (fun e he _ _ _ => hs.applied e he) hupdate
    have hremoves : Removes daemon v ls₁ ls := removeAll_spec hupdates.alive hremove
    refine ⟨⟨hremoves.alive, ?_, ?_⟩, rfl⟩
    · intro d hd
      rcases hupdates.applied d hd with ⟨l, hl, -⟩
      exact ⟨l, hremoves.keeps d hd l hl⟩
    · intro name
      rw [lastFormatter_concat, ← hs.formatters name, hremoves.formatters name]
      by_cases hname : ∀ d ∈ v.elems, name ≠ d.name
      · rw [newFormatter_of_forall_ne hname, hupdates.others name hname]
        rfl
      · push Not at hname
        rcases hname with ⟨d, hd, rfl⟩
        rcases hupdates.applied d hd with ⟨l, hl, hformatter⟩
        rw [newFormatter_of_mem hd, hl.formatterOf, hformatter]

theorem history_inv (hs : Inv daemon s₀ h s) {vs : List LogDefines}
    (hrun : runAll (setLogs daemon) vs s = .done () s') : Inv daemon s₀ (h ++ vs) s' := by
  induction vs generalizing s h with
  | nil =>
    cases hrun
    rw [List.append_nil]
    exact hs
  | cons v vs ih =>
    rcases runAll_cons_done.mp hrun with ⟨s₁, hv, hrest⟩
    have hafter := ih (setLogs_inv hs hv).1 hrest
    rwa [List.append_assoc] at hafter

theorem Loggers.Holds.filterMap {s : Loggers} {ps : List ℕ} {as : List LogAppender}
    (hps : s.Holds ps as) : ps.filterMap s.appenders.get = as := by
  induction hps with
  | nil => rfl
  | cons ha _ ih => rw [List.filterMap_cons_some ha, ih]

/-- What is seen of a logger with a definition and a formatter. -/
def LogDefine.view (daemon : Bool) (d : LogDefine) (f : Option LogFormatter) : View :=
  ⟨d.level, f, (d.appenders.foldl (attached daemon f) []).map fun a => (a.kind, a.level, a.formatter)⟩

theorem Applied.view {s : Loggers} (hl : Applied daemon s d l) :
    s.view d.name = some (d.view daemon l.formatter) := by
  rw [Loggers.view, hl.found, Option.map_some, hl.appenders.filterMap, hl.level, LogDefine.view]

/-- What is seen of the loggers of the last value of a history. -/
theorem history_view (hs : s₀.Alive)
    (hrun : runAll (setLogs daemon) (h ++ [v]) ⟨OrderedSet.empty, s₀⟩ = .done () s)
    (hd : d ∈ v.elems) : s.loggers.view d.name =
      some (d.view daemon (lastFormatter s₀ d.name (h ++ [v]))) := by
  have hinit : Inv daemon s₀ [] ⟨OrderedSet.empty, s₀⟩ := ⟨hs, nofun, fun _ => rfl⟩
  rcases runAll_append_done.mp hrun with ⟨s₁, hbefore, hlast⟩
  rcases runAll_cons_done.mp hlast with ⟨s₂, hv, hnil⟩
  cases hnil
  rcases setLogs_inv (history_inv hinit hbefore) hv with ⟨hinv, hvalue⟩
  rw [← hvalue] at hd
  rcases hinv.applied d hd with ⟨l, hl⟩
  rw [hl.view, ← hl.formatterOf, hinv.formatters]
  rfl

/-- Two histories that end in the same value leave its loggers the same if and only if the last
formatters that they have for them are the same. -/
theorem logs_history (daemon : Bool) (s₀ : Loggers) (h₁ h₂ : List LogDefines) (v : LogDefines)
    (s₁ s₂ : Logs) (hs : s₀.Alive)
    (hrun₁ : runAll (setLogs daemon) (h₁ ++ [v]) ⟨OrderedSet.empty, s₀⟩ = .done () s₁)
    (hrun₂ : runAll (setLogs daemon) (h₂ ++ [v]) ⟨OrderedSet.empty, s₀⟩ = .done () s₂) :
    (∀ d ∈ v.elems, s₁.loggers.view d.name = s₂.loggers.view d.name) ↔
      ∀ d ∈ v.elems, lastFormatter s₀ d.name (h₁ ++ [v]) = lastFormatter s₀ d.name (h₂ ++ [v]) := by
  apply forall₂_congr
  intro d hd
  rw [history_view hs hrun₁ hd, history_view hs hrun₂ hd, Option.some.injEq]
  constructor
  · intro hview
    exact congrArg View.formatter hview
  · intro hformatter
    rw [hformatter]

/-- A logger `system` that writes to the standard output. -/
def systemDefine (formatter : List UInt8) : LogDefine :=
  ⟨bytes "system", .info, formatter, [⟨2, .unknow, [], []⟩]⟩

theorem find_init (name : List UInt8) : Loggers.init.table.find name =
    if bytes "root" = name then some { Logger.new with appenders := [0] } else none := by
  rw [Loggers.init, OrderedMap.find_set]
  simp only [byteOrder_injective.eq_iff]
  rfl

theorem init_alive : Loggers.init.Alive := by
  intro name l hl p hp
  rw [find_init] at hl
  split_ifs at hl
  cases hl
  rw [List.mem_singleton.mp hp]
  rfl

/-- Two histories whose last value has a formatter of its own. -/
theorem logs_history_formatter : ∃ s₁ s₂,
    runAll (setLogs false) [OrderedSet.empty.insert (systemDefine (bytes "%p%n")),
      OrderedSet.empty.insert (systemDefine (bytes "%m%n"))] ⟨OrderedSet.empty, Loggers.init⟩ =
        .done () s₁ ∧
      runAll (setLogs false) [OrderedSet.empty.insert (systemDefine (bytes "%m%n"))]
        ⟨OrderedSet.empty, Loggers.init⟩ = .done () s₂ ∧
      s₁.loggers.view (bytes "system") = s₂.loggers.view (bytes "system") := by
  have hiff := logs_history false Loggers.init
    [OrderedSet.empty.insert (systemDefine (bytes "%p%n"))] []
    (OrderedSet.empty.insert (systemDefine (bytes "%m%n"))) _ _ init_alive rfl rfl
  refine ⟨_, _, rfl, rfl, hiff.mpr ?_ (systemDefine (bytes "%m%n")) List.mem_cons_self⟩
  intro d hd
  rw [List.mem_singleton.mp hd]
  decide +kernel

/-- A logger keeps the formatter that an earlier value gave it. -/
theorem formatter_survives : ∃ s₁ s₂,
    runAll (setLogs false) [OrderedSet.empty.insert (systemDefine (bytes "%p%n")),
      OrderedSet.empty.insert (systemDefine [])] ⟨OrderedSet.empty, Loggers.init⟩ = .done () s₁ ∧
      runAll (setLogs false) [OrderedSet.empty.insert (systemDefine [])]
        ⟨OrderedSet.empty, Loggers.init⟩ = .done () s₂ ∧
      s₁.loggers.view (bytes "system") ≠ s₂.loggers.view (bytes "system") :=
  ⟨_, _, rfl, rfl, by decide +kernel⟩

end Runs

end Sylar.Log
