import Sylar.Log.History

/-! # The destinations of a logger

Every appender of a definition is a place to which the logger should write. `addAppender` drops
one that equals another, and two appenders are equal if they are of one class and have one level:
two files count as one. So the logger gets all of its destinations if and only if no two of its
appenders have the same type and level.
-/
namespace Sylar.Log
open Memory
open Http (bytes)

/-- The kind with the file, and the level, that a definition asks for. -/
def LogAppenderDefine.destination (a : LogAppenderDefine) : Option (Kind × Level) :=
  if a.type = 1 then some (.file a.file, a.level)
  else if a.type = 2 then some (.stdout, a.level)
  else none

/-- One appender for each definition, in their order. -/
def Loggers.Serves (s : Loggers) (d : LogDefine) : Prop :=
  ∃ v, s.view d.name = some v ∧
    (v.appenders.map fun a => some (a.1, a.2.1)) = d.appenders.map LogAppenderDefine.destination

/-- No two appenders are of one type and one level, and the types are known. -/
structure LogDefine.Separate (d : LogDefine) : Prop where
  known : ∀ a ∈ d.appenders, a.Known
  nodup : (d.appenders.map fun a => (a.type, a.level)).Nodup

section Attached

variable {f : Option LogFormatter} {a : LogAppenderDefine} {x y : LogAppender}

namespace LogAppender

def destination (x : LogAppender) : Option (Kind × Level) := some (x.kind, x.level)

/-- The type and the level of an appender. -/
def key (x : LogAppender) : ℤ × Level :=
  (match x.kind with
    | .file _ => 1
    | .stdout => 2, x.level)

/-- An appender has the name of its class. -/
def Named (x : LogAppender) : Prop :=
  x.name =
    match x.kind with
    | .file _ => bytes "FileLogAppender"
    | .stdout => bytes "StdoutLogAppender"

theorem same_iff (hx : x.Named) (hy : y.Named) : x.same y = true ↔ x.key = y.key := by
  rw [Named] at hx hy
  rw [same, key, key, hx, hy]
  cases x.kind <;> cases y.kind <;> simp

theorem configured_kind (x : LogAppender) (a : LogAppenderDefine) :
    (x.configured a).kind = x.kind ∧ (x.configured a).name = x.name ∧
      (x.configured a).level = a.level := by
  rw [configured]
  split_ifs <;> exact ⟨rfl, rfl, rfl⟩

theorem adopt_kind (x : LogAppender) (f : Option LogFormatter) :
    (x.adopt f).kind = x.kind ∧ (x.adopt f).name = x.name ∧ (x.adopt f).level = x.level := by
  rw [adopt]
  split_ifs <;> exact ⟨rfl, rfl, rfl⟩

end LogAppender

theorem made_spec (h : a.Known) :
    ∃ x, a.made false = some x ∧ x.Named ∧ x.key = (a.type, a.level) ∧
      x.destination = a.destination := by
  rcases h with h | h
  · rcases (LogAppender.newFile a.file).configured_kind a with ⟨hkind, hname, hlevel⟩
    refine ⟨_, by rw [LogAppenderDefine.made, if_pos h], ?_, ?_, ?_⟩
    · rw [LogAppender.Named, hkind, hname]
      rfl
    · rw [LogAppender.key, hkind, hlevel, h]
      rfl
    · rw [LogAppender.destination, hkind, hlevel, LogAppenderDefine.destination, if_pos h]
      rfl
  · rcases LogAppender.newStdout.configured_kind a with ⟨hkind, hname, hlevel⟩
    refine ⟨LogAppender.newStdout.configured a, by simp [LogAppenderDefine.made, h], ?_, ?_, ?_⟩
    · rw [LogAppender.Named, hkind, hname]
      rfl
    · rw [LogAppender.key, hkind, hlevel, h]
      rfl
    · rw [LogAppender.destination, hkind, hlevel]
      simp [LogAppenderDefine.destination, h, LogAppender.newStdout]

theorem made_unknown (h : ¬a.Known) : a.made false = none := by
  rw [LogAppenderDefine.Known, not_or] at h
  simp [LogAppenderDefine.made, h.1, h.2]

theorem length_attached_le (f : Option LogFormatter) (as : List LogAppender)
    (a : LogAppenderDefine) : (attached false f as a).length ≤ as.length + 1 := by
  rw [attached]
  cases a.made false with
  | none => exact Nat.le_succ _
  | some x =>
    dsimp only
    split_ifs
    · exact Nat.le_succ _
    · simp

theorem length_attachedAll_le (f : Option LogFormatter) (as : List LogAppender)
    (defs : List LogAppenderDefine) :
    (defs.foldl (attached false f) as).length ≤ as.length + defs.length := by
  induction defs generalizing as with
  | nil => exact Nat.le_refl _
  | cons a defs ih =>
    have hfirst := length_attached_le f as a
    have hrest := ih (attached false f as a)
    rw [List.foldl_cons, List.length_cons]
    omega

/-- A definition that adds nothing leaves too few appenders. -/
theorem attached_ne {as : List LogAppender} {defs : List LogAppenderDefine}
    (h : attached false f as a = as) :
    ((a :: defs).foldl (attached false f) as).map LogAppender.destination ≠
      as.map LogAppender.destination ++ (a :: defs).map LogAppenderDefine.destination := by
  intro heq
  have hlength := congrArg List.length heq
  have hle := length_attachedAll_le f as defs
  rw [List.foldl_cons, h] at hlength
  simp only [List.length_map, List.length_append, List.length_cons] at hlength
  omega

/-- Every definition gives an appender of its own if and only if no two have the same key. -/
theorem attachedAll_iff (f : Option LogFormatter) (as : List LogAppender)
    (hnamed : ∀ x ∈ as, x.Named) (hkeys : (as.map LogAppender.key).Nodup) (defs : List LogAppenderDefine) :
    (defs.foldl (attached false f) as).map LogAppender.destination =
        as.map LogAppender.destination ++ defs.map LogAppenderDefine.destination ↔
      (∀ a ∈ defs, a.Known) ∧
        (as.map LogAppender.key ++ defs.map fun a => (a.type, a.level)).Nodup := by
  induction defs generalizing as with
  | nil => simpa using hkeys
  | cons a defs ih =>
    by_cases hknown : a.Known
    · rcases made_spec hknown with ⟨x, hmade, hname, hkey, hdest⟩
      have hsame : as.any (·.same x) = true ↔ x.key ∈ as.map LogAppender.key := by
        rw [List.any_eq_true, List.mem_map]
        exact exists_congr fun y => and_congr_right fun hy => LogAppender.same_iff (hnamed y hy) hname
      by_cases hin : x.key ∈ as.map LogAppender.key
      · have hattached : attached false f as a = as := by
          rw [attached, hmade]
          exact if_pos (hsame.mpr hin)
        refine iff_of_false (attached_ne hattached) ?_
        rintro ⟨-, hnodup⟩
        rw [hkey] at hin
        exact List.disjoint_of_nodup_append hnodup hin List.mem_cons_self
      · have hattached : attached false f as a = as ++ [x.adopt f] := by
          rw [attached, hmade]
          exact if_neg (hsame.not.mpr hin)
        rcases x.adopt_kind f with ⟨hkind, hnames, hlevel⟩
        have hadopted : (x.adopt f).key = (a.type, a.level) := by
          rw [← hkey, LogAppender.key, LogAppender.key, hkind, hlevel]
        have hdest' : (x.adopt f).destination = a.destination := by
          rw [← hdest, LogAppender.destination, LogAppender.destination, hkind, hlevel]
        have hnamed' : ∀ y ∈ as ++ [x.adopt f], y.Named := by
          simp only [List.forall_mem_append, List.forall_mem_singleton]
          refine ⟨hnamed, ?_⟩
          rw [LogAppender.Named, hkind, hnames]
          exact hname
        have hkeys' : ((as ++ [x.adopt f]).map LogAppender.key).Nodup := by
          rw [List.map_append, List.map_singleton, hadopted, ← hkey, List.nodup_append_comm]
          exact List.nodup_cons.mpr ⟨hin, hkeys⟩
        rw [List.foldl_cons, hattached]
        simpa [hadopted, hdest', hknown] using ih _ hnamed' hkeys'
    · have hattached : attached false f as a = as := by
        rw [attached, made_unknown hknown]
      refine iff_of_false (attached_ne hattached) ?_
      rintro ⟨hall, -⟩
      exact hknown (hall a List.mem_cons_self)

end Attached

section Total

variable {s s' : Loggers} {name : List UInt8} {l : Logger} {d : LogDefine} {old new : LogDefines}

theorem returns_getLogger (name : List UInt8) (s : Loggers) : Returns (getLogger name) s := by
  rw [Returns, getLogger, Command.state_bind_apply]
  cases s.table.find name with
  | none => exact ⟨_, _, rfl⟩
  | some l => exact ⟨_, _, rfl⟩

theorem returns_setLevel {level : Level} (hl : s.table.find name = some l) :
    Returns (Logger.setLevel name level) s :=
  ⟨_, _, Command.bind_done (logger_done hl) _⟩

theorem returns_clearAppenders (hl : s.table.find name = some l) :
    Returns (Logger.clearAppenders name) s :=
  ⟨_, _, Command.bind_done (logger_done hl) _⟩

theorem returns_appender {p : ℕ} (hp : (s.appenders.get p).isSome) : Returns (appender p) s := by
  rcases Option.isSome_iff_exists.mp hp with ⟨a, ha⟩
  exact ⟨a, s, appender_done ha⟩

theorem returns_setFormatter {f : Option LogFormatter} (hs : s.Alive)
    (hl : s.table.find name = some l) : Returns (Logger.setFormatter name f) s := by
  have hall : ∃ s', Logger.inheritAll f l.appenders (s.putLogger name { l with formatter := f }) =
      .done () s' ∧ ∀ p ∈ l.appenders, (s'.appenders.get p).isSome := by
    apply returns_runAll (hs name l hl)
    · intro p hp s' hs'
      apply returns_bind (returns_appender (hs' p hp))
      intro a s'' _
      exact ⟨_, _, rfl⟩
    · intro p hp s₁ s₂ hs₁ hrun q hq
      rcases Command.bind_eq_done.mp hrun with ⟨a, s₃, ha, hput⟩
      rw [(appender_inv ha).2] at hput
      cases hput
      rw [Loggers.get_putAppender]
      split_ifs
      · rfl
      · exact hs₁ q hq
  rcases hall with ⟨s', hall, -⟩
  refine ⟨(), s', ?_⟩
  rw [Logger.setFormatter, Command.bind_done (logger_done hl), Command.modify_bind_apply, hall]

theorem returns_configureFormatter (hs : s.Alive) (hl : s.table.find d.name = some l) :
    Returns (configureFormatter d) s := by
  rw [configureFormatter, Logger.setPattern]
  split_ifs
  · exact ⟨_, _, rfl⟩
  · exact ⟨_, _, rfl⟩
  · exact returns_setFormatter hs hl

theorem returns_addAppender {p : ℕ} {as : List LogAppender} (hl : s.table.find name = some l)
    (hp : (s.appenders.get p).isSome) (has : s.Holds l.appenders as) :
    Returns (Logger.addAppender name p) s := by
  apply returns_bind ⟨l, s, logger_done hl⟩
  intro l' s₁ hl'
  rcases logger_inv hl' with ⟨hfind, rfl⟩
  rw [hl] at hfind
  cases hfind
  apply returns_bind (returns_appender hp)
  intro a s₂ ha
  rcases appender_inv ha with ⟨-, rfl⟩
  apply returns_bind ⟨_, _, holdsSame_spec has⟩
  intro b s₃ _
  split_ifs <;> exact ⟨_, _, rfl⟩

theorem returns_attach {a : LogAppenderDefine} {as : List LogAppender}
    (hl : s.table.find name = some l) (has : s.Holds l.appenders as) (ha : a.Known) :
    Returns (attach false name a) s := by
  have hmake : Returns (makeAppender false a) s := by
    rw [makeAppender]
    rcases ha with ha | ha
    · rw [if_pos ha]
      exact ⟨_, _, rfl⟩
    · rw [if_neg (by omega), if_pos ha]
      exact ⟨_, _, rfl⟩
  apply returns_bind hmake
  intro r s₁ hr
  rcases makeAppender_inv hr with ⟨rfl, -, rfl⟩ | ⟨x, -, rfl, rfl⟩
  · exact ⟨_, _, rfl⟩
  · have hget : (s.appenders.alloc x).get s.appenders.brk = some x := Heap.get_alloc_self _ _
    rw [Returns]
    dsimp only
    rw [Command.bind_done (appender_done hget), Command.modify_bind_apply]
    exact returns_addAppender hl (by simp [Loggers.putAppender])
      (has.mono fun p _ z => Loggers.get_made)

theorem returns_attachAll {defs : List LogAppenderDefine} {as : List LogAppender}
    (hl : s.table.find name = some l) (has : s.Holds l.appenders as)
    (hdefs : ∀ a ∈ defs, a.Known) : Returns (runAll (attach false name) defs) s := by
  let I (s : Loggers) := ∃ l as, s.table.find name = some l ∧ s.Holds l.appenders as
  have hall : ∃ s', runAll (attach false name) defs s = .done () s' ∧ I s' := by
    apply returns_runAll ⟨l, as, hl, has⟩
    · rintro a ha s ⟨l, as, hl, has⟩
      exact returns_attach hl has (hdefs a ha)
    · rintro a _ s s' ⟨l, as, hl, has⟩ hrun
      rcases (attach_spec hl has hrun).found with ⟨ps, hfind, hholds, -⟩
      exact ⟨_, _, hfind, hholds⟩
  rcases hall with ⟨s', hall, -⟩
  exact ⟨(), s', hall⟩

theorem returns_configure (hs : s.Alive) (hd : ∀ a ∈ d.appenders, a.Known) :
    Returns (configure false d) s := by
  apply returns_bind (returns_getLogger d.name s)
  intro _ s₁ hget
  rcases getLogger_spec hs hget with ⟨hframe₁, l, hl, -⟩
  have hs₁ := hframe₁.alive hs
  apply returns_bind (returns_setLevel hl)
  intro _ s₂ hlevel
  rcases setLevel_spec hs₁ hl hlevel with ⟨hframe₂, hl₂⟩
  have hs₂ := hframe₂.alive hs₁
  apply returns_bind (returns_configureFormatter hs₂ hl₂)
  intro _ s₃ hformatter
  rcases configureFormatter_spec hs₂ hl₂ hformatter with ⟨hframe₃, hl₃⟩
  have hs₃ := hframe₃.alive hs₂
  apply returns_bind (returns_clearAppenders hl₃)
  intro _ s₄ hclear
  exact returns_attachAll (clearAppenders_spec hs₃ hl₃ hclear).2 .nil hd

theorem returns_update (hs : s.Alive) (hd : ∀ a ∈ d.appenders, a.Known) :
    Returns (update false old d) s := by
  rw [update]
  cases old.find d with
  | none => exact returns_configure hs hd
  | some e =>
    dsimp only
    split_ifs
    · exact ⟨_, _, rfl⟩
    · exact returns_configure hs hd

theorem update_alive {daemon : Bool} (hs : s.Alive) (h : update daemon old d s = .done () s') :
    s'.Alive := by
  rw [update] at h
  cases hfind : old.find d with
  | none =>
    rw [hfind] at h
    exact (configure_spec hs h).1.alive hs
  | some e =>
    rw [hfind] at h
    dsimp only at h
    split_ifs at h
    · cases h
      exact hs
    · exact (configure_spec hs h).1.alive hs

theorem returns_remove (hs : s.Alive) : Returns (remove new d) s := by
  rw [remove]
  cases new.find d with
  | some e => exact ⟨_, _, rfl⟩
  | none =>
    apply returns_bind (returns_getLogger d.name s)
    intro _ s₁ hget
    rcases getLogger_spec hs hget with ⟨hframe₁, l, hl, -⟩
    have hs₁ := hframe₁.alive hs
    apply returns_bind (returns_setLevel hl)
    intro _ s₂ hlevel
    exact returns_clearAppenders (setLevel_spec hs₁ hl hlevel).2

theorem remove_alive (hs : s.Alive) (h : remove new d s = .done () s') : s'.Alive := by
  rcases remove_spec hs h with rfl | ⟨-, hframe, -⟩
  · exact hs
  · exact hframe.alive hs

theorem returns_listener (old : LogDefines) (hs : s.Alive)
    (hnew : ∀ d ∈ new.elems, ∀ a ∈ d.appenders, a.Known) :
    Returns (listener false old new) s := by
  have hupdate : ∃ s', runAll (update false old) new.elems s = .done () s' ∧ s'.Alive :=
    returns_runAll hs (fun d hd _ hs => returns_update hs (hnew d hd))
      fun d _ _ _ hs h => update_alive hs h
  rcases hupdate with ⟨s₁, hupdate, hs₁⟩
  have hremove : ∃ s', runAll (remove new) old.elems s₁ = .done () s' ∧ s'.Alive :=
    returns_runAll hs₁ (fun d _ _ hs => returns_remove hs) fun d _ _ _ hs h => remove_alive hs h
  rcases hremove with ⟨s₂, hremove, -⟩
  exact ⟨(), s₂, by rw [listener, Command.bind_done hupdate, hremove]⟩

theorem returns_setLogs {s : Logs} (hs : s.loggers.Alive)
    (hnew : ∀ d ∈ new.elems, ∀ a ∈ d.appenders, a.Known) : Returns (setLogs false new) s := by
  rw [Returns, setLogs, Command.state_bind_apply]
  split_ifs
  · exact ⟨_, _, rfl⟩
  · rcases returns_listener s.value hs hnew with ⟨_, l, hlistener⟩
    exact ⟨_, _, Command.bind_done (Command.focus_done hlistener) _⟩

end Total

/-- The appenders of an applied definition serve it if and only if it is separate. -/
theorem Applied.serves_iff {s : Loggers} {d : LogDefine} {l : Logger} (h : Applied false s d l) :
    s.Serves d ↔ d.Separate := by
  have hview : s.Serves d ↔ (d.appenders.foldl (attached false l.formatter) []).map
      LogAppender.destination = d.appenders.map LogAppenderDefine.destination := by
    rw [Loggers.Serves, h.view]
    simp [LogDefine.view, Function.comp_def]
    rfl
  have hiff := attachedAll_iff l.formatter [] (List.forall_mem_nil _) .nil d.appenders
  rw [hview]
  refine Iff.trans ?_ (hiff.trans ⟨fun hd => ⟨hd.1, hd.2⟩, fun hd => ⟨hd.known, hd.nodup⟩⟩)
  rfl

/-- After any history of the variable, a new value is applied and every logger has its
destinations if and only if every definition is separate. -/
theorem destinations_iff (s₀ : Loggers) (hs₀ : s₀.Alive) (h : List LogDefines) (s : Logs)
    (hrun : runAll (setLogs false) h ⟨OrderedSet.empty, s₀⟩ = .done () s) (v : LogDefines) :
    (∃ s', setLogs false v s = .done () s' ∧ ∀ d ∈ v.elems, s'.loggers.Serves d) ↔
      ∀ d ∈ v.elems, d.Separate := by
  have hinit : Inv false s₀ [] ⟨OrderedSet.empty, s₀⟩ := ⟨hs₀, nofun, fun _ => rfl⟩
  have hinv := history_inv hinit hrun
  have hserves (s' : Logs) (hv : setLogs false v s = .done () s') (d : LogDefine)
      (hd : d ∈ v.elems) : s'.loggers.Serves d ↔ d.Separate := by
    rcases setLogs_inv hinv hv with ⟨hinv', hvalue⟩
    rw [← hvalue] at hd
    rcases hinv'.applied d hd with ⟨l, hl⟩
    exact hl.serves_iff
  constructor
  · rintro ⟨s', hv, hall⟩ d hd
    exact (hserves s' hv d hd).mp (hall d hd)
  · intro hall
    rcases returns_setLogs hinv.alive fun d hd => (hall d hd).known with ⟨_, s', hv⟩
    exact ⟨s', hv, fun d hd => (hserves s' hv d hd).mpr (hall d hd)⟩

/-- A logger with a file for every message and the standard output. -/
theorem destinations_iff_root :
    ∃ s', setLogs false (OrderedSet.empty.insert rootDefine) ⟨OrderedSet.empty, Loggers.init⟩ =
        .done () s' ∧ s'.loggers.Serves rootDefine := by
  have hiff := destinations_iff Loggers.init init_alive [] _ rfl
    (OrderedSet.empty.insert rootDefine)
  have hroot : ∀ d ∈ (OrderedSet.empty.insert rootDefine : LogDefines).elems, d.Separate := by
    intro d hd
    rw [List.mem_singleton.mp hd]
    exact ⟨by decide, by decide⟩
  rcases hiff.mpr hroot with ⟨s', hs', hall⟩
  exact ⟨s', hs', hall rootDefine List.mem_cons_self⟩

/-- A logger with two files. -/
def twoFiles : LogDefine :=
  ⟨bytes "system", .info, [],
    [⟨1, .debug, [], bytes "system.txt"⟩, ⟨1, .debug, [], bytes "copy.txt"⟩]⟩

/-- The second file is lost. -/
theorem second_file_lost :
    twoFiles.appenders.Nodup ∧
      ∃ s', setLogs false (OrderedSet.empty.insert twoFiles) ⟨OrderedSet.empty, Loggers.init⟩ =
        .done () s' ∧
        ((s'.loggers.view (bytes "system")).map fun v => v.appenders.map fun a => (a.1, a.2.1)) =
          some [(.file (bytes "system.txt"), .debug)] :=
  ⟨by decide, _, rfl, by decide +kernel⟩

end Sylar.Log
