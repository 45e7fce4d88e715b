import Sylar.Http.Request
import Sylar.Memory.Command
import Sylar.Memory.OrderedSet

/-! # The definitions of the `logs` variable

`LexicalCast` between sets of `LogDefine` and YAML. Emitting a tree and loading it again is
taken to give the tree back, so the text of a configuration is the tree that is loaded from it.
How yaml-cpp looks into a node is a parameter with the laws that its documentation states.
-/
namespace Sylar.Log
open Memory
open Http (bytes)

inductive Level where
  | unknow | debug | info | warn | error | fatal
deriving DecidableEq, Repr

namespace Level

def toString : Level → List UInt8
  | .debug => bytes "DEBUG"
  | .info => bytes "INFO"
  | .warn => bytes "WARN"
  | .error => bytes "ERROR"
  | .fatal => bytes "FATAL"
  | .unknow => bytes "UNKNOW"

def fromString (str : List UInt8) : Level :=
  if str = bytes "debug" then .debug
  else if str = bytes "info" then .info
  else if str = bytes "warn" then .warn
  else if str = bytes "error" then .error
  else if str = bytes "fatal" then .fatal
  else if str = bytes "DEBUG" then .debug
  else if str = bytes "INFO" then .info
  else if str = bytes "WARN" then .warn
  else if str = bytes "ERROR" then .error
  else if str = bytes "FATAL" then .fatal
  else .unknow

theorem fromString_toString (level : Level) : fromString level.toString = level := by
  cases level <;> decide

end Level

/-- `type` is 1 for a file and 2 for the standard output. -/
structure LogAppenderDefine where
  type : ℤ
  level : Level
  formatter : List UInt8
  file : List UInt8
deriving DecidableEq

structure LogDefine where
  name : List UInt8
  level : Level
  formatter : List UInt8
  appenders : List LogAppenderDefine
deriving DecidableEq

/-- `std::string::operator<` compares the bytes as unsigned numbers. -/
def byteOrder (s : List UInt8) : List ℕ := s.map UInt8.toNat

theorem byteOrder_injective : Function.Injective byteOrder :=
  List.map_injective_iff.mpr fun _ _ => UInt8.toNat_inj.mp

/-- `std::set<LogDefine>`, ordered by name. -/
abbrev LogDefines := OrderedSet LogDefine fun d => byteOrder d.name

inductive Yaml where
  | null
  | scalar (text : List UInt8)
  | seq (items : List Yaml)
  | map (fields : List (String × Yaml))

inductive YamlError where
  | badSubscript
  | badConversion
deriving DecidableEq, Repr

/-- What was written to `std::cout`: messages and the nodes they show. -/
abbrev Output := List (List UInt8 × Yaml)

namespace Yaml

/-- A node to which fields were assigned. -/
def ofFields : List (String × Yaml) → Yaml
  | [] => .null
  | fields => .map fields

/-- A node onto which items were pushed. -/
def ofItems : List Yaml → Yaml
  | [] => .null
  | items => .seq items

def lookup (key : String) (fields : List (String × Yaml)) : Option Yaml :=
  (fields.find? fun f => f.1 = key).map Prod.snd

variable {key : String} {fields : List (String × Yaml)}

theorem lookup_nil : lookup key [] = none := rfl

theorem lookup_cons (k : String) (n : Yaml) :
    lookup key ((k, n) :: fields) = if k = key then some n else lookup key fields := by
  rw [lookup, List.find?_cons]
  by_cases h : k = key <;> simp [lookup, h]

theorem lookup_append (fields' : List (String × Yaml)) :
    lookup key (fields ++ fields') = (lookup key fields).or (lookup key fields') := by
  rw [lookup, List.find?_append, lookup, lookup]
  cases fields.find? fun f => f.1 = key <;> rfl

theorem lookup_ite (p : Prop) [Decidable p] (k : String) (n : Yaml) :
    lookup key (if p then [(k, n)] else []) = if p ∧ k = key then some n else none := by
  by_cases hp : p
  · simp only [hp, if_true, true_and]
    rw [lookup_cons]
    rfl
  · simp only [hp, if_false, false_and]
    rfl

end Yaml

/-- How yaml-cpp looks into a node: `n[key]`, with `none` for an undefined node,
`n.as<std::string>()`, and `n[0]`, …, `n[n.size() - 1]`. -/
structure YamlNodes where
  field : String → Yaml → Command YamlError Output (Option Yaml)
  text : Yaml → Command YamlError Output (List UInt8)
  items : Yaml → List Yaml
  field_map : ∀ key fields, field key (.map fields) = pure (Yaml.lookup key fields)
  field_null : ∀ key, field key .null = pure none
  text_scalar : ∀ t, text (.scalar t) = pure t
  items_seq : ∀ l, items (.seq l) = l
  items_null : items .null = []

namespace YamlNodes

/-- Any other access fails, or finds nothing. -/
def strict : YamlNodes where
  field
    | key, .map fields => pure (Yaml.lookup key fields)
    | _, .scalar _ => Command.raise .badSubscript
    | _, _ => pure none
  text
    | .scalar text => pure text
    | _ => Command.raise .badConversion
  items
    | .seq items => items
    | _ => []
  field_map _ _ := rfl
  field_null _ := rfl
  text_scalar _ := rfl
  items_seq _ := rfl
  items_null := rfl

variable (y : YamlNodes)

/-- `n[key].IsDefined() ? n[key].as<std::string>() : ""`. -/
def textOrEmpty (key : String) (n : Yaml) : Command YamlError Output (List UInt8) := do
  match ← y.field key n with
  | none => pure []
  | some t => y.text t

variable {key : String} {fields : List (String × Yaml)} {out : Output}

theorem field_ofFields :
    y.field key (Yaml.ofFields fields) out = .done (Yaml.lookup key fields) out := by
  cases fields with
  | nil => exact congrFun (y.field_null key) out
  | cons f fields => exact congrFun (y.field_map key (f :: fields)) out

theorem textOrEmpty_absent (h : Yaml.lookup key fields = none) :
    y.textOrEmpty key (Yaml.ofFields fields) out = .done [] out := by
  rw [textOrEmpty, Command.bind_done y.field_ofFields, h]
  rfl

theorem textOrEmpty_present {t : List UInt8} (h : Yaml.lookup key fields = some (.scalar t)) :
    y.textOrEmpty key (Yaml.ofFields fields) out = .done t out := by
  rw [textOrEmpty, Command.bind_done y.field_ofFields, h]
  exact congrFun (y.text_scalar t) out

theorem items_ofItems (l : List Yaml) : y.items (Yaml.ofItems l) = l := by
  cases l with
  | nil => exact y.items_null
  | cons n l => exact y.items_seq (n :: l)

end YamlNodes

/-- `std::cout << msg << n << std::endl`. -/
def report (msg : String) (n : Yaml) : Command YamlError Output Unit :=
  Command.modify fun out => out ++ [(bytes msg, n)]

/-- A loop that collects what each node gives, `none` being `continue`. -/
def collect {α : Type} (f : Yaml → Command YamlError Output (Option α)) :
    List Yaml → Command YamlError Output (List α)
  | [] => pure []
  | n :: l => do
    let x ← f n
    let xs ← collect f l
    pure (x.toList ++ xs)

section FromYaml

variable (y : YamlNodes)

def readAppender (a : Yaml) : Command YamlError Output (Option LogAppenderDefine) := do
  match ← y.field "type" a with
  | none => do
    report "log config error: appender type is null, " a
    pure none
  | some t => do
    let type ← y.text t
    if type = bytes "FileLogAppender" then do
      match ← y.field "file" a with
      | none => do
        report "log config error: fileappender file is null, " a
        pure none
      | some f => do
        let file ← y.text f
        let formatter ← y.textOrEmpty "formatter" a
        pure (some ⟨1, .unknow, formatter, file⟩)
    else if type = bytes "StdoutLogAppender" then
      pure (some ⟨2, .unknow, [], []⟩)
    else do
      report "Log config error: appender type is invaild, " a
      pure none

def readAppenders (n : Yaml) : Command YamlError Output (List LogAppenderDefine) := do
  match ← y.field "appenders" n with
  | none => pure []
  | some l => collect (readAppender y) (y.items l)

def readDefine (n : Yaml) : Command YamlError Output (Option LogDefine) := do
  match ← y.field "name" n with
  | none => do
    report "log config error: name is null, " n
    pure none
  | some t => do
    let name ← y.text t
    let level ← y.textOrEmpty "level" n
    let formatter ← y.textOrEmpty "formatter" n
    let appenders ← readAppenders y n
    pure (some ⟨name, Level.fromString level, formatter, appenders⟩)

/-- `LexicalCast<std::string, std::set<LogDefine>>`. -/
def fromYaml (node : Yaml) : Command YamlError Output LogDefines := do
  let l ← collect (readDefine y) (y.items node)
  pure (OrderedSet.empty.insertAll l)

end FromYaml

section ToYaml

/-- The fields that name the kind of an appender. -/
def LogAppenderDefine.kindFields (a : LogAppenderDefine) : List (String × Yaml) :=
  if a.type = 1 then
    [("type", .scalar (bytes "FileLogAppender")), ("file", .scalar a.file)]
  else if a.type = 2 then [("type", .scalar (bytes "StdoutLogAppender"))]
  else []

def levelFields (level : Level) : List (String × Yaml) :=
  if level ≠ .unknow then [("level", .scalar level.toString)] else []

def LogAppenderDefine.fields (a : LogAppenderDefine) : List (String × Yaml) :=
  a.kindFields ++ levelFields a.level ++
    if a.formatter ≠ [] then [("formatter", .scalar a.formatter)] else []

def LogAppenderDefine.toYaml (a : LogAppenderDefine) : Yaml := Yaml.ofFields a.fields

/-- The formatter is written when it is empty. -/
def LogDefine.fields (d : LogDefine) : List (String × Yaml) :=
  [("name", .scalar d.name)] ++ levelFields d.level ++
    (if d.formatter = [] then [("formatter", .scalar d.formatter)] else []) ++
    if d.appenders ≠ [] then [("appenders", .seq (d.appenders.map LogAppenderDefine.toYaml))]
    else []

def LogDefine.toYaml (d : LogDefine) : Yaml := Yaml.ofFields d.fields

/-- `LexicalCast<std::set<LogDefine>, std::string>`. -/
def toYaml (v : LogDefines) : Yaml := Yaml.ofItems (v.elems.map LogDefine.toYaml)

end ToYaml

/-- What is left of an appender that is written and read: the level is not read, and of one for the
standard output nothing is read but its type. -/
def LogAppenderDefine.kept (a : LogAppenderDefine) : LogAppenderDefine :=
  if a.type = 1 then ⟨1, .unknow, a.formatter, a.file⟩ else ⟨2, .unknow, [], []⟩

def LogDefine.kept (d : LogDefine) : LogDefine :=
  ⟨d.name, d.level, [], d.appenders.map LogAppenderDefine.kept⟩

/-- An appender of one of the two kinds. -/
def LogAppenderDefine.Known (a : LogAppenderDefine) : Prop := a.type = 1 ∨ a.type = 2

instance (a : LogAppenderDefine) : Decidable a.Known := inferInstanceAs (Decidable (_ ∨ _))

/-- The fields that are not both written and read have their defaults. -/
def LogAppenderDefine.Plain (a : LogAppenderDefine) : Prop :=
  a.level = .unknow ∧ (a.type = 2 → a.formatter = [] ∧ a.file = [])

instance (a : LogAppenderDefine) : Decidable a.Plain := inferInstanceAs (Decidable (_ ∧ _))

def LogDefine.Plain (d : LogDefine) : Prop :=
  d.formatter = [] ∧ ∀ a ∈ d.appenders, a.Plain

section RoundTrip

variable (y : YamlNodes) {out : Output} {a : LogAppenderDefine} {d : LogDefine} {v : LogDefines}

theorem lookup_levelFields (level : Level) :
    Yaml.lookup "level" (levelFields level) =
      if level = .unknow then none else some (.scalar level.toString) := by
  rw [levelFields, Yaml.lookup_ite]
  simp

theorem lookup_levelFields_of_ne {key : String} (h : "level" ≠ key) (level : Level) :
    Yaml.lookup key (levelFields level) = none := by
  rw [levelFields, Yaml.lookup_ite, if_neg fun hkey => h hkey.2]

theorem LogAppenderDefine.field_toYaml (a : LogAppenderDefine) {key : String} :
    y.field key a.toYaml out = .done (Yaml.lookup key a.fields) out := y.field_ofFields

theorem LogDefine.field_toYaml (d : LogDefine) {key : String} :
    y.field key d.toYaml out = .done (Yaml.lookup key d.fields) out := y.field_ofFields

theorem LogAppenderDefine.lookup_formatter (a : LogAppenderDefine) :
    Yaml.lookup "formatter" a.fields =
      if a.formatter = [] then none else some (.scalar a.formatter) := by
  have hkind : Yaml.lookup "formatter" a.kindFields = none := by
    rw [kindFields]
    split_ifs <;> simp [Yaml.lookup_cons, Yaml.lookup_nil]
  rw [fields, Yaml.lookup_append, Yaml.lookup_append, hkind, lookup_levelFields_of_ne (by decide),
    Yaml.lookup_ite]
  simp

theorem LogDefine.lookup_level (d : LogDefine) :
    Yaml.lookup "level" d.fields =
      if d.level = .unknow then none else some (.scalar d.level.toString) := by
  rw [fields, Yaml.lookup_append, Yaml.lookup_append, Yaml.lookup_append, lookup_levelFields,
    Yaml.lookup_ite, Yaml.lookup_ite]
  simp [Yaml.lookup_cons, Yaml.lookup_nil]

theorem LogDefine.lookup_formatter (d : LogDefine) :
    Yaml.lookup "formatter" d.fields =
      if d.formatter = [] then some (.scalar d.formatter) else none := by
  rw [fields, Yaml.lookup_append, Yaml.lookup_append, Yaml.lookup_append,
    lookup_levelFields_of_ne (by decide), Yaml.lookup_ite, Yaml.lookup_ite]
  simp [Yaml.lookup_cons, Yaml.lookup_nil]

theorem LogDefine.lookup_appenders (d : LogDefine) :
    Yaml.lookup "appenders" d.fields =
      if d.appenders = [] then none
      else some (.seq (d.appenders.map LogAppenderDefine.toYaml)) := by
  rw [fields, Yaml.lookup_append, Yaml.lookup_append, Yaml.lookup_append,
    lookup_levelFields_of_ne (by decide), Yaml.lookup_ite, Yaml.lookup_ite]
  simp [Yaml.lookup_cons, Yaml.lookup_nil]

theorem LogAppenderDefine.lookup_kind {key : String} {n : Yaml} (a : LogAppenderDefine)
    (h : Yaml.lookup key a.kindFields = some n) : Yaml.lookup key a.fields = some n := by
  rw [fields, Yaml.lookup_append, Yaml.lookup_append, h]
  rfl

theorem readAppender_file (h : a.type = 1) :
    readAppender y a.toYaml out = .done (some a.kept) out := by
  have htype : Yaml.lookup "type" a.fields = some (.scalar (bytes "FileLogAppender")) := by
    apply LogAppenderDefine.lookup_kind
    rw [LogAppenderDefine.kindFields, if_pos h, Yaml.lookup_cons, if_pos rfl]
  have hfile : Yaml.lookup "file" a.fields = some (.scalar a.file) := by
    apply LogAppenderDefine.lookup_kind
    rw [LogAppenderDefine.kindFields, if_pos h, Yaml.lookup_cons, if_neg (by decide),
      Yaml.lookup_cons, if_pos rfl]
  have hformatter : y.textOrEmpty "formatter" a.toYaml out = .done a.formatter out := by
    have hlookup := a.lookup_formatter
    split_ifs at hlookup with hempty
    · rw [hempty]
      exact y.textOrEmpty_absent hlookup
    · exact y.textOrEmpty_present hlookup
  rw [readAppender, Command.bind_done (a.field_toYaml y), htype]
  dsimp only
  rw [y.text_scalar, Command.pure_bind_apply, if_pos rfl, Command.bind_done (a.field_toYaml y),
    hfile]
  dsimp only
  rw [y.text_scalar, Command.pure_bind_apply, Command.bind_done hformatter,
    LogAppenderDefine.kept, if_pos h]
  rfl

theorem readAppender_stdout (h : a.type = 2) :
    readAppender y a.toYaml out = .done (some a.kept) out := by
  have hne : a.type ≠ 1 := by omega
  have htype : Yaml.lookup "type" a.fields = some (.scalar (bytes "StdoutLogAppender")) := by
    apply LogAppenderDefine.lookup_kind
    rw [LogAppenderDefine.kindFields, if_neg hne, if_pos h, Yaml.lookup_cons, if_pos rfl]
  rw [readAppender, Command.bind_done (a.field_toYaml y), htype]
  dsimp only
  rw [y.text_scalar, Command.pure_bind_apply, if_neg (by decide), if_pos rfl,
    LogAppenderDefine.kept, if_neg hne]
  rfl

theorem readAppender_toYaml (h : a.Known) :
    readAppender y a.toYaml out = .done (some a.kept) out := by
  rcases h with h | h
  · exact readAppender_file y h
  · exact readAppender_stdout y h

theorem collect_map {α β : Type} {f : Yaml → Command YamlError Output (Option β)} {g : α → Yaml}
    {kept : α → β} {l : List α} (h : ∀ x ∈ l, f (g x) out = .done (some (kept x)) out) :
    collect f (l.map g) out = .done (l.map kept) out := by
  induction l with
  | nil => rfl
  | cons x l ih =>
    rw [List.forall_mem_cons] at h
    rw [List.map_cons, collect, Command.bind_done h.1, Command.bind_done (ih h.2)]
    rfl

theorem readDefine_toYaml (h : ∀ a ∈ d.appenders, a.Known) :
    readDefine y d.toYaml out = .done (some d.kept) out := by
  have hname : Yaml.lookup "name" d.fields = some (.scalar d.name) := rfl
  have hlevel : ∃ t, y.textOrEmpty "level" d.toYaml out = .done t out ∧
      Level.fromString t = d.level := by
    have hlookup := d.lookup_level
    split_ifs at hlookup with hunknow
    · exact ⟨[], y.textOrEmpty_absent hlookup, hunknow.symm⟩
    · exact ⟨_, y.textOrEmpty_present hlookup, d.level.fromString_toString⟩
  have hformatter : y.textOrEmpty "formatter" d.toYaml out = .done [] out := by
    have hlookup := d.lookup_formatter
    split_ifs at hlookup with hempty
    · rw [hempty] at hlookup
      exact y.textOrEmpty_present hlookup
    · exact y.textOrEmpty_absent hlookup
  have happenders : readAppenders y d.toYaml out = .done d.kept.appenders out := by
    rw [readAppenders, Command.bind_done (d.field_toYaml y), d.lookup_appenders]
    split_ifs with hempty
    · rw [LogDefine.kept, hempty]
      rfl
    · dsimp only
      rw [y.items_seq]
      exact collect_map fun a ha => readAppender_toYaml y (h a ha)
  rcases hlevel with ⟨t, ht, hlevel⟩
  rw [readDefine, Command.bind_done (d.field_toYaml y), hname]
  dsimp only
  rw [y.text_scalar, Command.pure_bind_apply, Command.bind_done ht,
    Command.bind_done hformatter, Command.bind_done happenders, hlevel]
  rfl

theorem fromYaml_toYaml (h : ∀ d ∈ v.elems, ∀ a ∈ d.appenders, a.Known) :
    ∃ w, fromYaml y (toYaml v) out = .done w out ∧ w.elems = v.elems.map LogDefine.kept := by
  have hcollect : collect (readDefine y) (y.items (toYaml v)) out =
      .done (v.elems.map LogDefine.kept) out := by
    rw [toYaml, y.items_ofItems]
    exact collect_map fun d hd => readDefine_toYaml y (h d hd)
  refine ⟨OrderedSet.empty.insertAll (v.elems.map LogDefine.kept), ?_, ?_⟩
  · rw [fromYaml, Command.bind_done hcollect]
    rfl
  · apply OrderedSet.elems_insertAll
    exact List.pairwise_map.mpr v.sorted

theorem LogAppenderDefine.kept_eq_self_iff (h : a.Known) : a.kept = a ↔ a.Plain := by
  rcases a with ⟨type, level, formatter, file⟩
  rcases h with h | h
  all_goals
    dsimp only at h
    subst h
    simp [kept, Plain, eq_comm]

theorem map_eq_self_iff {α : Type} {f : α → α} {l : List α} : l.map f = l ↔ ∀ x ∈ l, f x = x := by
  nth_rewrite 2 [← List.map_id l]
  exact List.map_inj_left

theorem LogDefine.kept_eq_self_iff (h : ∀ a ∈ d.appenders, a.Known) : d.kept = d ↔ d.Plain := by
  have happenders : d.appenders.map LogAppenderDefine.kept = d.appenders ↔
      ∀ a ∈ d.appenders, a.Plain := by
    rw [map_eq_self_iff]
    exact forall₂_congr fun a ha => LogAppenderDefine.kept_eq_self_iff (h a ha)
  rw [Plain, ← happenders]
  constructor
  · intro hkept
    exact ⟨(congrArg LogDefine.formatter hkept).symm, congrArg LogDefine.appenders hkept⟩
  · rintro ⟨hformatter, hsame⟩
    rw [kept, hsame, ← hformatter]

/-- A set of definitions comes back from YAML as it was if and only if every definition is plain. -/
theorem defines_roundTrip (y : YamlNodes) (v : LogDefines) (out : Output)
    (h : ∀ d ∈ v.elems, ∀ a ∈ d.appenders, a.Known) :
    ∃ w, fromYaml y (toYaml v) out = .done w out ∧ (w = v ↔ ∀ d ∈ v.elems, d.Plain) := by
  rcases fromYaml_toYaml y h with ⟨w, hw, helems⟩
  refine ⟨w, hw, ?_⟩
  rw [OrderedSet.ext_iff, helems, map_eq_self_iff]
  exact forall₂_congr fun d hd => LogDefine.kept_eq_self_iff (h d hd)

/-- A logger `root` at level `INFO` that writes to a file and to the standard output. -/
def rootDefine : LogDefine :=
  ⟨bytes "root", .info, [], [⟨1, .unknow, bytes "%m%n", bytes "root.txt"⟩, ⟨2, .unknow, [], []⟩]⟩

theorem defines_roundTrip_root :
    ∃ w, fromYaml .strict (toYaml (OrderedSet.empty.insert rootDefine)) [] = .done w [] ∧
      w = OrderedSet.empty.insert rootDefine := by
  rcases defines_roundTrip .strict (OrderedSet.empty.insert rootDefine) [] (by decide) with
    ⟨w, hw, hiff⟩
  refine ⟨w, hw, hiff.mpr ?_⟩
  intro d hd
  rw [List.mem_singleton.mp hd]
  exact ⟨rfl, by decide +kernel⟩

/-- A formatter is lost on the way. -/
theorem formatter_lost :
    let v : LogDefines := OrderedSet.empty.insert ⟨bytes "root", .info, bytes "%m%n", []⟩
    ∃ w, fromYaml .strict (toYaml v) [] = .done w [] ∧ w ≠ v := by
  exact ⟨_, rfl, by decide +kernel⟩

end RoundTrip

end Sylar.Log
