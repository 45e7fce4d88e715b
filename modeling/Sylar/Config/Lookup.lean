import Sylar.Config.Load

/-! # Registered names

`Lookup` registers a variable under the name as it is given, `getName` is that name in lower case,
and the loader looks for paths in lower case. A variable whose name has a capital letter is never
found again by the loader, and two names that differ in case are two variables.
-/
namespace Sylar.Config
open Memory
open Http (bytes)

variable {τ V : Type}

/-- `Config::Lookup` with a default value, which returns the variable or, if there is one of another
type, a null pointer. -/
def lookup [DecidableEq τ] (type : τ) (name : List UInt8) (defaultValue : V) :
    Command Exception (Registry τ V) (Option ℕ) := do
  let s ← Command.state
  match s.datas name with
  | some e => if e.type = type then pure (some e.id) else pure none
  | none =>
    if Valid name then do
      Command.modify fun s =>
        { s.put name ⟨s.nextId, toLower name, type, ⟨defaultValue, [], []⟩⟩ with
          nextId := s.nextId + 1 }
      pure (some s.nextId)
    else Command.raise (.invalidArgument name)

def Registry.empty : Registry τ V := ⟨fun _ => none, 0⟩

/-- What every registry has: variables of their own, with valid names and without listeners. -/
structure Registry.Wellformed (s : Registry τ V) : Prop where
  valid : ∀ name e, s.datas name = some e → Valid name
  id : ∀ name e, s.datas name = some e → e.id < s.nextId
  alone : ∀ n n' e e', s.datas n = some e → s.datas n' = some e' → e.id = e'.id → n = n'
  quiet : ∀ name e, s.datas name = some e → e.var.Quiet

section Register

variable {s s' : Registry τ V} {type : τ} {name : List UInt8} {v : V} {r : Option ℕ}

/-- A lookup finds a variable, or registers one under a name that is valid and free. -/
theorem lookup_inv [DecidableEq τ] (h : lookup type name v s = .done r s') :
    s' = s ∨ s.datas name = none ∧ Valid name ∧
      s' = { s.put name ⟨s.nextId, toLower name, type, ⟨v, [], []⟩⟩ with
        nextId := s.nextId + 1 } := by
  rw [lookup, Command.state_bind_apply] at h
  cases hfind : s.datas name with
  | some e =>
    rw [hfind] at h
    dsimp only at h
    split_ifs at h
    all_goals
      cases h
      exact .inl rfl
  | none =>
    rw [hfind] at h
    dsimp only at h
    split_ifs at h with hvalid
    · cases h
      exact .inr ⟨rfl, hvalid, rfl⟩
    · cases h

theorem wellformed_empty : (Registry.empty : Registry τ V).Wellformed :=
  ⟨nofun, nofun, nofun, nofun⟩

theorem Registry.Wellformed.register (h : s.Wellformed) (hvalid : Valid name) :
    Registry.Wellformed { s.put name ⟨s.nextId, toLower name, type, ⟨v, [], []⟩⟩ with
      nextId := s.nextId + 1 } where
  valid := by
    intro n e he
    simp only [Registry.put] at he
    split_ifs at he with hn
    · rw [hn]
      exact hvalid
    · exact h.valid n e he
  id := by
    intro n e he
    simp only [Registry.put] at he
    split_ifs at he
    · cases he
      exact Nat.lt_succ_self _
    · exact Nat.lt_succ_of_lt (h.id n e he)
  alone := by
    intro n n' e e' he he' hid
    simp only [Registry.put] at he he'
    split_ifs at he he' with hn hn' hn'
    · rw [hn, hn']
    · cases he
      exact absurd hid.symm (h.id n' e' he').ne
    · cases he'
      exact absurd hid (h.id n e he).ne
    · exact h.alone n n' e e' he he' hid
  quiet := by
    intro n e he
    simp only [Registry.put] at he
    split_ifs at he
    · cases he
      exact List.forall_mem_nil _
    · exact h.quiet n e he

end Register

section Names

theorem toLower_toLower (name : List UInt8) : toLower (toLower name) = toLower name := by
  rw [toLower, toLower, List.map_map]
  apply List.map_congr_left
  intro c _
  simp only [Function.comp_apply]
  split_ifs with h h'
  · rw [UInt8.toNat_add] at h'
    simp at h'
    omega
  · rfl
  · rfl

theorem nodesOf_capital {name : List UInt8} (h : toLower name ≠ name)
    (l : List (List UInt8 × Node)) : nodesOf name l = [] := by
  rw [nodesOf, List.map_eq_nil_iff, List.filter_eq_nil_iff]
  intro i _
  rw [decide_eq_true_eq]
  rintro ⟨-, hi⟩
  apply h
  rw [← hi, toLower_toLower]

/-- Some document has a given text under a name and nothing else. -/
theorem exists_nodesAt {name : List UInt8} (hname : Valid name) (text : List UInt8) :
    ∃ root, nodesAt root (toLower name) = [.scalar text] := by
  by_cases hempty : name = []
  · refine ⟨.scalar text, ?_⟩
    rw [hempty]
    rfl
  · refine ⟨.map [(name, .scalar text)], ?_⟩
    have hlist : listAllMember [] (.map [(name, .scalar text)]) =
        [([], .map [(name, .scalar text)]), (name, .scalar text)] := by
      have hnil : Valid [] := rfl
      simp [listAllMember, listEntries, listEntry, child, hname, hnil]
    have hne : toLower [] ≠ toLower name := by
      simp [toLower, hempty]
    rw [nodesAt, hlist]
    simp [hne]

end Names

section Loader

variable (fromStr : τ → List UInt8 → Option V) (emit : Node → List UInt8)

/-- The document has a node under the name in some case of letters that converts. -/
def Defines (root : Node) (name : List UInt8) (e : Entry τ V) : Prop :=
  ∃ a path n v, Reaches [] root a (path, n) ∧ toLower path = toLower name ∧
    fromStr e.type (n.text emit) = some v

variable [BEq V]

/-- What is done with the registry. -/
inductive Use (τ V : Type) where
  | lookup (type : τ) (name : List UInt8) (defaultValue : V)
  | load (root : Node)

def Use.run [DecidableEq τ] : Use τ V → Command Exception (Registry τ V) Unit
  | .lookup type name defaultValue => do
    let _ ← Config.lookup type name defaultValue
    pure ()
  | .load root => loadFromYaml fromStr emit root

/-- Names are taken without regard to case: by the loader, which gives a variable the last value
that there is for its name, and by whoever holds the variable. -/
structure Registry.CaseBlind (s : Registry τ V) : Prop where
  updates : ∀ name e, s.datas name = some e → ∀ root, Defines fromStr emit root name e →
    ∃ s' var, loadFromYaml fromStr emit root s = .done () s' ∧
      s'.datas name = some { e with var := var } ∧
      e.After fromStr emit (nodesAt root (toLower name)) var
  same : ∀ n n', (s.datas n).isSome → (s.datas n').isSome → toLower n = toLower n' →
    s.datas n = s.datas n' ∧ ∀ root s', loadFromYaml fromStr emit root s = .done () s' →
      s'.datas n = s'.datas n'

/-- Every text that converts gives the value that the variable has. -/
def Entry.Settled (e : Entry τ V) : Prop :=
  ∀ text v, fromStr e.type text = some v → e.var.val = v ∨ (v == e.var.val) = true

/-- Names are in lower case and not empty. -/
structure Registry.LowerCase (s : Registry τ V) : Prop where
  names : ∀ name e, s.datas name = some e →
    toLower name = name ∧ name ≠ [] ∨ e.Settled fromStr
  distinct : ∀ n n', (s.datas n).isSome → (s.datas n').isSome → toLower n = toLower n' → n = n'

variable {s s' : Registry τ V} {name : List UInt8}

theorem Registry.Wellformed.load (h : s.Wellformed) {root : Node}
    (hrun : loadFromYaml fromStr emit root s = .done () s') : s'.Wellformed := by
  rcases loadNodes_done fromStr emit (listAllMember [] root) s with ⟨s₁, hrun₁, hid, hdatas⟩
  cases hrun.symm.trans hrun₁
  have hold (name : List UInt8) (e : Entry τ V) (he : s'.datas name = some e) :
      ∃ e₀, s.datas name = some e₀ ∧ e.id = e₀.id ∧ e.var.cbs = e₀.var.cbs := by
    rw [hdatas] at he
    rcases Option.map_eq_some_iff.mp he with ⟨e₀, he₀, rfl⟩
    exact ⟨e₀, he₀, rfl, (e₀.loaded_quiet fromStr emit (h.quiet name e₀ he₀) _).1⟩
  constructor
  · intro name e he
    rcases hold name e he with ⟨e₀, he₀, -, -⟩
    exact h.valid name e₀ he₀
  · intro name e he
    rcases hold name e he with ⟨e₀, he₀, hsame, -⟩
    rw [hid, hsame]
    exact h.id name e₀ he₀
  · intro n n' e e' he he' heq
    rcases hold n e he with ⟨e₀, he₀, hsame, -⟩
    rcases hold n' e' he' with ⟨e₀', he₀', hsame', -⟩
    exact h.alone n n' e₀ e₀' he₀ he₀' (by rw [← hsame, heq, hsame'])
  · intro name e he
    rcases hold name e he with ⟨e₀, he₀, -, hcbs⟩
    rw [ConfigVar.Quiet, hcbs]
    exact h.quiet name e₀ he₀

theorem wellformed_of_reachable [DecidableEq τ]
    (h : Reachable Registry.empty (Use.run fromStr emit) (fun _ _ => True) s) : s.Wellformed := by
  apply h.invariant wellformed_empty
  intro s a s' hs _ hrun
  cases a with
  | lookup type name v =>
    rcases Command.bind_eq_done.mp hrun with ⟨r, s₁, hlookup, hpure⟩
    cases hpure
    rcases lookup_inv hlookup with rfl | ⟨-, hvalid, rfl⟩
    · exact hs
    · exact hs.register hvalid
  | load root => exact hs.load fromStr emit hrun

/-- A variable whose name has a capital letter or is empty is not touched by the loader. -/
theorem load_unchanged {e : Entry τ V} (he : s.datas name = some e)
    (hname : ¬(toLower name = name ∧ name ≠ [])) (root : Node) :
    ∃ s', loadFromYaml fromStr emit root s = .done () s' ∧ s'.datas name = some e := by
  rcases loadNodes_done fromStr emit (listAllMember [] root) s with ⟨s', hrun, -, hdatas⟩
  have hnone : nodesOf name (listAllMember [] root) = [] := by
    by_cases hlower : toLower name = name
    · have hempty : name = [] := by
        by_contra hne
        exact hname ⟨hlower, hne⟩
      rw [hempty, nodesOf_nil]
    · exact nodesOf_capital hlower _
  refine ⟨s', hrun, ?_⟩
  rw [hdatas, he, hnone]
  rfl

omit [BEq V] in
theorem defines_iff {root : Node} {e : Entry τ V} : Defines fromStr emit root name e ↔
    e.values fromStr emit (nodesAt root (toLower name)) ≠ [] := by
  rw [← List.isEmpty_eq_false_iff, List.isEmpty_eq_false_iff_exists_mem]
  simp only [Entry.values, List.mem_filterMap, mem_nodesAt, Defines]
  constructor
  · rintro ⟨a, path, n, v, hreach, hpath, hv⟩
    exact ⟨v, n, ⟨a, path, hreach, hpath⟩, hv⟩
  · rintro ⟨v, n, ⟨a, path, hreach, hpath⟩, hv⟩
    exact ⟨a, path, n, v, hreach, hpath, hv⟩

theorem updates_of_lower {e : Entry τ V} (hs : s.Wellformed) (he : s.datas name = some e)
    (hname : toLower name = name ∧ name ≠ []) (root : Node) :
    ∃ s' var, loadFromYaml fromStr emit root s = .done () s' ∧
      s'.datas name = some { e with var := var } ∧
      e.After fromStr emit (nodesAt root (toLower name)) var := by
  rcases (loadFromYaml_correct fromStr emit root s).2 with ⟨s', hrun, -, -, hall⟩
  rcases hall name e hname.2 he (hs.quiet name e he) with ⟨var, hvar, hafter⟩
  refine ⟨s', var, hrun, hvar, ?_⟩
  rwa [hname.1]

/-- In every registry names are taken without regard to case if and only if all of them are in lower
case. -/
theorem caseBlind_iff [DecidableEq τ]
    (h : Reachable Registry.empty (Use.run fromStr emit) (fun _ _ => True) s) :
    s.CaseBlind fromStr emit ↔ s.LowerCase fromStr := by
  have hs := wellformed_of_reachable fromStr emit h
  constructor
  · intro hblind
    refine ⟨fun name e he => ?_, fun n n' hn hn' hlower => ?_⟩
    · by_cases hname : toLower name = name ∧ name ≠ []
      · exact .inl hname
      · refine .inr fun text v hv => ?_
        rcases exists_nodesAt (hs.valid name e he) text with ⟨root, hroot⟩
        have hvalues : e.values fromStr emit (nodesAt root (toLower name)) = [v] := by
          rw [hroot]
          simp [Entry.values, Node.text, hv]
        have hdefines : Defines fromStr emit root name e := by
          rw [defines_iff, hvalues]
          exact List.cons_ne_nil _ _
        rcases hblind.updates name e he root hdefines with ⟨s₁, var, hrun₁, hvar, hafter⟩
        rcases load_unchanged fromStr emit he hname root with ⟨s₂, hrun₂, hsame⟩
        cases hrun₁.symm.trans hrun₂
        rw [hsame, Option.some.injEq] at hvar
        have hkept : e.var = var := congrArg Entry.var hvar
        rw [Entry.After, hvalues, ← hkept] at hafter
        exact hafter
    · rcases Option.isSome_iff_exists.mp hn with ⟨e, he⟩
      have he' := (hblind.same n n' hn hn' hlower).1.symm.trans he
      exact hs.alone n n' e e he he' rfl
  · intro hlower
    refine ⟨fun name e he root hdefines => ?_, fun n n' hn hn' hsame => ?_⟩
    · by_cases hname : toLower name = name ∧ name ≠ []
      · exact updates_of_lower fromStr emit hs he hname root
      · have hsettled := (hlower.names name e he).resolve_left hname
        rcases load_unchanged fromStr emit he hname root with ⟨s', hrun, hkept⟩
        refine ⟨s', e.var, hrun, hkept, ?_⟩
        rw [Entry.After]
        cases hlast : (e.values fromStr emit (nodesAt root (toLower name))).getLast? with
        | none => rfl
        | some v =>
          rcases List.mem_filterMap.mp (List.mem_of_getLast? hlast) with ⟨n, -, hn⟩
          exact hsettled _ v hn
    · rw [hlower.distinct n n' hn hn' hsame]
      exact ⟨rfl, fun _ _ _ => rfl⟩

end Loader

section Example

/-- A variable `port` is updated by every document that defines it. -/
theorem caseBlind_iff_port :
    (oneVar (bytes "port") (bytes "0")).CaseBlind (fun _ => some) fun _ => [] := by
  have hinit : Reachable Registry.empty (Use.run (fun _ => some) fun _ => []) (fun _ _ => True)
      (Registry.empty : Registry Unit (List UInt8)) := .init
  have h : Reachable Registry.empty (Use.run (fun _ => some) fun _ => []) (fun _ _ => True)
      (oneVar (bytes "port") (bytes "0")) :=
    hinit.step (a := .lookup () (bytes "port") (bytes "0")) trivial rfl
  have hname (m : List UInt8) (hm : ((oneVar (bytes "port") (bytes "0")).datas m).isSome) :
      m = bytes "port" := by
    by_contra hne
    have hnone : (oneVar (bytes "port") (bytes "0")).datas m = none := if_neg hne
    rw [hnone] at hm
    cases hm
  refine (caseBlind_iff _ _ h).mpr ⟨fun name e he => ?_, fun n n' hn hn' _ => ?_⟩
  · rw [hname name (by rw [he]; rfl)]
    exact .inl ⟨by decide, by decide⟩
  · rw [hname n hn, hname n' hn']

/-- A variable `Port` is not updated by a document that defines it twice. -/
theorem capital_not_loaded : ∃ s s',
    Use.run (fun _ => some) (fun _ => []) (.lookup () (bytes "Port") (bytes "0")) Registry.empty =
        .done () s ∧
      loadFromYaml (fun _ => some) (fun _ => [])
        (.map [(bytes "Port", .scalar (bytes "80")), (bytes "port", .scalar (bytes "81"))]) s =
          .done () s' ∧
      (s'.datas (bytes "Port")).map (fun e => (e.name, e.var.val)) =
        some (bytes "port", bytes "0") :=
  ⟨_, _, rfl, rfl, rfl⟩

end Example

end Sylar.Config
