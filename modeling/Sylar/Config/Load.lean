import Mathlib.Data.List.Induction
import Sylar.Config.Assign
import Sylar.Http.Request

/-! # Loading a configuration

`ListAllMember` lists the nodes of a document with their dotted paths, and `LoadFromYaml` gives the
text of each to the variable that is registered under its path in lower case. The document is the
tree that yaml-cpp makes of it, and the text that it writes for a node is a parameter.
-/
namespace Sylar.Config
open Memory
open Http (byte bytes)

/-- A `YAML::Node`; the keys of maps are scalars. -/
inductive Node where
  | null
  | scalar (text : List UInt8)
  | sequence (items : List Node)
  | map (entries : List (List UInt8 × Node))

/-- A byte that the pattern `[^a-zA-Z0-9._]` does not match. -/
def isNameByte (c : UInt8) : Bool :=
  (97 ≤ c.toNat && c.toNat ≤ 122) || (65 ≤ c.toNat && c.toNat ≤ 90) ||
    (48 ≤ c.toNat && c.toNat ≤ 57) || c == byte '.' || c == byte '_'

/-- `boost::regex_search` finds no other byte. -/
def Valid (name : List UInt8) : Prop := name.all isNameByte = true

instance (name : List UInt8) : Decidable (Valid name) :=
  inferInstanceAs (Decidable (name.all isNameByte = true))

def child (parent key : List UInt8) : List UInt8 :=
  if parent = [] then key else parent ++ byte '.' :: key

mutual

def listAllMember (path : List UInt8) : Node → List (List UInt8 × Node)
  | .null => if Valid path then [(path, .null)] else []
  | .scalar text => if Valid path then [(path, .scalar text)] else []
  | .sequence items => if Valid path then [(path, .sequence items)] else []
  | .map entries =>
    if Valid path then (path, .map entries) :: listEntries path entries else []

def listEntries (path : List UInt8) : List (List UInt8 × Node) → List (List UInt8 × Node)
  | [] => []
  | e :: entries => listEntry path e ++ listEntries path entries

def listEntry (path : List UInt8) : List UInt8 × Node → List (List UInt8 × Node)
  | (key, node) => listAllMember (child path key) node

end

/-- What the loop of `ListAllMember` goes over. -/
def Node.entries : Node → List (List UInt8 × Node)
  | .map entries => entries
  | _ => []

/-- The node at an address, the list of the positions at which to go down, when the path of every
node on the way is valid; with it comes its path. -/
inductive Reaches : List UInt8 → Node → List ℕ → List UInt8 × Node → Prop
  | here {path : List UInt8} {n : Node} : Valid path → Reaches path n [] (path, n)
  | entry {path : List UInt8} {n : Node} {i : ℕ} {e x : List UInt8 × Node} {a : List ℕ} :
      Valid path → n.entries[i]? = some e → Reaches (child path e.1) e.2 a x →
      Reaches path n (i :: a) x

/-- Exactly the things that are found at some address, once for each address and in the order of
the addresses, in which a node comes before what is below it. -/
def InPreorder {α : Type} (found : List ℕ → α → Prop) (l : List α) : Prop :=
  ∃ addrs : List (List ℕ), addrs.Pairwise (· < ·) ∧ List.Forall₂ found addrs l ∧
    ∀ a x, found a x → a ∈ addrs

theorem listAllMember_eq (path : List UInt8) (n : Node) :
    listAllMember path n = if Valid path then (path, n) :: listEntries path n.entries else [] := by
  cases n <;> simp [listAllMember, Node.entries, listEntries]

theorem listEntry_eq (path : List UInt8) (e : List UInt8 × Node) :
    listEntry path e = listAllMember (child path e.1) e.2 := by
  rcases e with ⟨key, node⟩
  rw [listEntry]

theorem Node.induct {P : Node → Prop} (h : ∀ n : Node, (∀ e ∈ n.entries, P e.2) → P n) :
    (n : Node) → P n
  | .null => h .null nofun
  | .scalar text => h (.scalar text) nofun
  | .sequence items => h (.sequence items) nofun
  | .map entries => h (.map entries) fun e _ => Node.induct h e.2
termination_by n => sizeOf n
decreasing_by
  have hlt : sizeOf e < sizeOf entries := List.sizeOf_lt_of_mem ‹_›
  rcases e with ⟨key, node⟩
  simp only [Prod.mk.sizeOf_spec, Node.map.sizeOf_spec] at hlt ⊢
  omega

/-- What is found below the entries of a map, the first of which is at position `k`. -/
def Below (path : List UInt8) (entries : List (List UInt8 × Node)) (k : ℕ) (a : List ℕ)
    (x : List UInt8 × Node) : Prop :=
  ∃ i e b, a = (k + i) :: b ∧ entries[i]? = some e ∧ Reaches (child path e.1) e.2 b x

theorem forall₂_exists_mem {α β : Type} {R : α → β → Prop} {l : List α} {m : List β} {a : α}
    (h : List.Forall₂ R l m) (ha : a ∈ l) : ∃ b, R a b ∧ b ∈ m := by
  induction h with
  | nil => cases ha
  | cons hr _ ih =>
    rcases List.mem_cons.mp ha with rfl | ha
    · exact ⟨_, hr, List.mem_cons_self⟩
    · rcases ih ha with ⟨b, hb, hmem⟩
      exact ⟨b, hb, List.mem_cons_of_mem _ hmem⟩

theorem listEntries_inPreorder (path : List UInt8) {entries : List (List UInt8 × Node)}
    (h : ∀ e ∈ entries, ∀ path, InPreorder (Reaches path e.2) (listAllMember path e.2)) (k : ℕ) :
    InPreorder (Below path entries k) (listEntries path entries) := by
  induction entries generalizing k with
  | nil => exact ⟨[], .nil, .nil, by simp [Below]⟩
  | cons e entries ih =>
    rw [List.forall_mem_cons] at h
    rcases h.1 (child path e.1) with ⟨first, hfirst, hfound, hall⟩
    rcases ih h.2 (k + 1) with ⟨rest, hrest, hfound', hall'⟩
    refine ⟨first.map (k :: ·) ++ rest, ?_, ?_, ?_⟩
    · rw [List.pairwise_append, List.pairwise_map]
      refine ⟨hfirst.imp fun hlt => List.Lex.cons hlt, hrest, ?_⟩
      intro a ha b hb
      rcases List.mem_map.mp ha with ⟨a', -, rfl⟩
      rcases forall₂_exists_mem hfound' hb with ⟨x, ⟨i, e', b', rfl, -, -⟩, -⟩
      exact List.Lex.rel (by omega)
    · apply List.rel_append
      · rw [List.forall₂_map_left_iff, listEntry_eq]
        exact hfound.imp fun a x hx => ⟨0, e, a, rfl, rfl, hx⟩
      · refine hfound'.imp ?_
        rintro a x ⟨i, e', b, rfl, hi, hx⟩
        exact ⟨i + 1, e', b, by rw [Nat.add_right_comm, Nat.add_assoc], hi, hx⟩
    · rintro a x ⟨i, e', b, rfl, hi, hx⟩
      rw [List.mem_append]
      cases i with
      | zero =>
        cases hi
        exact .inl (List.mem_map_of_mem (hall b x hx))
      | succ i =>
        refine .inr (hall' _ x ⟨i, e', b, ?_, hi, hx⟩)
        rw [Nat.add_right_comm, Nat.add_assoc]

/-- `ListAllMember` lists the nodes with valid paths in pre-order. -/
theorem listAllMember_inPreorder (path : List UInt8) (n : Node) :
    InPreorder (Reaches path n) (listAllMember path n) := by
  induction n using Node.induct generalizing path with
  | h n ih =>
    rw [listAllMember_eq]
    split_ifs with hvalid
    · rcases listEntries_inPreorder path ih 0 with ⟨addrs, hsorted, hfound, hall⟩
      refine ⟨[] :: addrs, ?_, ?_, ?_⟩
      · refine List.pairwise_cons.mpr ⟨fun a ha => ?_, hsorted⟩
        rcases forall₂_exists_mem hfound ha with ⟨x, ⟨i, e, b, rfl, -, -⟩, -⟩
        exact List.Lex.nil
      · refine .cons (.here hvalid) (hfound.imp ?_)
        rintro a x ⟨i, e, b, rfl, hi, hx⟩
        rw [Nat.zero_add]
        exact .entry hvalid hi hx
      · rintro a x (hpath | ⟨hpath, hi, hx⟩)
        · exact List.mem_cons_self
        · exact List.mem_cons_of_mem _ (hall _ x ⟨_, _, _, by rw [Nat.zero_add], hi, hx⟩)
    · refine ⟨[], .nil, .nil, ?_⟩
      rintro a x (hpath | ⟨hpath, -, -⟩) <;> exact absurd hpath hvalid

theorem Reaches.unique {path : List UInt8} {n : Node} {a : List ℕ} {x y : List UInt8 × Node}
    (hx : Reaches path n a x) (hy : Reaches path n a y) : x = y := by
  induction hx with
  | here _ =>
    cases hy
    rfl
  | entry _ hi _ ih =>
    rcases hy with _ | ⟨_, hj, hy⟩
    cases hi.symm.trans hj
    exact ih hy

theorem mem_listAllMember {path : List UInt8} {n : Node} {x : List UInt8 × Node} :
    x ∈ listAllMember path n ↔ ∃ a, Reaches path n a x := by
  rcases listAllMember_inPreorder path n with ⟨addrs, -, hfound, hall⟩
  constructor
  · intro hx
    rcases forall₂_exists_mem hfound.flip hx with ⟨a, ha, -⟩
    exact ⟨a, ha⟩
  · rintro ⟨a, ha⟩
    rcases forall₂_exists_mem hfound (hall a x ha) with ⟨y, hy, hmem⟩
    rwa [ha.unique hy]

/-- `::tolower` of every byte. -/
def toLower (name : List UInt8) : List UInt8 :=
  name.map fun c => if 65 ≤ c.toNat ∧ c.toNat ≤ 90 then c + 32 else c

/-- A registered variable: where it is, its `m_name`, its type and its contents. -/
structure Entry (τ V : Type) where
  id : ℕ
  name : List UInt8
  type : τ
  var : ConfigVar V

/-- `GetDatas()`; `nextId` is the next address that is free. -/
structure Registry (τ V : Type) where
  datas : List UInt8 → Option (Entry τ V)
  nextId : ℕ

namespace Registry

variable {τ V : Type}

def put (key : List UInt8) (e : Entry τ V) (s : Registry τ V) : Registry τ V :=
  { s with datas := fun name => if name = key then some e else s.datas name }

end Registry

def Node.text (emit : Node → List UInt8) : Node → List UInt8
  | .scalar text => text
  | n => emit n

section LoadFromYaml

variable {τ V : Type} [BEq V] (fromStr : τ → List UInt8 → Option V) (emit : Node → List UInt8)

/-- A round of the loop of `LoadFromYaml`. -/
def loadNode (i : List UInt8 × Node) : Command Exception (Registry τ V) Unit :=
  if i.1 = [] then pure ()
  else do
    let s ← Command.state
    match s.datas (toLower i.1) with
    | none => pure ()
    | some e => do
      let _ ← Command.focus (fun _ => e.var)
        (fun v => Registry.put (toLower i.1) { e with var := v })
        (ConfigVar.fromString (fromStr e.type) (i.2.text emit))
      pure ()

def loadFromYaml (root : Node) : Command Exception (Registry τ V) Unit :=
  runAll (loadNode fromStr emit) (listAllMember [] root)

/-- The nodes that are meant for a variable. -/
def nodesOf (name : List UInt8) (l : List (List UInt8 × Node)) : List Node :=
  (l.filter fun i => i.1 ≠ [] ∧ toLower i.1 = name).map Prod.snd

/-- An entry after it got the texts of some nodes. -/
def Entry.loaded (e : Entry τ V) (nodes : List Node) : Entry τ V :=
  { e with
    var := nodes.foldl (fun v n => v.loaded (fromStr e.type) (n.text emit)) e.var }

theorem Entry.loaded_append (e : Entry τ V) (nodes nodes' : List Node) :
    e.loaded fromStr emit (nodes ++ nodes') =
      (e.loaded fromStr emit nodes).loaded fromStr emit nodes' := by
  simp [Entry.loaded]

theorem nodesOf_cons (name : List UInt8) (i : List UInt8 × Node) (l : List (List UInt8 × Node)) :
    nodesOf name (i :: l) =
      (if i.1 ≠ [] ∧ toLower i.1 = name then [i.2] else []) ++ nodesOf name l := by
  rw [nodesOf, nodesOf, List.filter_cons]
  split_ifs with h₁ h₂ h₂
  · rfl
  · exact absurd (of_decide_eq_true h₁) h₂
  · exact absurd (decide_eq_true h₂) h₁
  · rfl

/-- A round gives the text of the node to the variable it is meant for. -/
theorem loadNode_done (s : Registry τ V) (i : List UInt8 × Node) :
    ∃ s', loadNode fromStr emit i s = .done () s' ∧ s'.nextId = s.nextId ∧
      ∀ name, s'.datas name = (s.datas name).map
        (·.loaded fromStr emit (if i.1 ≠ [] ∧ toLower i.1 = name then [i.2] else [])) := by
  have hkept (name : List UInt8) : s.datas name =
      (s.datas name).map (·.loaded fromStr emit []) := Option.map_id'.symm
  rw [loadNode]
  by_cases hempty : i.1 = []
  · rw [if_pos hempty]
    refine ⟨s, rfl, rfl, fun name => ?_⟩
    rw [if_neg fun h => h.1 hempty]
    exact hkept name
  · rw [if_neg hempty, Command.state_bind_apply]
    cases hfind : s.datas (toLower i.1) with
    | none =>
      refine ⟨s, rfl, rfl, fun name => ?_⟩
      split_ifs with hname
      · rw [← hname.2, hfind]
        rfl
      · exact hkept name
    | some e =>
      rcases ConfigVar.fromString_loaded (fromStr e.type) e.var (i.2.text emit) with ⟨b, hrun⟩
      have hfocus : Command.focus (fun _ => e.var)
          (fun v => Registry.put (toLower i.1) { e with var := v })
          (ConfigVar.fromString (fromStr e.type) (i.2.text emit)) s =
          .done b (s.put (toLower i.1) { e with
            var := e.var.loaded (fromStr e.type) (i.2.text emit) }) := Command.focus_done hrun
      refine ⟨_, Command.bind_done hfocus _, rfl, fun name => ?_⟩
      rw [Registry.put]
      dsimp only
      by_cases hname : name = toLower i.1
      · rw [if_pos hname, if_pos ⟨hempty, hname.symm⟩, hname, hfind]
        rfl
      · rw [if_neg hname, if_neg fun h => hname h.2.symm]
        exact hkept name

/-- Every variable gets the texts of the nodes that are meant for it, in their order. -/
theorem loadNodes_done (l : List (List UInt8 × Node)) (s : Registry τ V) :
    ∃ s', runAll (loadNode fromStr emit) l s = .done () s' ∧ s'.nextId = s.nextId ∧
      ∀ name, s'.datas name = (s.datas name).map (·.loaded fromStr emit (nodesOf name l)) := by
  induction l generalizing s with
  | nil => exact ⟨s, rfl, rfl, fun name => Option.map_id'.symm⟩
  | cons i l ih =>
    rcases loadNode_done fromStr emit s i with ⟨s₁, hi, hid, hdatas⟩
    rcases ih s₁ with ⟨s', hl, hid', hdatas'⟩
    refine ⟨s', runAll_cons_done.mpr ⟨s₁, hi, hl⟩, hid'.trans hid, fun name => ?_⟩
    rw [hdatas', hdatas, Option.map_map, nodesOf_cons]
    congr 1
    funext e
    exact (e.loaded_append fromStr emit _ _).symm

/-- The values that the nodes convert to, where they do. -/
def Entry.values (e : Entry τ V) (nodes : List Node) : List V :=
  nodes.filterMap fun n => fromStr e.type (n.text emit)

/-- A variable whose listeners do not throw has the last of the values, up to `operator==`, or
what it had if there are none. -/
theorem Entry.loaded_quiet (e : Entry τ V) (hquiet : e.var.Quiet) (nodes : List Node) :
    (e.loaded fromStr emit nodes).var.cbs = e.var.cbs ∧
      match (e.values fromStr emit nodes).getLast? with
      | none => (e.loaded fromStr emit nodes).var = e.var
      | some v => (e.loaded fromStr emit nodes).var.val = v ∨
          (v == (e.loaded fromStr emit nodes).var.val) = true := by
  induction nodes using List.reverseRecOn with
  | nil => exact ⟨rfl, rfl⟩
  | append_singleton nodes n ih =>
    have hlast : (e.loaded fromStr emit (nodes ++ [n])).var =
        (e.loaded fromStr emit nodes).var.loaded (fromStr e.type) (n.text emit) := by
      rw [Entry.loaded_append]
      rfl
    rw [hlast, Entry.values, List.filterMap_append]
    cases hn : fromStr e.type (n.text emit) with
    | none =>
      rw [ConfigVar.loaded_of_none hn]
      simpa [hn, Entry.values] using ih
    | some v =>
      have hquiet' : (e.loaded fromStr emit nodes).var.Quiet := by
        rw [ConfigVar.Quiet, ih.1]
        exact hquiet
      rw [ConfigVar.loaded_of_some hquiet' hn]
      split_ifs with hsame
      · simp [hn, ih.1, hsame]
      · simp [hn, ih.1]

/-- The listed nodes whose path in lower case is the name. -/
def nodesAt (root : Node) (name : List UInt8) : List Node :=
  ((listAllMember [] root).filter fun i => toLower i.1 = name).map Prod.snd

theorem nodesOf_eq {name : List UInt8} (hname : name ≠ []) (root : Node) :
    nodesOf name (listAllMember [] root) = nodesAt root name := by
  rw [nodesOf, nodesAt]
  congr 1
  apply List.filter_congr
  intro i _
  rw [decide_eq_decide, and_iff_right_iff_imp]
  rintro hi hempty
  rw [hempty] at hi
  exact hname hi.symm

theorem nodesOf_nil (l : List (List UInt8 × Node)) : nodesOf [] l = [] := by
  rw [nodesOf, List.map_eq_nil_iff, List.filter_eq_nil_iff]
  intro i _
  rw [decide_eq_true_eq, toLower, List.map_eq_nil_iff]
  exact fun h => h.1 h.2

theorem mem_nodesAt {root n : Node} {name : List UInt8} :
    n ∈ nodesAt root name ↔ ∃ a path, Reaches [] root a (path, n) ∧ toLower path = name := by
  simp only [nodesAt, List.mem_map, List.mem_filter, mem_listAllMember, decide_eq_true_eq]
  constructor
  · rintro ⟨⟨path, m⟩, ⟨⟨a, ha⟩, hname⟩, rfl⟩
    exact ⟨a, path, ha, hname⟩
  · rintro ⟨a, path, ha, hname⟩
    exact ⟨(path, n), ⟨⟨a, ha⟩, hname⟩, rfl⟩

/-- What a variable is after a document was loaded: the last value that the nodes meant for it
convert to, or unchanged if there is none. -/
def Entry.After (e : Entry τ V) (nodes : List Node) (var : ConfigVar V) : Prop :=
  match (e.values fromStr emit nodes).getLast? with
  | none => var = e.var
  | some v => var.val = v ∨ (v == var.val) = true

/-- The nodes are listed in pre-order, and every variable with a name and listeners that do not
throw gets the last value that there is for it. -/
theorem loadFromYaml_correct (root : Node) (s : Registry τ V) :
    InPreorder (Reaches [] root) (listAllMember [] root) ∧
      ∃ s', loadFromYaml fromStr emit root s = .done () s' ∧
        (∀ name, s.datas name = none → s'.datas name = none) ∧
        (∀ e, s.datas [] = some e → s'.datas [] = some e) ∧
        ∀ name e, name ≠ [] → s.datas name = some e → e.var.Quiet →
          ∃ var, s'.datas name = some { e with var := var } ∧
            e.After fromStr emit (nodesAt root name) var := by
  refine ⟨listAllMember_inPreorder [] root, ?_⟩
  rcases loadNodes_done fromStr emit (listAllMember [] root) s with ⟨s', hrun, -, hdatas⟩
  refine ⟨s', hrun, ?_, ?_, ?_⟩
  · intro name hnone
    rw [hdatas, hnone]
    rfl
  · intro e he
    rw [hdatas, he, nodesOf_nil]
    rfl
  · intro name e hname he hquiet
    refine ⟨(e.loaded fromStr emit (nodesAt root name)).var, ?_, ?_⟩
    · rw [hdatas, he, nodesOf_eq hname]
      rfl
    · exact (e.loaded_quiet fromStr emit hquiet (nodesAt root name)).2

end LoadFromYaml

section Example

/-- A variable of type `std::string`, whose conversion is the identity. -/
def textVar (id : ℕ) (name val : List UInt8) : Entry Unit (List UInt8) :=
  ⟨id, name, (), ⟨val, [], []⟩⟩

def oneVar (name val : List UInt8) : Registry Unit (List UInt8) :=
  ⟨fun n => if n = name then some (textVar 0 name val) else none, 1⟩

/-- Two keys that differ in case compete for a variable, and the last one wins. -/
theorem loadFromYaml_correct_last :
    ∃ s', loadFromYaml (fun _ => some) (fun _ => [])
        (.map [(bytes "Port", .scalar (bytes "80")), (bytes "PORT", .scalar (bytes "81"))])
        (oneVar (bytes "port") (bytes "0")) = .done () s' ∧
      (s'.datas (bytes "port")).map (·.var.val) = some (bytes "81") := by
  rcases (loadFromYaml_correct (fun _ => some) (fun _ => [])
    (.map [(bytes "Port", .scalar (bytes "80")), (bytes "PORT", .scalar (bytes "81"))])
    (oneVar (bytes "port") (bytes "0"))).2 with ⟨s', hrun, -, -, hall⟩
  rcases hall (bytes "port") (textVar 0 (bytes "port") (bytes "0")) (by decide) rfl nofun with
    ⟨var, hvar, hafter⟩
  have hlast : var.val = bytes "81" ∨ (bytes "81" == var.val) = true := hafter
  have hval : var.val = bytes "81" := hlast.elim id fun h => (eq_of_beq h).symm
  refine ⟨s', hrun, ?_⟩
  rw [hvar, Option.map_some, hval]

/-- The root of a document is not given to the variable with the empty name. -/
theorem empty_name_unchanged :
    (nodesAt (.scalar (bytes "1")) []).length = 1 ∧
      ∃ s', loadFromYaml (fun _ => some) (fun _ => []) (.scalar (bytes "1"))
          (oneVar [] (bytes "0")) = .done () s' ∧
        (s'.datas []).map (·.var.val) = some (bytes "0") :=
  ⟨rfl, _, rfl, rfl⟩

end Example

end Sylar.Config
