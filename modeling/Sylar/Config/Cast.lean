import Sylar.Config.Flow
import Sylar.Memory.OrderedSet

/-! # Containers of strings as text

`LexicalCast` writes the elements of a container as a YAML document and reads them back. Each element
is itself taken for YAML on the way there and printed on the way back, so what comes back is what
yaml-cpp prints for what it reads, and a container survives if and only if its elements are texts
that yaml-cpp prints. The empty string is not: it is read as null and printed as `~`.
-/
namespace Sylar.Config
open Memory
open Http (byte bytes)

/-- What is assumed of yaml-cpp: `YAML::Load`, which may throw, and `operator<<`. -/
structure YamlCpp where
  load : List UInt8 → Option Node
  emit : Node → List UInt8
  load_nil : load [] = some .null
  emit_null : emit .null = bytes "~"
  load_emit : ∀ n, load (emit n) = some n

/-- Trees in flow style are as assumed. -/
def YamlCpp.flow : YamlCpp where
  load := Flow.read
  emit := Flow.print
  load_nil := rfl
  emit_null := by
    rw [Flow.print]
    rfl
  load_emit := Flow.read_print

/-- A node onto which nodes were pushed. -/
def Node.pushed : List Node → Node
  | [] => .null
  | nodes => .sequence nodes

/-- A node to which nodes were assigned under keys. -/
def Node.assigned : List (List UInt8 × Node) → Node
  | [] => .null
  | entries => .map entries

/-- `node[0]`, …, `node[node.size() - 1]`. A map, whose entries under integer keys these would be,
is taken to have none. -/
def Node.items : Node → List Node
  | .sequence nodes => nodes
  | _ => []

/-- What an iterator goes over; the entries of a sequence have no key, and `Scalar()` throws. -/
def Node.pairs : Node → Option (List (List UInt8 × Node))
  | .map entries => some entries
  | .sequence (_ :: _) => none
  | _ => some []

/-- `std::string::operator<`. -/
def textOrder (t : List UInt8) : List ℕ := t.map UInt8.toNat

/-- `insert` into an unordered container, whose order is not specified. -/
def insertNew {α κ : Type} [DecidableEq κ] (key : α → κ) (l : List α) (x : α) : List α :=
  if key x ∈ l.map key then l else l ++ [x]

abbrev Text := List UInt8

namespace YamlCpp

variable (y : YamlCpp)

section Sequences

/-- The elements in the order of the iteration. -/
def elementsToString (v : List Text) : Option Text := do
  let nodes ← v.mapM y.load
  pure (y.emit (Node.pushed nodes))

def elementsFromString (t : Text) : Option (List Text) := do
  let node ← y.load t
  pure (node.items.map y.emit)

def vectorToString (v : List Text) : Option Text := y.elementsToString v

def vectorFromString (t : Text) : Option (List Text) := y.elementsFromString t

def listToString (v : List Text) : Option Text := y.elementsToString v

def listFromString (t : Text) : Option (List Text) := y.elementsFromString t

def setToString (v : OrderedSet Text textOrder) : Option Text := y.elementsToString v.elems

def setFromString (t : Text) : Option (OrderedSet Text textOrder) :=
  (y.elementsFromString t).map OrderedSet.empty.insertAll

def unorderedSetToString (v : List Text) : Option Text := y.elementsToString v

def unorderedSetFromString (t : Text) : Option (List Text) :=
  (y.elementsFromString t).map (List.foldl (insertNew id) [])

end Sequences

section Maps

/-- The entries in the order of the iteration. -/
def entriesToString (v : List (Text × Text)) : Option Text := do
  let entries ← v.mapM fun i => (y.load i.2).map (i.1, ·)
  pure (y.emit (Node.assigned entries))

def entriesFromString (t : Text) : Option (List (Text × Text)) := do
  let node ← y.load t
  let entries ← node.pairs
  pure (entries.map fun i => (i.1, y.emit i.2))

def mapToString (v : OrderedSet (Text × Text) fun i => textOrder i.1) : Option Text :=
  y.entriesToString v.elems

def mapFromString (t : Text) : Option (OrderedSet (Text × Text) fun i => textOrder i.1) :=
  (y.entriesFromString t).map OrderedSet.empty.insertAll

def unorderedMapToString (v : List (Text × Text)) : Option Text := y.entriesToString v

def unorderedMapFromString (t : Text) : Option (List (Text × Text)) :=
  (y.entriesFromString t).map (List.foldl (insertNew Prod.fst) [])

end Maps

end YamlCpp

/-- A value of one of the container types. Of an unordered container the order of its iteration is
known, in which nothing occurs twice. -/
inductive Container where
  | vector (v : List Text)
  | list (v : List Text)
  | set (v : OrderedSet Text textOrder)
  | unorderedSet (v : List Text) (nodup : v.Nodup)
  | map (v : OrderedSet (Text × Text) fun i => textOrder i.1)
  | unorderedMap (v : List (Text × Text)) (nodup : (v.map Prod.fst).Nodup)

namespace Container

/-- The strings that are converted: the elements, or the mapped values. -/
def texts : Container → List Text
  | vector v => v
  | list v => v
  | set v => v.elems
  | unorderedSet v _ => v
  | map v => v.elems.map Prod.snd
  | unorderedMap v _ => v.map Prod.snd

def RoundTrips (y : YamlCpp) : Container → Prop
  | vector v => (y.vectorToString v).bind y.vectorFromString = some v
  | list v => (y.listToString v).bind y.listFromString = some v
  | set v => (y.setToString v).bind y.setFromString = some v
  | unorderedSet v _ => ∃ w, (y.unorderedSetToString v).bind y.unorderedSetFromString = some w ∧
      ∀ t, t ∈ w ↔ t ∈ v
  | map v => (y.mapToString v).bind y.mapFromString = some v
  | unorderedMap v _ => ∃ w, (y.unorderedMapToString v).bind y.unorderedMapFromString = some w ∧
      ∀ i, i ∈ w ↔ i ∈ v

end Container

section MapM

variable {α β γ : Type}

theorem mapM_map (f : α → Option β) (g : β → γ) (l : List α) :
    (l.mapM f).map (List.map g) = l.mapM fun x => (f x).map g := by
  induction l with
  | nil => rfl
  | cons x l ih =>
    rw [List.mapM_cons, List.mapM_cons, ← ih]
    cases f x with
    | none => rfl
    | some b => cases l.mapM f <;> rfl

theorem mapM_eq_self {f : α → Option α} {l : List α} (h : ∀ x ∈ l, f x = some x) :
    l.mapM f = some l := by
  induction l with
  | nil => rfl
  | cons x l ih =>
    rw [List.forall_mem_cons] at h
    rw [List.mapM_cons, h.1, ih h.2]
    rfl

theorem exists_of_mem_mapM {f : α → Option β} {l : List α} {m : List β} (h : l.mapM f = some m)
    {b : β} (hb : b ∈ m) : ∃ x, f x = some b := by
  induction l generalizing m with
  | nil =>
    cases h
    cases hb
  | cons x l ih =>
    rw [List.mapM_cons] at h
    cases hx : f x with
    | none =>
      rw [hx] at h
      cases h
    | some c =>
      rw [hx] at h
      cases hl : l.mapM f with
      | none =>
        rw [hl] at h
        cases h
      | some m' =>
        rw [hl] at h
        cases h
        rcases List.mem_cons.mp hb with rfl | hb
        · exact ⟨x, hx⟩
        · exact ih hl hb

end MapM

section Insert

theorem mem_insertAll {α R : Type} [LinearOrder R] {rank : α → R} {s : OrderedSet α rank} {l : List α}
    {x : α} (h : x ∈ (s.insertAll l).elems) : x ∈ s.elems ∨ x ∈ l := by
  induction l generalizing s with
  | nil => exact .inl h
  | cons z l ih =>
    rcases ih (s := s.insert z) h with hs | hl
    · rcases SortedSet.mem_of_mem_insert _ hs with rfl | hs
      · exact .inr List.mem_cons_self
      · exact .inl hs
    · exact .inr (List.mem_cons_of_mem _ hl)

theorem insertAll_elems {α R : Type} [LinearOrder R] {rank : α → R} (s : OrderedSet α rank) :
    OrderedSet.empty.insertAll s.elems = s := by
  apply OrderedSet.ext
  exact OrderedSet.elems_insertAll s.sorted

variable {α κ : Type} [DecidableEq κ] {key : α → κ} {l m : List α} {x : α}

theorem mem_insertNews (h : x ∈ m.foldl (insertNew key) l) : x ∈ l ∨ x ∈ m := by
  induction m generalizing l with
  | nil => exact .inl h
  | cons z m ih =>
    rcases ih h with hl | hm
    · rw [insertNew] at hl
      split_ifs at hl
      · exact .inl hl
      · rcases List.mem_append.mp hl with hl | hz
        · exact .inl hl
        · exact .inr (List.mem_cons.mpr (.inl (List.mem_singleton.mp hz)))
    · exact .inr (List.mem_cons_of_mem _ hm)

theorem insertNews_nodup (h : ((l ++ m).map key).Nodup) : m.foldl (insertNew key) l = l ++ m := by
  induction m generalizing l with
  | nil => exact (List.append_nil l).symm
  | cons z m ih =>
    have hz : key z ∉ l.map key := by
      rw [List.map_append, List.map_cons] at h
      exact fun hmem => List.disjoint_of_nodup_append h hmem List.mem_cons_self
    rw [List.foldl_cons, insertNew, if_neg hz, ih, List.append_assoc, List.singleton_append]
    rwa [List.append_assoc, List.singleton_append]

end Insert

namespace YamlCpp

variable (y : YamlCpp)

/-- Some node is printed as the text. -/
def Prints (t : Text) : Prop := ∃ n, y.emit n = t

/-- What is printed for the node that is read. -/
def reprint (t : Text) : Option Text := (y.load t).map y.emit

variable {y} {t u : Text}

theorem reprint_of_prints (h : y.Prints t) : y.reprint t = some t := by
  rcases h with ⟨n, rfl⟩
  rw [reprint, y.load_emit, Option.map_some]

theorem prints_of_reprint (h : y.reprint t = some u) : y.Prints u := by
  rcases Option.map_eq_some_iff.mp h with ⟨n, -, hn⟩
  exact ⟨n, hn⟩

theorem items_pushed (nodes : List Node) : (Node.pushed nodes).items = nodes := by
  cases nodes <;> rfl

theorem pairs_assigned (entries : List (Text × Node)) :
    (Node.assigned entries).pairs = some entries := by
  cases entries <;> rfl

theorem elements_reprint (v : List Text) :
    (y.elementsToString v).bind y.elementsFromString = v.mapM y.reprint := by
  have hmap : v.mapM y.reprint = (v.mapM y.load).map (List.map y.emit) := (mapM_map _ _ _).symm
  rw [hmap, elementsToString]
  cases v.mapM y.load with
  | none => rfl
  | some nodes =>
    change y.elementsFromString (y.emit (Node.pushed nodes)) = some (nodes.map y.emit)
    rw [elementsFromString, y.load_emit]
    change some ((Node.pushed nodes).items.map y.emit) = _
    rw [items_pushed]

/-- What becomes of an entry of a map. -/
def reprintEntry (y : YamlCpp) (i : Text × Text) : Option (Text × Text) :=
  (y.reprint i.2).map (i.1, ·)

theorem entries_reprint (v : List (Text × Text)) :
    (y.entriesToString v).bind y.entriesFromString = v.mapM y.reprintEntry := by
  have hentry : y.reprintEntry =
      fun i => ((y.load i.2).map (i.1, ·)).map fun j => (j.1, y.emit j.2) := by
    funext i
    rw [reprintEntry, reprint, Option.map_map, Option.map_map]
    rfl
  rw [hentry, ← mapM_map (fun i : Text × Text => (y.load i.2).map (i.1, ·)), entriesToString]
  cases v.mapM fun i => (y.load i.2).map (i.1, ·) with
  | none => rfl
  | some entries =>
    change y.entriesFromString (y.emit (Node.assigned entries)) =
      some (entries.map fun j => (j.1, y.emit j.2))
    rw [entriesFromString, y.load_emit]
    change ((Node.assigned entries).pairs.bind fun l =>
      some (l.map fun j => (j.1, y.emit j.2))) = _
    rw [pairs_assigned]
    rfl

theorem reprintEntry_of_prints {i : Text × Text} (h : y.Prints i.2) :
    y.reprintEntry i = some i := by
  rw [reprintEntry, reprint_of_prints h]
  rfl

theorem prints_of_reprintEntry {i j : Text × Text} (h : y.reprintEntry i = some j) :
    y.Prints j.2 := by
  rcases Option.map_eq_some_iff.mp h with ⟨u, hu, rfl⟩
  exact prints_of_reprint hu

section Collect

variable {α C : Type} {f : α → Option α} {good : α → Prop}

/-- What is converted element by element and then collected is as before if and only if all of its
elements are good, where the conversion leaves good elements as they are and makes every element
good. -/
theorem collect_iff (hkeeps : ∀ x, good x → f x = some x) (hmakes : ∀ x z, f x = some z → good z)
    {collect : List α → C} {same : C → Prop} {l : List α} (hself : same (collect l))
    (hmem : ∀ m, same (collect m) → ∀ x ∈ l, x ∈ m) :
    (∃ c, (l.mapM f).map collect = some c ∧ same c) ↔ ∀ x ∈ l, good x := by
  constructor
  · rintro ⟨c, hc, hsame⟩ x hx
    rcases Option.map_eq_some_iff.mp hc with ⟨m, hm, rfl⟩
    rcases exists_of_mem_mapM hm (hmem m hsame x hx) with ⟨z, hz⟩
    exact hmakes z x hz
  · intro hgood
    rw [mapM_eq_self fun x hx => hkeeps x (hgood x hx)]
    exact ⟨_, rfl, hself⟩

/-- The elements, collected from the text, are as before. -/
theorem elements_collect (collect : List Text → C) (same : C → Prop) {v : List Text}
    (hself : same (collect v)) (hmem : ∀ m, same (collect m) → ∀ x ∈ v, x ∈ m) :
    (∃ c, ((y.elementsToString v).bind fun t => (y.elementsFromString t).map collect) = some c ∧
      same c) ↔ ∀ t ∈ v, y.Prints t := by
  have hmap : ((y.elementsToString v).bind fun t => (y.elementsFromString t).map collect) =
      (v.mapM y.reprint).map collect := by
    rw [← elements_reprint, Option.map_bind]
    rfl
  rw [hmap]
  exact collect_iff (fun _ => reprint_of_prints) (fun _ _ => prints_of_reprint) hself hmem

theorem entries_collect (collect : List (Text × Text) → C) (same : C → Prop)
    {v : List (Text × Text)} (hself : same (collect v))
    (hmem : ∀ m, same (collect m) → ∀ x ∈ v, x ∈ m) :
    (∃ c, ((y.entriesToString v).bind fun t => (y.entriesFromString t).map collect) = some c ∧
      same c) ↔ ∀ t ∈ v.map Prod.snd, y.Prints t := by
  have hmap : ((y.entriesToString v).bind fun t => (y.entriesFromString t).map collect) =
      (v.mapM y.reprintEntry).map collect := by
    rw [← entries_reprint, Option.map_bind]
    rfl
  rw [hmap, List.forall_mem_map]
  exact collect_iff (fun _ => reprintEntry_of_prints) (fun _ _ => prints_of_reprintEntry) hself hmem

theorem elements_iff (v : List Text) :
    (y.elementsToString v).bind y.elementsFromString = some v ↔ ∀ t ∈ v, y.Prints t := by
  have h := elements_collect (y := y) id (· = v) rfl fun m hm x hx => by
    rw [← hm] at hx
    exact hx
  simpa only [Option.map_id, id, exists_eq_right] using h

end Collect

end YamlCpp

theorem mem_of_insertAll_eq {α R : Type} [LinearOrder R] {rank : α → R} {s : OrderedSet α rank}
    {m : List α} (h : OrderedSet.empty.insertAll m = s) {x : α} (hx : x ∈ s.elems) : x ∈ m := by
  rw [← h] at hx
  exact (mem_insertAll hx).resolve_left List.not_mem_nil

theorem mem_of_insertNews {α κ : Type} [DecidableEq κ] {key : α → κ} {l m : List α}
    (h : ∀ x, x ∈ m.foldl (insertNew key) [] ↔ x ∈ l) {x : α} (hx : x ∈ l) : x ∈ m :=
  (mem_insertNews ((h x).mpr hx)).resolve_left List.not_mem_nil

theorem insertNews_self {α κ : Type} [DecidableEq κ] (key : α → κ) {l : List α}
    (h : (l.map key).Nodup) (x : α) : x ∈ l.foldl (insertNew key) [] ↔ x ∈ l := by
  rw [insertNews_nodup (by rwa [List.nil_append]), List.nil_append]

/-- A container comes back from its text if and only if each of its strings is what yaml-cpp prints
for some node. -/
theorem Container.roundTrips_iff (y : YamlCpp) (c : Container) :
    c.RoundTrips y ↔ ∀ t ∈ c.texts, y.Prints t := by
  cases c with
  | vector v => exact YamlCpp.elements_iff v
  | list v => exact YamlCpp.elements_iff v
  | set v =>
    have h := YamlCpp.elements_collect (y := y) OrderedSet.empty.insertAll (· = v)
      (insertAll_elems v) fun m hm x => mem_of_insertAll_eq hm
    simp only [exists_eq_right] at h
    exact h
  | unorderedSet v nodup =>
    have hself := insertNews_self id (l := v) (by rwa [List.map_id])
    exact YamlCpp.elements_collect _ (∀ t, t ∈ · ↔ t ∈ v) hself
      fun m hm x => mem_of_insertNews hm
  | map v =>
    have h := YamlCpp.entries_collect (y := y) OrderedSet.empty.insertAll (· = v)
      (insertAll_elems v) fun m hm x => mem_of_insertAll_eq hm
    simp only [exists_eq_right] at h
    exact h
  | unorderedMap v nodup =>
    exact YamlCpp.entries_collect _ (∀ i, i ∈ · ↔ i ∈ v) (insertNews_self Prod.fst nodup)
      fun m hm x => mem_of_insertNews hm

/-- The empty string comes back as `~`. -/
theorem empty_element_lost :
    (YamlCpp.flow.vectorToString [[]]).bind YamlCpp.flow.vectorFromString = some [bytes "~"] ∧
      ¬ (Container.vector [[]]).RoundTrips YamlCpp.flow := by
  have hcast : (YamlCpp.flow.vectorToString [[]]).bind YamlCpp.flow.vectorFromString =
      some [bytes "~"] := by
    decide +kernel
  refine ⟨hcast, fun h => ?_⟩
  rw [Container.RoundTrips, hcast] at h
  revert h
  decide

end Sylar.Config
