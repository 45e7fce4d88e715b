import Sylar.Config.Load

/-! # Trees in flow style

A part of YAML: null as `~`, plain words, single-quoted scalars, and sequences and maps in flow
style. What is printed is read back.
-/
namespace Sylar.Config.Flow
open Http (byte bytes)

/-- A byte of a plain scalar. -/
def isWordByte (b : UInt8) : Bool :=
  isNameByte b || b == byte '/' || b == byte '-'

def isPlain (t : List UInt8) : Bool := !t.isEmpty && t.all isWordByte

/-- The text of a quoted scalar after its opening quote. -/
def quoted : List UInt8 → List UInt8
  | [] => [byte '\'']
  | b :: t => if b = byte '\'' then byte '\'' :: byte '\'' :: quoted t else b :: quoted t

def printScalar (t : List UInt8) : List UInt8 :=
  if isPlain t then t else byte '\'' :: quoted t

mutual

def print : Node → List UInt8
  | .null => [byte '~']
  | .scalar text => printScalar text
  | .sequence items => byte '[' :: printItems items
  | .map entries => byte '\x7b' :: printEntries entries

def printItems : List Node → List UInt8
  | [] => [byte ']']
  | n :: items => print n ++ byte ',' :: printItems items

def printEntries : List (List UInt8 × Node) → List UInt8
  | [] => [byte '\x7d']
  | e :: entries => printEntry e ++ byte ',' :: printEntries entries

def printEntry : List UInt8 × Node → List UInt8
  | (key, node) => printScalar key ++ byte ':' :: byte ' ' :: print node

end

/-- A byte that is due. -/
def expect (b : UInt8) : List UInt8 → Option (List UInt8)
  | [] => none
  | c :: t => if c = b then some t else none

def readQuoted : List UInt8 → Option (List UInt8 × List UInt8)
  | [] => none
  | b :: t =>
    if b = byte '\'' then
      match t with
      | [] => some ([], [])
      | c :: u =>
        if c = byte '\'' then (readQuoted u).map fun r => (c :: r.1, r.2) else some ([], c :: u)
    else (readQuoted t).map fun r => (b :: r.1, r.2)

def readScalar (t : List UInt8) : Option (List UInt8 × List UInt8) :=
  match expect (byte '\'') t with
  | some u => readQuoted u
  | none =>
    let word := t.takeWhile isWordByte
    if word.isEmpty then none else some (word, t.dropWhile isWordByte)

mutual

def readNode : ℕ → List UInt8 → Option (Node × List UInt8)
  | 0, _ => none
  | _ + 1, [] => none
  | fuel + 1, b :: t =>
    if b = byte '~' then some (.null, t)
    else if b = byte '[' then (readItems fuel t).map fun r => (.sequence r.1, r.2)
    else if b = byte '\x7b' then (readEntries fuel t).map fun r => (.map r.1, r.2)
    else (readScalar (b :: t)).map fun r => (.scalar r.1, r.2)

def readItems : ℕ → List UInt8 → Option (List Node × List UInt8)
  | 0, _ => none
  | fuel + 1, t =>
    match readNode fuel t with
    | none => (expect (byte ']') t).map ([], ·)
    | some (n, t) => do
      let t ← expect (byte ',') t
      let r ← readItems fuel t
      pure (n :: r.1, r.2)

def readEntries : ℕ → List UInt8 → Option (List (List UInt8 × Node) × List UInt8)
  | 0, _ => none
  | fuel + 1, t =>
    match readScalar t with
    | none => (expect (byte '\x7d') t).map ([], ·)
    | some (key, t) => do
      let t ← expect (byte ':') t
      let t ← expect (byte ' ') t
      let (node, t) ← readNode fuel t
      let t ← expect (byte ',') t
      let r ← readEntries fuel t
      pure ((key, node) :: r.1, r.2)

end

/-- A document, which is null when it is empty. -/
def read (t : List UInt8) : Option Node :=
  if t.isEmpty then some .null
  else
    match readNode t.length t with
    | some (n, []) => some n
    | _ => none

/-- What follows does not continue a scalar. -/
def Stops (t : List UInt8) : Prop := ∀ b ∈ t.head?, isWordByte b = false ∧ b ≠ byte '\''

theorem stops_nil : Stops [] := nofun

theorem stops_cons {b : UInt8} {t : List UInt8} (h : isWordByte b = false ∧ b ≠ byte '\'') :
    Stops (b :: t) := by
  intro c hc
  cases hc
  exact h

@[simp] theorem expect_cons (b : UInt8) (t : List UInt8) : expect b (b :: t) = some t := if_pos rfl

theorem readQuoted_cons {b : UInt8} (hb : b ≠ byte '\'') (t : List UInt8) :
    readQuoted (b :: t) = (readQuoted t).map fun r => (b :: r.1, r.2) := by
  rw [readQuoted.eq_def]
  exact if_neg hb

theorem readQuoted_quoted {rest : List UInt8} (h : Stops rest) (t : List UInt8) :
    readQuoted (quoted t ++ rest) = some (t, rest) := by
  induction t with
  | nil =>
    cases rest with
    | nil => rfl
    | cons c rest =>
      have hc : c ≠ byte '\'' := (h c rfl).2
      simp [quoted, readQuoted, hc]
  | cons b t ih =>
    by_cases hb : b = byte '\''
    · simp [quoted, readQuoted, hb, ih]
    · simp [quoted, readQuoted_cons hb, hb, ih]

/-- A plain scalar is read to its end. -/
theorem word_append {t rest : List UInt8} (ht : t.all isWordByte = true) (h : Stops rest) :
    (t ++ rest).takeWhile isWordByte = t ∧ (t ++ rest).dropWhile isWordByte = rest := by
  have hall : ∀ b ∈ t, isWordByte b = true := List.all_eq_true.mp ht
  rw [List.takeWhile_append_of_pos hall, List.dropWhile_append_of_pos hall]
  cases rest with
  | nil => simp
  | cons b rest => simp [(h b rfl).1]

theorem expect_ne {b c : UInt8} (h : c ≠ b) (t : List UInt8) : expect b (c :: t) = none := if_neg h

theorem readScalar_printScalar {rest : List UInt8} (h : Stops rest) (t : List UInt8) :
    readScalar (printScalar t ++ rest) = some (t, rest) := by
  rw [printScalar]
  split_ifs with ht
  · rw [isPlain, Bool.and_eq_true] at ht
    cases t with
    | nil => cases ht.1
    | cons b t =>
      have hb : b ≠ byte '\'' := by
        rintro rfl
        cases List.all_eq_true.mp ht.2 _ List.mem_cons_self
      have hword := word_append ht.2 h
      rw [readScalar]
      rw [List.cons_append] at hword ⊢
      simp [expect_ne hb, hword]
  · simp [readScalar, readQuoted_quoted h]

theorem printScalar_eq_cons (t : List UInt8) :
    ∃ b u, printScalar t = b :: u ∧ (isWordByte b = true ∨ b = byte '\'') := by
  rw [printScalar]
  split_ifs with ht
  · rw [isPlain, Bool.and_eq_true] at ht
    cases t with
    | nil => cases ht.1
    | cons b t => exact ⟨b, t, rfl, .inl (List.all_eq_true.mp ht.2 _ List.mem_cons_self)⟩
  · exact ⟨_, _, rfl, .inr rfl⟩

theorem readNode_printScalar {rest : List UInt8} (h : Stops rest) (t : List UInt8) (fuel : ℕ) :
    readNode (fuel + 1) (printScalar t ++ rest) = some (.scalar t, rest) := by
  have hread := readScalar_printScalar h t
  rcases printScalar_eq_cons t with ⟨b, u, hprint, hb⟩
  rw [hprint, List.cons_append] at hread ⊢
  have hne : b ≠ byte '~' ∧ b ≠ byte '[' ∧ b ≠ byte '\x7b' := by
    refine ⟨?_, ?_, ?_⟩ <;>
    · rintro rfl
      revert hb
      decide
  rw [readNode, if_neg hne.1, if_neg hne.2.1, if_neg hne.2.2, hread]
  rfl

theorem print_length_pos (n : Node) : 0 < (print n).length := by
  cases n with
  | scalar t =>
    rcases printScalar_eq_cons t with ⟨b, u, hprint, -⟩
    rw [print, hprint]
    exact Nat.succ_pos _
  | _ =>
    rw [print]
    exact Nat.succ_pos _

theorem stops_comma (t : List UInt8) : Stops (byte ',' :: t) := stops_cons (by decide)

theorem stops_colon (t : List UInt8) : Stops (byte ':' :: t) := stops_cons (by decide)

/-- No node begins with a closing bracket. -/
theorem readNode_bracket (fuel : ℕ) (rest : List UInt8) :
    readNode fuel (byte ']' :: rest) = none := by
  cases fuel <;> rfl

theorem readScalar_brace (rest : List UInt8) : readScalar (byte '\x7d' :: rest) = none := rfl

mutual

theorem readNode_print (n : Node) (fuel : ℕ) (rest : List UInt8) (h : Stops rest)
    (hfuel : (print n).length ≤ fuel) : readNode fuel (print n ++ rest) = some (n, rest) := by
  cases fuel with
  | zero => exact absurd (print_length_pos n) (Nat.not_lt.mpr hfuel)
  | succ fuel =>
    cases n with
    | null => rfl
    | scalar t => exact readNode_printScalar h t fuel
    | sequence items =>
      rw [print, List.length_cons] at hfuel
      have hitems := readItems_print items fuel rest (Nat.le_of_succ_le_succ hfuel)
      rw [print, List.cons_append, readNode, if_neg (by decide), if_pos rfl, hitems]
      rfl
    | map entries =>
      rw [print, List.length_cons] at hfuel
      have hentries := readEntries_print entries fuel rest (Nat.le_of_succ_le_succ hfuel)
      rw [print, List.cons_append, readNode, if_neg (by decide), if_neg (by decide), if_pos rfl,
        hentries]
      rfl

theorem readItems_print (items : List Node) (fuel : ℕ) (rest : List UInt8)
    (hfuel : (printItems items).length ≤ fuel) :
    readItems fuel (printItems items ++ rest) = some (items, rest) := by
  cases fuel with
  | zero => cases items <;> simp [printItems] at hfuel
  | succ fuel =>
    cases items with
    | nil =>
      rw [printItems, List.cons_append, readItems, readNode_bracket]
      rfl
    | cons n items =>
      simp only [printItems, List.length_append, List.length_cons] at hfuel
      have hn := readNode_print n fuel _ (stops_comma (printItems items ++ rest)) (by omega)
      have hitems := readItems_print items fuel rest (by omega)
      rw [printItems, List.append_assoc, List.cons_append, readItems, hn]
      simp [hitems]

theorem readEntries_print (entries : List (List UInt8 × Node)) (fuel : ℕ) (rest : List UInt8)
    (hfuel : (printEntries entries).length ≤ fuel) :
    readEntries fuel (printEntries entries ++ rest) = some (entries, rest) := by
  cases fuel with
  | zero => cases entries <;> simp [printEntries] at hfuel
  | succ fuel =>
    match entries with
    | [] =>
      rw [printEntries, List.cons_append, readEntries, List.nil_append, readScalar_brace]
      rfl
    | (key, node) :: entries =>
      simp only [printEntries, printEntry, List.length_append, List.length_cons] at hfuel
      have hkey := readScalar_printScalar (stops_colon (byte ' ' :: (print node ++ byte ',' ::
        (printEntries entries ++ rest)))) key
      have hnode := readNode_print node fuel _ (stops_comma (printEntries entries ++ rest))
        (by omega)
      have hentries := readEntries_print entries fuel rest (by omega)
      rw [printEntries, printEntry]
      simp only [List.append_assoc, List.cons_append]
      rw [readEntries, hkey]
      simp [hnode, hentries]

end

/-- What is printed is read back. -/
theorem read_print (n : Node) : read (print n) = some n := by
  have hread := readNode_print n _ [] stops_nil le_rfl
  rw [List.append_nil] at hread
  rw [read, if_neg (by simpa using List.ne_nil_of_length_pos (print_length_pos n)), hread]

end Sylar.Config.Flow
