import Mathlib.Logic.Function.Basic
import Sylar.Http.Request

/-! # `Env`

The arguments of the process: `-key` or `-key value`, in any number. `init` reads them word by word
and keeps the key that may still get a value.
-/
namespace Sylar.Env
open Http (byte)

abbrev Word := List UInt8

/-- `m_args`. -/
abbrev Args := Word → Option Word

def add (m : Args) (key val : Word) : Args := Function.update m key (some val)

/-- The key that has no value. -/
def addKey (m : Args) (key : Option Word) : Args := key.elim m fun k => add m k []

/-- The loop of `init` with `now_key`: what is returned, and the arguments so far. -/
def read : Option Word → List Word → Args → Bool × Args
  | key, [], m => (true, addKey m key)
  | key, arg :: argv, m =>
    if arg.head? = some (byte '-') then
      if arg.length > 1 then read (some arg.tail) argv (addKey m key) else (false, m)
    else
      match key with
      | some k => read none argv (add m k arg)
      | none => (false, m)

/-- `Env::init`, the first word being the name of the program. -/
def init (argv : List Word) (m : Args) : Bool × Args := read none argv.tail m

/-- A key, and a value that cannot be taken for one. -/
structure Flag where
  key : Word
  value : Option Word
  key_ne : key ≠ []
  plain : ∀ v ∈ value, v.head? ≠ some (byte '-')

def Flag.words (f : Flag) : List Word := (byte '-' :: f.key) :: f.value.toList

def Flag.store (m : Args) (f : Flag) : Args := add m f.key (f.value.getD [])

variable {m : Args} {argv : List Word} {key : Option Word}

theorem read_cons (arg : Word) :
    read key (arg :: argv) m =
      if arg.head? = some (byte '-') then
        if arg.length > 1 then read (some arg.tail) argv (addKey m key) else (false, m)
      else key.elim (false, m) fun k => read none argv (add m k arg) := by
  cases key <;> rfl

theorem read_flag (f : Flag) :
    read key (f.words ++ argv) m = read (if f.value = none then some f.key else none) argv
      (if f.value = none then addKey m key else f.store (addKey m key)) := by
  have hkey : (byte '-' :: f.key).length > 1 := Nat.succ_lt_succ (List.length_pos_iff.mpr f.key_ne)
  rw [Flag.words, List.cons_append, read_cons, List.head?_cons, if_pos rfl, if_pos hkey,
    List.tail_cons]
  cases hvalue : f.value with
  | none => rfl
  | some v =>
    rw [Option.toList_some, List.singleton_append, read_cons, if_neg (f.plain v hvalue),
      if_neg (Option.some_ne_none v), if_neg (Option.some_ne_none v), Flag.store, hvalue]
    rfl

theorem read_flags (fs : List Flag) :
    read key (fs.flatMap Flag.words) m = (true, fs.foldl Flag.store (addKey m key)) := by
  induction fs generalizing key m with
  | nil => rfl
  | cons f fs ih =>
    rw [List.flatMap_cons, read_flag, ih, List.foldl_cons]
    cases hvalue : f.value with
    | none => rw [if_pos rfl, if_pos rfl, Flag.store, hvalue]; rfl
    | some v => rw [if_neg (Option.some_ne_none v), if_neg (Option.some_ne_none v)]; rfl

/-- Words that are read to their end are flags, behind the value of the key before them. -/
theorem flags_of_read (h : (read key argv m).1 = true) :
    ∃ (v : Option Word) (fs : List Flag), argv = v.toList ++ fs.flatMap Flag.words ∧
      (∀ x ∈ v, key.isSome ∧ x.head? ≠ some (byte '-')) := by
  induction argv generalizing key m with
  | nil => exact ⟨none, [], rfl, by simp⟩
  | cons arg argv ih =>
    rw [read_cons] at h
    split_ifs at h with hdash hlong
    · obtain ⟨v, fs, rfl, hv⟩ := ih h
      obtain ⟨b, k, rfl⟩ := List.exists_cons_of_length_pos (Nat.zero_lt_of_lt hlong)
      cases hdash
      refine ⟨none, ⟨k, v, ?_, fun x hx => (hv x hx).2⟩ :: fs, ?_, by simp⟩
      · rintro rfl
        exact absurd hlong (by decide)
      · simp [Flag.words]
    · cases key with
      | none => cases h
      | some k =>
        obtain ⟨v, fs, rfl, hv⟩ := ih h
        cases v with
        | none => exact ⟨some arg, fs, rfl, by simpa using hdash⟩
        | some x => exact absurd (hv x rfl).1 Bool.false_ne_true

/-- `init` accepts the words of flags and no others, and stores every flag in turn. -/
theorem init_iff (program : Word) (argv : List Word) (m : Args) :
    ((init (program :: argv) m).1 = true ↔ ∃ fs : List Flag, argv = fs.flatMap Flag.words) ∧
      ∀ fs : List Flag,
        init (program :: fs.flatMap Flag.words) m = (true, fs.foldl Flag.store m) := by
  have hflags (fs : List Flag) : init (program :: fs.flatMap Flag.words) m = _ := read_flags fs
  refine ⟨⟨fun h => ?_, ?_⟩, hflags⟩
  · obtain ⟨v, fs, rfl, hv⟩ := flags_of_read h
    cases v with
    | none => exact ⟨fs, rfl⟩
    | some x => exact absurd (hv x rfl).1 Bool.false_ne_true
  · rintro ⟨fs, rfl⟩
    rw [hflags]

end Sylar.Env
