import Sylar.ByteArray.Cursor

/-! # Loading a file into a `ByteArray`

`readFromFile` stops at the end of the file only: a stream in an error state delivers nothing and
never has `eofbit`, so the loop goes round for ever.
-/
namespace Sylar.ByteArray
open Memory

/-- What a read leaves in the state of the stream: no bit, `eofbit`, or an error without it. -/
inductive Report where
  | success
  | eof
  | error
deriving DecidableEq, Repr

/-- How an open file answers the successive reads into a buffer of `n` bytes. -/
structure Source (n : ℕ) where
  bytes : ℕ → List UInt8
  report : ℕ → Report
  fits : ∀ k, (bytes k).length ≤ n

/-- The state of a `std::ifstream`, with the number of reads that have been answered. -/
structure Ifstream where
  reads : ℕ
  eof : Bool
  fail : Bool

variable {n : ℕ}

/-- `ifs.read`: the bytes counted by `gcount()`. A stream in any error state delivers nothing. -/
def Ifstream.read (file : Source n) (ifs : Ifstream) : List UInt8 × Ifstream :=
  if ifs.eof || ifs.fail then ([], { ifs with fail := true })
  else (file.bytes ifs.reads, ⟨ifs.reads + 1, file.report ifs.reads = .eof,
    file.report ifs.reads ≠ .success⟩)

/-- `while(!ifs.eof())` -/
def loadLoop (file : Source n) : ℕ → Ifstream → Cmd Unit
  | 0, _ => Command.abort .fuelExhausted
  | fuel + 1, ifs =>
    if ifs.eof then pure ()
    else do
      write (ifs.read file).1
      loadLoop file fuel (ifs.read file).2

/-- `readFromFile` after a successful open; `n` is `m_baseSize`. -/
def readFromFile (fuel : ℕ) (file : Source n) : Cmd Unit := loadLoop file fuel ⟨0, false, false⟩

namespace Source

def delivered (file : Source n) (k : ℕ) : List UInt8 := (List.range k).flatMap file.bytes

def Succeeds (file : Source n) (k : ℕ) : Prop := ∀ j < k, file.report j = .success

theorem delivered_succ (file : Source n) (k : ℕ) :
    file.delivered (k + 1) = file.delivered k ++ file.bytes k := by
  simp [delivered, List.range_succ]

theorem Succeeds.succ {file : Source n} {k : ℕ} (h : file.Succeeds k)
    (hk : file.report k = .success) : file.Succeeds (k + 1) := by
  intro j hj
  rcases Nat.lt_succ_iff_lt_or_eq.mp hj with hlt | rfl
  · exact h j hlt
  · exact hk

theorem exists_first {file : Source n} {m : ℕ} (h : ¬file.Succeeds m) :
    ∃ k < m, file.Succeeds k ∧ file.report k ≠ .success := by
  induction m with
  | zero => exact absurd (fun j hj => absurd hj (Nat.not_lt_zero j)) h
  | succ m ih =>
    by_cases hm : file.Succeeds m
    · exact ⟨m, Nat.lt_succ_self m, hm, fun hk => h (hm.succ hk)⟩
    · rcases ih hm with ⟨k, hlt, hk⟩
      exact ⟨k, by omega, hk⟩

/-- A file with the bytes `l` that is read without an error. -/
def ofList (n : ℕ) (l : List UInt8) : Source n where
  bytes k := (l.drop (k * n)).take n
  report k := if (k + 1) * n ≤ l.length then .success else .eof
  fits k := by simp

theorem delivered_ofList (n : ℕ) (l : List UInt8) (k : ℕ) :
    (ofList n l).delivered k = l.take (k * n) := by
  induction k with
  | zero => simp [delivered]
  | succ k ih => rw [delivered_succ, ih, ofList, Nat.succ_mul, List.take_add]

end Source

section Loading

variable {b : ℕ} {s s₁ : ByteArray} {as : List ℕ} (file : Source b)

theorem loadLoop_step (ifs : Ifstream) (heof : ifs.eof = false) (fuel : ℕ)
    (h : write (ifs.read file).1 s = .done () s₁) :
    loadLoop file (fuel + 1) ifs s = loadLoop file fuel (ifs.read file).2 s₁ := by
  rw [loadLoop, if_neg (by simp [heof]), Command.bind_done h]

/-- After `k` successful reads the loop has stored their bytes and asks again. -/
theorem loadLoop_succeeds (hl : Layout b s as) {k : ℕ} (h : file.Succeeds k) (fuel : ℕ) :
    ∃ s₁ as₁, Stores b s as (file.delivered k) s₁ as₁ ∧
      loadLoop file (fuel + k) ⟨0, false, false⟩ s = loadLoop file fuel ⟨k, false, false⟩ s₁ := by
  induction k generalizing fuel with
  | zero => exact ⟨s, as, .nil hl, rfl⟩
  | succ k ih =>
    rcases ih (fun j hj => h j (by omega)) (fuel + 1) with ⟨s₁, as₁, hst₁, hrun₁⟩
    rcases write_stores hst₁.layout (file.bytes k) with ⟨s₂, as₂, hwrite, hst₂, -⟩
    refine ⟨s₂, as₂, ?_, ?_⟩
    · rw [file.delivered_succ]
      exact hst₁.trans hl hst₂
    · have hread : Ifstream.read file ⟨k, false, false⟩ =
          (file.bytes k, ⟨k + 1, false, false⟩) := by
        simp [Ifstream.read, h k (by omega)]
      have hstep := loadLoop_step file ⟨k, false, false⟩ rfl fuel (by rwa [hread])
      rw [show fuel + (k + 1) = fuel + 1 + k by omega, hrun₁, hstep, hread]

/-- A stream with an error is asked again and again. -/
theorem loadLoop_failed (fuel k : ℕ) (s : ByteArray) :
    loadLoop file fuel ⟨k, false, true⟩ s = .fault .fuelExhausted := by
  induction fuel with
  | zero => rfl
  | succ fuel ih => exact (loadLoop_step file _ rfl fuel rfl).trans ih

/-- The loop ends with a read that reports the end of the file. -/
theorem loadLoop_eof (hl : Layout b s as) {k : ℕ} (h : file.Succeeds k)
    (heof : file.report k = .eof) :
    ∃ s₁ as₁, loadLoop file (2 + k) ⟨0, false, false⟩ s = .done () s₁ ∧
      Stores b s as (file.delivered (k + 1)) s₁ as₁ := by
  rcases loadLoop_succeeds file hl h 2 with ⟨s₁, as₁, hst₁, hrun₁⟩
  rcases write_stores hst₁.layout (file.bytes k) with ⟨s₂, as₂, hwrite, hst₂, -⟩
  have hread : Ifstream.read file ⟨k, false, false⟩ = (file.bytes k, ⟨k + 1, true, true⟩) := by
    simp [Ifstream.read, heof]
  have hstep := loadLoop_step file ⟨k, false, false⟩ rfl 1 (by rwa [hread])
  refine ⟨s₂, as₂, ?_, ?_⟩
  · rw [hrun₁, hstep, hread]
    rfl
  · rw [file.delivered_succ]
    exact hst₁.trans hl hst₂

theorem loadLoop_never (hl : Layout b s as)
    (h : ∀ k, file.Succeeds k → file.report k ≠ .eof) (fuel : ℕ) :
    loadLoop file fuel ⟨0, false, false⟩ s = .fault .fuelExhausted := by
  by_cases hall : file.Succeeds fuel
  · rcases loadLoop_succeeds file hl hall 0 with ⟨s₁, as₁, -, hrun⟩
    rw [Nat.zero_add] at hrun
    exact hrun
  · rcases Source.exists_first hall with ⟨k, hlt, hk, hreport⟩
    have herror : file.report k = .error := by
      cases hr : file.report k with
      | success => exact absurd hr hreport
      | eof => exact absurd hr (h k hk)
      | error => rfl
    rcases loadLoop_succeeds file hl hk (fuel - k) with ⟨s₁, as₁, hst, hrun⟩
    rcases write_stores hst.layout (file.bytes k) with ⟨s₂, as₂, hwrite, -, -⟩
    have hread : Ifstream.read file ⟨k, false, false⟩ = (file.bytes k, ⟨k + 1, false, true⟩) := by
      simp [Ifstream.read, herror]
    have hstep := loadLoop_step file ⟨k, false, false⟩ rfl (fuel - k - 1)
      (by rwa [hread])
    rw [show fuel - k - 1 + 1 = fuel - k by omega, hread, loadLoop_failed] at hstep
    rw [show fuel - k + k = fuel by omega, hstep] at hrun
    exact hrun

/-- `readFromFile` returns, with the bytes that were delivered up to the end or the error stored
at the cursor. -/
def Loads (file : Source b) (s : ByteArray) (as : List ℕ) : Prop :=
  ∃ fuel k s₁ as₁, file.Succeeds k ∧ file.report k ≠ .success ∧
    readFromFile fuel file s = .done () s₁ ∧ Stores b s as (file.delivered (k + 1)) s₁ as₁

/-- `readFromFile` returns with what was delivered exactly if successful reads lead to the end of
the file. -/
theorem loads_iff (hl : Layout b s as) :
    Loads file s as ↔ ∃ k, file.report k = .eof ∧ ∀ j < k, file.report j = .success := by
  constructor
  · rintro ⟨fuel, k, s₁, as₁, -, -, hrun, -⟩
    by_contra hno
    have hnever := loadLoop_never file hl (fun k hk heof => hno ⟨k, heof, hk⟩) fuel
    rw [readFromFile, hnever] at hrun
    cases hrun
  · rintro ⟨k, heof, hk⟩
    rcases loadLoop_eof file hl hk heof with ⟨s₁, as₁, hrun, hst⟩
    exact ⟨2 + k, k, s₁, as₁, hk, by simp [heof], hrun, hst⟩

/-- Two full blocks, and a read that finds nothing but the end. -/
theorem loads_two : Loads (.ofList 1 [1, 2]) (new 1) [0] := by
  refine (loads_iff _ (new_layout (by decide))).mpr ⟨2, by decide, ?_⟩
  decide

/-- An error in the first read: no number of rounds is enough. -/
theorem error_never_ends :
    ¬∃ fuel s, readFromFile fuel (n := 4) ⟨fun _ => [], fun _ => .error, fun _ => by simp⟩
      (new 4) = .done () s := by
  rintro ⟨fuel, s, hrun⟩
  rw [readFromFile, loadLoop_never _ (new_layout (by decide)) (fun k _ => by simp)] at hrun
  cases hrun

/-- A whole file, loaded into an empty array and read from its first byte. -/
theorem readFromFile_ofList (hb : 1 ≤ b) (l : List UInt8) :
    ∃ fuel s₁ s₂, readFromFile fuel (.ofList b l) (new b) = .done () s₁ ∧
      setPosition 0 s₁ = .done () s₂ ∧ toString s₂ = .done (l.map some) s₂ := by
  have hl := new_layout (b := b) hb
  have hlast : l.length < (l.length / b + 1) * b := by
    rw [Nat.succ_mul]
    have := Nat.div_add_mod' l.length b
    have := Nat.mod_lt l.length hb
    omega
  have hk : (Source.ofList b l).Succeeds (l.length / b) := by
    intro j hj
    have hle : (j + 1) * b ≤ l.length :=
      (Nat.mul_le_mul_right b hj).trans (Nat.div_mul_le_self _ _)
    exact if_pos hle
  rcases loadLoop_eof (.ofList b l) hl hk (if_neg (Nat.not_le.mpr hlast)) with
    ⟨s₁, as₁, hrun, hst⟩
  rw [Source.delivered_ofList, List.take_of_length_le hlast.le] at hst
  rcases setPosition_spec hst.layout (v := 0) (Nat.zero_le _) with ⟨hseek, hl₂⟩
  refine ⟨_, s₁, _, hrun, hseek, ?_⟩
  have hstored : (contents s₁.heap as₁).take s₁.size = l.map some := by
    change stored s₁ as₁ = _
    rw [hst.stored_eq hl]
    simp [stored, new, splice]
  rw [toString_spec hl₂]
  simp [hstored]

end Loading

end Sylar.ByteArray
