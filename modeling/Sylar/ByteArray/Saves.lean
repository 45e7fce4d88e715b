import Sylar.ByteArray.Files
import Sylar.Stream.Loop

/-! # Saving a `ByteArray` to a file

`writeToFile` takes the offset in the first node off the length of a block also where less than a
block is left, and keeps the offset in an `int`.
-/
namespace Sylar.ByteArray
open Memory
open Sylar.Stream (toInt toInt_eq_self_iff)

/-- `ofs.write(cur->ptr+diff, len)`: the bytes that go to the file. -/
def copyOut (cur : Option ℕ) (diff len : ℤ) : Cmd (List Cell) := do
  let n ← deref cur
  if 0 ≤ diff ∧ 0 ≤ len ∧ diff + len ≤ n.ptr.length then
    pure ((n.ptr.drop diff.toNat).take len.toNat)
  else Command.abort .outOfBounds

/-- `while(read_size > 0)`; `ofs` is what the file holds. -/
def saveLoop : ℕ → ℤ → ℤ → Option ℕ → List Cell → Cmd (List Cell)
  | 0, _, _, _, _ => Command.abort .fuelExhausted
  | fuel + 1, readSize, pos, cur, ofs =>
    if readSize > 0 then do
      let s ← Command.state
      let diff := toInt (pos % s.baseSize).toNat
      let len := (if readSize > s.baseSize then (s.baseSize : ℤ) else readSize) - diff
      let d ← copyOut cur diff len
      let n ← deref cur
      saveLoop fuel (readSize - len) (pos + len) n.next (ofs ++ d)
    else pure ofs

/-- `writeToFile` after a successful open. -/
def writeToFile (fuel : ℕ) : Cmd (List Cell) := do
  let s ← Command.state
  saveLoop fuel s.getSizeForRead s.position s.cur []

variable {b : ℕ} {s : ByteArray} {as : List ℕ} {r p i : ℕ} {ofs : List Cell}

section Rounds

theorem offset_natCast (p b : ℕ) : ((p : ℤ) % (b : ℤ)).toNat = p % b := by
  rw [← Int.natCast_mod, Int.toNat_natCast]

theorem saveLoop_null (ofs : List Cell) (fuel : ℕ) (hr : 0 < r) (pos : ℤ) :
    ∃ x, saveLoop fuel r pos none ofs s = .fault x := by
  cases fuel with
  | zero => exact ⟨_, rfl⟩
  | succ fuel =>
    rw [saveLoop, if_pos (by omega)]
    exact ⟨_, rfl⟩

variable (hs : Spine b s.heap s.root as) (hbase : s.baseSize = b)
include hs hbase

theorem saveLoop_write (ofs : List Cell) (fuel : ℕ) (hr : 0 < r) {a e : ℕ} (ha : as[i]? = some a)
    (he : toInt (p % b) = e) (hle : e ≤ min r b) :
    saveLoop (fuel + 1) r p as[i]? ofs s =
      saveLoop fuel (r - (min r b - e) : ℕ) (p + (min r b - e) : ℕ) as[i + 1]?
        (ofs ++ ((contents s.heap as).drop (i * b + e)).take (min r b - e)) s := by
  rcases hs.node_at ha with ⟨n, hn, hnext, -, hptr⟩
  have hlen : (if (r : ℤ) > b then (b : ℤ) else r) - e = ((min r b - e : ℕ) : ℤ) := by
    split <;> omega
  have hcopy : copyOut (some a) e (min r b - e : ℕ) s =
      .done (((contents s.heap as).drop (i * b + e)).take (min r b - e)) s := by
    rw [copyOut, Command.bind_done (deref_eq rfl hn), if_pos (by omega), Int.toNat_natCast,
      Int.toNat_natCast, hs.read_node ha hn (by omega), Command.pure_apply]
  rw [saveLoop, if_pos (by omega), Command.state_bind_apply]
  rw [hbase, offset_natCast, he, hlen, ha, Command.bind_done hcopy,
    Command.bind_done (deref_eq rfl hn), hnext]
  congr 1
  omega

theorem saveLoop_outside (ofs : List Cell) (fuel : ℕ) (hr : 0 < r)
    (hbad : toInt (p % b) < 0 ∨ (min r b : ℕ) < toInt (p % b)) :
    ∃ x, saveLoop fuel r p as[i]? ofs s = .fault x := by
  cases fuel with
  | zero => exact ⟨_, rfl⟩
  | succ fuel =>
    cases ha : as[i]? with
    | none => exact saveLoop_null ofs (fuel + 1) hr p
    | some a =>
      rcases hs.node_at ha with ⟨n, hn, -, -, -⟩
      rw [saveLoop, if_pos (by omega), Command.state_bind_apply]
      rw [hbase, offset_natCast]
      have hcopy : copyOut (some a) (toInt (p % b))
          ((if (r : ℤ) > b then (b : ℤ) else r) - toInt (p % b)) s = .fault .outOfBounds := by
        rw [copyOut, Command.bind_done (deref_eq rfl hn), if_neg, Command.abort_apply]
        split <;> omega
      exact ⟨_, Command.bind_fault hcopy _⟩

theorem saveLoop_stuck (ofs : List Cell) (fuel : ℕ) (hr : 0 < r) (he : toInt (p % b) = r) (hle : r ≤ b) :
    ∃ x, saveLoop fuel r p as[i]? ofs s = .fault x := by
  induction fuel generalizing i ofs with
  | zero => exact ⟨_, rfl⟩
  | succ fuel ih =>
    cases ha : as[i]? with
    | none => exact saveLoop_null ofs (fuel + 1) hr p
    | some a =>
      have hround := saveLoop_write hs hbase ofs fuel hr ha he (by omega)
      rw [show min r b - r = 0 by omega] at hround
      rw [← ha, hround]
      exact ih _

/-- From the beginning of a node on, the loop copies what is left. -/
theorem saveLoop_aligned (fuel : ℕ) (hp : p % b = 0) (hroom : p + r ≤ as.length * b)
    (hfuel : r < fuel) :
    saveLoop fuel r p as[p / b]? ofs s =
      .done (ofs ++ ((contents s.heap as).drop p).take r) s := by
  induction fuel generalizing r p ofs with
  | zero => omega
  | succ fuel ih =>
    by_cases hr : r = 0
    · subst hr
      simp [saveLoop]
    have hb := hs.pos
    rcases hs.exists_node (p := p) (by omega) with ⟨a, ha⟩
    have hround := saveLoop_write hs hbase ofs fuel (Nat.pos_of_ne_zero hr) ha
      (show toInt (p % b) = (0 : ℕ) by rw [hp]; rfl) (Nat.zero_le _)
    have hstart : p / b * b + 0 = p := by
      have := Nat.div_add_mod' p b
      omega
    rw [hround, Nat.sub_zero, hstart]
    by_cases hmore : r ≤ b
    · rw [min_eq_left hmore, Nat.sub_self]
      obtain ⟨fuel, rfl⟩ : ∃ f, fuel = f + 1 := ⟨fuel - 1, by omega⟩
      simp [saveLoop]
    · have hnext : (p + b) / b = p / b + 1 := Nat.add_div_right p hb
      rw [min_eq_right (by omega), ← hnext, ih (by rw [Nat.add_mod_right, hp]) (by omega) (by omega),
        List.append_assoc, ← take_add_drop, Nat.add_sub_cancel' (by omega)]

end Rounds

section Misplaced

variable {n : ℕ}

theorem saveLoop_extends (fuel : ℕ) {readSize pos : ℤ} {cur : Option ℕ} {file : List Cell}
    {s s' : ByteArray} (h : saveLoop fuel readSize pos cur ofs s = .done file s') :
    ofs <+: file := by
  induction fuel generalizing readSize pos cur ofs s with
  | zero => cases h
  | succ fuel ih =>
    rw [saveLoop] at h
    by_cases hr : readSize > 0
    · rw [if_pos hr, Command.state_bind_apply] at h
      rcases Command.bind_eq_done.mp h with ⟨d, s₁, -, h₁⟩
      rcases Command.bind_eq_done.mp h₁ with ⟨node, s₂, -, h₂⟩
      exact (List.prefix_append ofs d).trans (ih h₂)
    · rw [if_neg hr] at h
      cases h
      exact List.prefix_rfl

theorem toInt_le (x : ℕ) : toInt x ≤ x := by
  rw [toInt]
  split <;> omega

/-- If the loop returns, its first byte comes from the offset that the source computes. -/
theorem saveLoop_first (hs : Spine b s.heap s.root as) (hbase : s.baseSize = b) {fuel : ℕ}
    {file : List Cell} {s' : ByteArray} (hr : 0 < r)
    (h : saveLoop fuel r p as[i]? ofs s = .done file s') :
    file[ofs.length]? = (contents s.heap as)[i * b + (toInt (p % b)).toNat]? := by
  have hblock := Nat.mod_lt p hs.pos
  have hcast := toInt_le (p % b)
  by_cases hout : toInt (p % b) < 0 ∨ (min r b : ℕ) < toInt (p % b)
  · rcases saveLoop_outside hs hbase ofs fuel hr hout with ⟨x, hx⟩
    rw [hx] at h
    cases h
  rcases Int.eq_ofNat_of_zero_le (show 0 ≤ toInt (p % b) by omega) with ⟨e, he⟩
  by_cases heq : e = r
  · rcases saveLoop_stuck hs hbase ofs fuel hr (by rw [he, heq]) (by omega) with ⟨x, hx⟩
    rw [hx] at h
    cases h
  cases fuel with
  | zero => cases h
  | succ fuel =>
    cases ha : as[i]? with
    | none =>
      rcases saveLoop_null (s := s) ofs (fuel + 1) hr p with ⟨x, hx⟩
      rw [ha, hx] at h
      cases h
    | some a =>
      have hroom := node_lt (q := e) (List.getElem?_eq_some_iff.mp ha).1 (show e < b by omega)
      rw [saveLoop_write hs hbase ofs fuel hr ha he (by omega)] at h
      rcases saveLoop_extends fuel h with ⟨rest, rfl⟩
      rw [he, Int.toNat_natCast, List.append_assoc, List.getElem?_append_right le_rfl,
        Nat.sub_self, List.getElem?_append_left
          (by rw [List.length_take, List.length_drop, hs.length_contents]; omega),
        List.getElem?_take_of_lt (by omega), List.getElem?_drop, Nat.add_zero]

theorem writeToFile_eq (hl : Layout b s as) (fuel : ℕ) :
    writeToFile fuel s =
      saveLoop fuel (s.size - s.position : ℕ) s.position as[s.position / b]? [] s := by
  rw [writeToFile, Command.state_bind_apply, hl.sizeForRead, hl.cur]

theorem writeToFile_short (hl : Layout b s as) (fuel : ℕ) (hsmall : s.position % b < 2 ^ 31)
    (hr : 0 < s.size - s.position) (hle : s.size - s.position ≤ s.position % b) :
    ∃ x, writeToFile fuel s = .fault x := by
  have hint := toInt_eq_self_iff.mpr hsmall
  have hmod := Nat.mod_lt s.position hl.spine.pos
  rw [writeToFile_eq hl]
  rcases hle.lt_or_eq with hlt | heq
  · exact saveLoop_outside hl.spine hl.base _ fuel hr (.inr (by omega))
  · exact saveLoop_stuck hl.spine hl.base _ fuel hr (hint.trans (by rw [heq])) (by omega)

/-- Less than a block is left, but more than the offset: the first round stops too early. -/
theorem writeToFile_second (hl : Layout b s as) (fuel : ℕ) (hsmall : s.position % b < 2 ^ 31)
    (hgt : s.position % b < s.size - s.position) (hlt : s.size - s.position < b) :
    writeToFile (fuel + 1) s = saveLoop fuel (s.position % b : ℕ)
      (s.position / b * b + (s.size - s.position) : ℕ) as[s.position / b + 1]?
      (((contents s.heap as).drop s.position).take (s.size - s.position - s.position % b)) s := by
  have hsize := hl.size_le
  have hmod := Nat.div_add_mod' s.position b
  rcases hl.spine.exists_node (p := s.position) (by rw [← hl.capacity]; omega) with ⟨a, ha⟩
  have hround := saveLoop_write hl.spine hl.base [] fuel (by omega) ha
    (toInt_eq_self_iff.mpr hsmall) (show _ ≤ min (s.size - s.position) b by omega)
  rw [writeToFile_eq hl, hround, min_eq_left hlt.le, List.nil_append, hmod,
    show s.size - s.position - (s.size - s.position - s.position % b) = s.position % b by omega,
    show s.position + (s.size - s.position - s.position % b) =
      s.position / b * b + (s.size - s.position) by omega]

theorem second_misplaced (hl : Layout b s as) (hsmall : s.position % b < 2 ^ 31)
    (hr : 0 < s.size - s.position) (hq : 0 < s.position % b) (hlt : s.size - s.position < b)
    {fuel : ℕ} {file : List Cell} {s' : ByteArray} (h : writeToFile fuel s = .done file s') :
    file[s.size - s.position - s.position % b]? =
      (contents s.heap as)[(s.position / b + 1) * b + (toInt (s.size - s.position)).toNat]? := by
  have hsize := hl.size_le
  by_cases hle : s.size - s.position ≤ s.position % b
  · rcases writeToFile_short hl fuel hsmall hr hle with ⟨x, hx⟩
    rw [hx] at h
    cases h
  rw [not_le] at hle
  cases fuel with
  | zero => cases h
  | succ fuel =>
    rw [writeToFile_second hl fuel hsmall hle hlt] at h
    have hfirst := saveLoop_first hl.spine hl.base hq h
    have hlen : (((contents s.heap as).drop s.position).take
        (s.size - s.position - s.position % b)).length =
        s.size - s.position - s.position % b := by
      rw [List.length_take, List.length_drop, hl.length_contents]
      omega
    rw [hlen, Nat.mul_comm (s.position / b), Nat.mul_add_mod, Nat.mod_eq_of_lt hlt] at hfirst
    exact hfirst

/-- A state with given cursor and size, one byte of which differs from all others. -/
theorem exists_marked (hb : 0 < b) (hp : p ≤ n) {m : ℕ} (hm : m < n) :
    ∃ s as, Layout b s as ∧ s.position = p ∧ s.size = n ∧
      ∀ k, (contents s.heap as)[k]? = some (some 1) ↔ k = m := by
  rcases write_stores (new_layout hb) ((List.replicate n 0).set m 1) with
    ⟨s, as, -, hst, -⟩
  have hsize : s.size = n := by
    rw [hst.size]
    simp [new]
  have hcap := hst.layout.size_le
  rcases setPosition_spec hst.layout (v := p) (by omega) with ⟨-, hl⟩
  refine ⟨_, as, hl, rfl, by simp only; omega, fun k => ?_⟩
  rcases hst.contents with ⟨pad, -, hcont⟩
  have hblank : contents (new b).heap [0] = List.replicate b none := by
    simp [contents, block, new, Heap.get, Heap.alloc, Heap.set, Heap.empty, Node.ofSize]
  have hstart : (new b).position = 0 := rfl
  dsimp only
  rw [hcont, hblank, hstart, ← List.replicate_add, getElem?_splice _ (Nat.zero_le _),
    if_neg (Nat.not_lt_zero k), List.length_map, List.length_set, List.length_replicate,
    Nat.zero_add, Nat.sub_zero, List.getElem?_map, List.getElem?_set, List.getElem?_replicate]
  by_cases hkm : m = k
  · subst hkm
    simp [hm]
  · by_cases hk : k < n
    · simp [hk, hkm, Ne.symm hkm]
    · rw [if_neg hk, List.getElem?_replicate]
      have hne : k ≠ m := fun h => hkm h.symm
      split <;> simp [hne]

end Misplaced

section Saves

/-- The file holds bytes for the cells: any byte at all for one that was never written. -/
def Holds (cells : List Cell) (l : List UInt8) : Prop :=
  List.Forall₂ (fun c x => c = some x ∨ c = none) cells l

/-- `writeToFile` returns with the array as it was and the bytes between cursor and size in the
file; loaded into an empty array, they are what `toString` shows from the beginning. -/
def Saves (s : ByteArray) (as : List ℕ) : Prop :=
  ∃ fuel file, writeToFile fuel s = .done file s ∧ file = unread s as ∧
    ∀ b' l, 1 ≤ b' → Holds file l → ∃ fuel' s₁ s₂,
      readFromFile fuel' (.ofList b' l) (new b') = .done () s₁ ∧
      setPosition 0 s₁ = .done () s₂ ∧ toString s₂ = .done (l.map some) s₂

/-- The cursor is at the size or at the beginning of a node, or a block or more is left and the
offset in the node is an `int`. -/
def Whole (b p n : ℕ) : Prop := p = n ∨ p % b = 0 ∨ (b ≤ n - p ∧ p % b < 2 ^ 31)

theorem saves_of_whole (hl : Layout b s as) (h : Whole b s.position s.size) : Saves s as := by
  have hsize := hl.size_le
  have hpos := hl.position_le
  refine ⟨s.size - s.position + 2, _, ?_, rfl, fun b' l hb' _ => readFromFile_ofList hb' l⟩
  rw [writeToFile_eq hl, unread]
  have hroom : s.position + (s.size - s.position) ≤ as.length * b := by
    rw [← hl.capacity]
    omega
  by_cases hq : s.position % b = 0
  · rw [saveLoop_aligned hl.spine hl.base _ hq hroom (by omega), List.nil_append]
  rcases h with heq | h0 | ⟨hle, hsmall⟩
  · rw [heq, Nat.sub_self]
    simp [saveLoop]
  · exact absurd h0 hq
  · have hblock := Nat.mod_lt s.position hl.spine.pos
    have hmod := Nat.div_add_mod' s.position b
    have hend : s.position % b + (b - s.position % b) = b := by omega
    rcases hl.spine.exists_node (p := s.position) (by rw [← hl.capacity]; omega) with ⟨a, ha⟩
    rw [saveLoop_write hl.spine hl.base _ _ (by omega) ha (toInt_eq_self_iff.mpr hsmall) (by omega),
      min_eq_right hle, List.nil_append, hmod, ← add_div_of_eq hl.spine.pos hend,
      saveLoop_aligned hl.spine hl.base _ (add_mod_of_eq hend) (by omega) (by omega),
      ← take_add_drop, Nat.add_sub_cancel' (by omega)]

/-- With blocks of up to 2 GiB nothing is saved in any other state. -/
theorem not_saves (hl : Layout b s as) (hb : b ≤ 2 ^ 31) (h : ¬Whole b s.position s.size) :
    ¬Saves s as := by
  rintro ⟨fuel, file, hrun, -⟩
  rw [Whole, not_or, not_or, not_and, Nat.not_lt] at h
  rcases h with ⟨hne, hq, hlong⟩
  have hpos := hl.position_le
  have hblock := Nat.mod_lt s.position hl.spine.pos
  have hlt : s.size - s.position < b := by
    by_contra hge
    have := hlong (by omega)
    omega
  have hfault : ∃ x, writeToFile fuel s = .fault x := by
    rcases Nat.lt_or_ge (s.position % b) (s.size - s.position) with hgt | hle
    · cases fuel with
      | zero => exact ⟨_, rfl⟩
      | succ fuel =>
        rw [writeToFile_second hl fuel (by omega) hgt hlt]
        apply saveLoop_outside hl.spine hl.base _ fuel (by omega)
        rw [Nat.mul_comm (s.position / b), Nat.mul_add_mod, Nat.mod_eq_of_lt hlt,
          toInt_eq_self_iff.mpr (show s.size - s.position < 2 ^ 31 by omega)]
        omega
    · exact writeToFile_short hl fuel (by omega) (by omega) hle
  rcases hfault with ⟨x, hx⟩
  rw [hx] at hrun
  cases hrun

theorem exists_not_saves (hb : 1 ≤ b) (hp : p ≤ n) (h : ¬Whole b p n) :
    ∃ s as, Layout b s as ∧ s.position = p ∧ s.size = n ∧ ¬Saves s as := by
  rw [Whole, not_or, not_or, not_and, Nat.not_lt] at h
  rcases h with ⟨hne, hq, hlong⟩
  have hblock := Nat.mod_lt p hb
  have hmod := Nat.div_add_mod' p b
  rcases Nat.lt_or_ge (p % b) (2 ^ 31) with hsmall | hbig
  · have hlt : n - p < b := by
      by_contra hge
      have := hlong (by omega)
      omega
    rcases exists_marked hb hp (show p + (n - p - p % b) < n by omega) with
      ⟨s, as, hl, rfl, rfl, hmark⟩
    refine ⟨s, as, hl, rfl, rfl, ?_⟩
    rintro ⟨fuel, file, hrun, hfile, -⟩
    have hplace := second_misplaced hl hsmall (by omega) (by omega) hlt hrun
    rw [hfile, unread, List.getElem?_take_of_lt (by omega), List.getElem?_drop,
      (hmark _).mpr rfl, eq_comm, hmark, Nat.succ_mul] at hplace
    omega
  · rcases exists_marked hb hp (show p < n by omega) with ⟨s, as, hl, rfl, rfl, hmark⟩
    refine ⟨s, as, hl, rfl, rfl, ?_⟩
    rintro ⟨fuel, file, hrun, hfile, -⟩
    rw [writeToFile_eq hl] at hrun
    have hplace := saveLoop_first hl.spine hl.base (by omega) hrun
    have hne' := mt toInt_eq_self_iff.mp (Nat.not_lt.mpr hbig)
    have hcast := toInt_le (s.position % b)
    rw [List.length_nil, hfile, unread, List.getElem?_take_of_lt (by omega), List.getElem?_drop,
      Nat.add_zero, (hmark _).mpr rfl, eq_comm, hmark] at hplace
    omega

/-- Exactly in the states of which `Whole` holds, `writeToFile` saves the array: for blocks of up
to 2 GiB in each single state, and for every block size whatever bytes the array holds. -/
theorem saves_iff (hb : 1 ≤ b) (hp : p ≤ n) :
    (∀ s as, Layout b s as → s.position = p → s.size = n → b ≤ 2 ^ 31 →
      (Saves s as ↔ Whole b p n)) ∧
    ((∀ s as, Layout b s as → s.position = p → s.size = n → Saves s as) ↔ Whole b p n) := by
  refine ⟨?_, ?_, ?_⟩
  · rintro s as hl rfl rfl hsmall
    exact ⟨fun h => not_not.mp fun hno => not_saves hl hsmall hno h, saves_of_whole hl⟩
  · intro hall
    by_contra hno
    rcases exists_not_saves hb hp hno with ⟨s, as, hl, hpos, hsize, hnot⟩
    exact hnot (hall s as hl hpos hsize)
  · rintro h s as hl rfl rfl
    exact saves_of_whole hl h

theorem saves_five : ∃ s as, Layout 4 s as ∧ s.position = 2 ∧ s.size = 7 ∧ Saves s as := by
  rcases exists_marked (b := 4) (p := 2) (n := 7) (m := 0) (by decide) (by decide) (by decide) with
    ⟨s, as, hl, hpos, hsize, -⟩
  have hwhole : Whole 4 2 7 := .inr (.inr (by decide))
  exact ⟨s, as, hl, hpos, hsize,
    (saves_iff (by decide) (by decide)).2.mpr hwhole s as hl hpos hsize⟩

/-- One byte from the second byte of a block on: the round has no length, and the next node is
null. -/
theorem short_rest_not_saved : ∃ s₁ s₂, write [1, 2] (new 4) = .done () s₁ ∧
    setPosition 1 s₁ = .done () s₂ ∧ s₂.size = 2 ∧ writeToFile 2 s₂ = .fault .nullPointer :=
  ⟨_, _, rfl, rfl, rfl, rfl⟩

end Saves

end Sylar.ByteArray
