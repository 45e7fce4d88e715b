import Sylar.ByteArray.Cursor

/-! # Peeking at a given position

`readForPeekAt` is given a position, but its guard asks how much there is to read behind the
cursor. So the guard decides rightly only where both answers agree; where it lets too much pass,
the copy runs past the high-water mark, and at the capacity into the null node.
-/
namespace Sylar.ByteArray
open Memory

/-- `while(pos >= cur->size) { pos -= cur->size; cur = cur->next; }` -/
def findLoop : ℕ → ℕ → Option ℕ → Cmd (ℕ × Option ℕ)
  | 0, _, _ => Command.abort .fuelExhausted
  | fuel + 1, pos, cur => do
    let n ← deref cur
    if pos ≥ n.size then findLoop fuel (pos - n.size) n.next else pure (pos, cur)

def readForPeekAt (readSize position : ℕ) : Cmd (List Cell) := do
  let s ← Command.state
  if readSize > s.getSizeForRead then Command.raise (.outOfRange "not enough len")
  else
    let start ← findLoop (position + 1) position s.root
    let n ← deref start.2
    peekLoop (readSize + 1) readSize start.1 (n.size - start.1) start.2 []

variable {b : ℕ} {s : ByteArray} {as : List ℕ}

theorem findLoop_spec (hs : Spine b s.heap s.root as) (fuel i pos : ℕ) (hfuel : pos < fuel) :
    findLoop fuel pos as[i]? s =
      if i * b + pos < as.length * b then
        .done ((i * b + pos) % b, as[(i * b + pos) / b]?) s
      else .fault .nullPointer := by
  induction fuel generalizing i pos with
  | zero => omega
  | succ fuel ih =>
    have hb := hs.pos
    by_cases hi : i < as.length
    · rcases hs.node_at (List.getElem?_eq_getElem hi) with ⟨n, hn, hnext, hnsize, -⟩
      rw [findLoop, Command.bind_done (deref_eq (List.getElem?_eq_getElem hi) hn), hnsize]
      by_cases hpos : pos ≥ b
      · have hsucc : (i + 1) * b + (pos - b) = i * b + pos := by
          rw [Nat.succ_mul]
          omega
        rw [if_pos hpos, hnext, ih (i + 1) (pos - b) (by omega), hsucc]
      · rw [not_le] at hpos
        rw [if_neg (by omega), if_pos (node_lt hi hpos), Command.pure_apply, Nat.mul_comm,
          Nat.mul_add_mod, Nat.mod_eq_of_lt hpos, Nat.mul_add_div hb, Nat.div_eq_of_lt hpos,
          Nat.add_zero]
    · have hle := Nat.mul_le_mul_right b (Nat.le_of_not_lt hi)
      rw [if_neg (by omega), List.getElem?_eq_none (Nat.le_of_not_lt hi)]
      rfl

/-- A copy that asks for more than there is follows the last node's link. -/
theorem peekLoop_null (hs : Spine b s.heap s.root as) (fuel m p : ℕ) (buf : List Cell)
    (hm : 0 < m) (hgt : as.length * b < p + m) (hfuel : m < fuel) :
    peekLoop fuel m (p % b) (b - p % b) as[p / b]? buf s = .fault .nullPointer := by
  induction fuel generalizing m p buf with
  | zero => omega
  | succ fuel ih =>
    have hmod : p % b < b := Nat.mod_lt _ hs.pos
    cases ha : as[p / b]? with
    | none =>
      simp only [peekLoop, if_neg hm.ne']
      split <;> rfl
    | some a =>
      rcases hs.node_at ha with ⟨n, hn, hnext, -, hptr⟩
      have hend : p % b + (b - p % b) = b := by omega
      have hdiv := add_div_of_eq hs.pos hend
      have hlast : p / b * b + b ≤ as.length * b := by
        rw [← Nat.succ_mul]
        exact Nat.mul_le_mul_right b (List.getElem?_eq_some_iff.mp ha).1
      have hpos := div_mul_add_mod p b
      have hrun := ih (m - (b - p % b)) (p + (b - p % b))
        (buf ++ (n.ptr.drop (p % b)).take (b - p % b)) (by omega) (by omega) (by omega)
      rw [add_mod_of_eq hend, Nat.sub_zero, hdiv, ← hnext] at hrun
      simp only [peekLoop, if_neg hm.ne', if_neg (show ¬b - p % b ≥ m by omega)]
      rw [Command.bind_done (copyFrom_eq rfl hn (by omega)), Command.bind_done (deref_eq rfl hn)]
      cases hnull : n.next with
      | none => rfl
      | some a' =>
        rcases hs.node_at (hnext.symm.trans hnull) with ⟨n', hn', -, hnsize', -⟩
        rw [Command.bind_done (deref_eq rfl hn'), hnsize', ← hnull, hrun]

theorem readForPeekAt_spec (hl : Layout b s as) {m : ℕ} (position : ℕ) (hm : 0 < m) :
    readForPeekAt m position s =
      if s.size - s.position < m then .raised (.outOfRange "not enough len") s
      else if position + m ≤ s.capacity then
        .done (((contents s.heap as).drop position).take m) s
      else .fault .nullPointer := by
  have hroot := hl.spine.chain.head
  have hfind := findLoop_spec hl.spine (position + 1) 0 position (Nat.lt_succ_self _)
  rw [Nat.zero_mul, Nat.zero_add, ← hl.capacity, ← hroot] at hfind
  rw [readForPeekAt, Command.state_bind_apply, hl.sizeForRead]
  by_cases hgt : s.size - s.position < m
  · rw [if_pos hgt, if_pos hgt, Command.raise_apply]
  rw [if_neg hgt, if_neg hgt]
  by_cases hpos : position < s.capacity
  · rw [if_pos hpos] at hfind
    rcases hl.spine.exists_node (p := position) (by rw [← hl.capacity]; exact hpos) with ⟨a, ha⟩
    rcases hl.spine.node_at ha with ⟨n, hn, -, hnsize, -⟩
    rw [Command.bind_done hfind, Command.bind_done (deref_eq ha hn), hnsize]
    by_cases hroom : position + m ≤ s.capacity
    · rw [if_pos hroom, peekLoop_spec (m + 1) m position _ [] s hl.spine rfl
        (by rw [← hl.capacity]; exact hroom) (by omega), List.nil_append]
    · rw [if_neg hroom, peekLoop_null hl.spine (m + 1) m position [] hm
        (by rw [← hl.capacity]; omega) (by omega)]
  · rw [if_neg hpos] at hfind
    rw [if_neg (by omega), Command.bind_fault hfind]

/-- What the header file promises of `readForPeekAt`. -/
def PeeksAt (s : ByteArray) (as : List ℕ) (m position : ℕ) : Prop :=
  readForPeekAt m position s =
    if s.size < position ∨ s.size - position < m then .raised (.outOfRange "not enough len") s
    else .done (((stored s as).drop position).take m) s

/-- `readForPeekAt` does what is documented exactly where the cursor has less than `m` bytes
before it if and only if the position has. -/
theorem peeksAt_iff (hl : Layout b s as) {m : ℕ} (position : ℕ) (hm : 1 ≤ m) :
    PeeksAt s as m position ↔ (s.size - s.position < m ↔ s.size < position + m) := by
  have hguard : (s.size < position ∨ s.size - position < m) ↔ s.size < position + m := by omega
  have hsize := hl.size_le
  rw [PeeksAt, readForPeekAt_spec hl position hm, if_congr hguard rfl rfl]
  by_cases hgt : s.size - s.position < m
  · by_cases hover : s.size < position + m
    · simp [hgt, hover]
    · simp [hgt, hover]
  · by_cases hover : s.size < position + m
    · rw [if_neg hgt, if_pos hover]
      by_cases hroom : position + m ≤ s.capacity
      · simp [hgt, hover, hroom]
      · simp [hgt, hover, hroom]
    · have hshow : ((stored s as).drop position).take m =
          ((contents s.heap as).drop position).take m := by
        rw [stored, List.drop_take, List.take_take, min_eq_left (by omega)]
      rw [if_neg hgt, if_pos (by omega), if_neg hover, hshow]
      simp [hgt, hover]

theorem peeksAt_two : ∃ s₁ s₂ as, write [1, 2, 3] (new 2) = .done () s₁ ∧
    setPosition 1 s₁ = .done () s₂ ∧ PeeksAt s₂ as 2 0 := by
  rcases write_stores (new_layout (b := 2) (by decide)) [1, 2, 3] with ⟨s₁, as, hwrite, hst, -⟩
  have hsize : s₁.size = 3 := hst.size
  have hroom := hst.layout.size_le
  rcases setPosition_spec hst.layout (v := 1) (by omega) with ⟨hseek, hl⟩
  refine ⟨s₁, _, as, hwrite, hseek, (peeksAt_iff hl 0 (by decide)).mpr ?_⟩
  dsimp only
  rw [hsize]
  decide

/-- Behind the last byte nothing can be peeked at, also not the first one; from the first byte on
a position behind the last one is let pass, and the null node is followed. -/
theorem guard_asks_cursor : ∃ s₁ s₂, write [1, 2, 3] (new 4) = .done () s₁ ∧ s₁.size = 3 ∧
    readForPeekAt 1 0 s₁ = .raised (.outOfRange "not enough len") s₁ ∧
    setPosition 0 s₁ = .done () s₂ ∧ s₂.size = 3 ∧
    readForPeekAt 3 4 s₂ = .fault .nullPointer :=
  ⟨_, _, rfl, rfl, rfl, rfl, rfl, rfl⟩

end Sylar.ByteArray
