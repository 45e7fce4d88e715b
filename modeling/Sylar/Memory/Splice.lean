import Mathlib.Data.List.Basic
import Mathlib.Data.List.TakeDrop
import Mathlib.Algebra.Order.Group.Nat

/-! # Overwriting a segment of a sequence

`splice l p d` stores `d` over the positions from `p` on. The block lemmas say
that storing into one of several equally long blocks, or reading from it, is
the same operation on the concatenation of the blocks.
-/
namespace Sylar.Memory
variable {α β : Type*}

def splice (l : List α) (p : ℕ) (d : List α) : List α := l.take p ++ d ++ l.drop (p + d.length)

@[simp] theorem splice_nil (l : List α) (p : ℕ) : splice l p [] = l := by
  simp [splice]

theorem splice_zero (l d : List α) : splice l 0 d = d ++ l.drop d.length := by
  simp [splice]

theorem length_splice {l : List α} {p : ℕ} (d : List α) (hp : p ≤ l.length) :
    (splice l p d).length = max l.length (p + d.length) := by
  simp only [splice, List.length_append, List.length_take, List.length_drop]
  omega

theorem map_splice (f : α → β) (l : List α) (p : ℕ) (d : List α) :
    (splice l p d).map f = splice (l.map f) p (d.map f) := by
  simp [splice, List.map_take, List.map_drop]

theorem splice_append_left {l₁ : List α} (l₂ : List α) {p : ℕ} {d : List α}
    (h : p + d.length ≤ l₁.length) : splice (l₁ ++ l₂) p d = splice l₁ p d ++ l₂ := by
  rw [splice, splice, List.take_append_of_le_length (by omega),
    List.drop_append_of_le_length h]
  simp

theorem splice_append_right {l₁ : List α} (l₂ : List α) {p : ℕ} (d : List α)
    (h : l₁.length ≤ p) : splice (l₁ ++ l₂) p d = l₁ ++ splice l₂ (p - l₁.length) d := by
  have hp : p + d.length - l₁.length = p - l₁.length + d.length := by omega
  simp [splice, List.take_append, List.drop_append, List.take_of_length_le h,
    List.drop_eq_nil_of_le (show l₁.length ≤ p + d.length by omega), hp]

theorem take_splice_end {l : List α} {p : ℕ} (d : List α) (hp : p ≤ l.length) :
    (splice l p d).take (p + d.length) = l.take p ++ d := by
  rw [splice, List.take_append_of_le_length (by simp; omega)]
  exact List.take_of_length_le (by simp)

theorem drop_splice_end {l : List α} {p : ℕ} (d : List α) (hp : p ≤ l.length) (k : ℕ) :
    (splice l p d).drop (p + d.length + k) = l.drop (p + d.length + k) := by
  have hlen : (l.take p ++ d).length = p + d.length := by simp; omega
  rw [splice, List.drop_append, List.drop_eq_nil_of_le (by omega), hlen, List.nil_append,
    List.drop_drop, show p + d.length + (p + d.length + k - (p + d.length)) = p + d.length + k by omega]

/-- Two adjacent stores are one store. -/
theorem splice_splice {l : List α} {p : ℕ} (d₁ d₂ : List α) (hp : p ≤ l.length) :
    splice (splice l p d₁) (p + d₁.length) d₂ = splice l p (d₁ ++ d₂) := by
  rw [splice, take_splice_end d₁ hp, drop_splice_end d₁ hp, splice, List.length_append]
  simp [Nat.add_assoc]

theorem getElem?_splice {l : List α} {p : ℕ} (d : List α) (hp : p ≤ l.length) (i : ℕ) :
    (splice l p d)[i]? = if i < p then l[i]? else if i < p + d.length then d[i - p]? else l[i]? := by
  have hlen : (l.take p).length = p := by simp; omega
  rw [splice, List.append_assoc, List.getElem?_append, hlen]
  split_ifs with h₁ h₂
  · rw [List.getElem?_take_of_lt h₁]
  · rw [List.getElem?_append_left (by omega)]
  · rw [List.getElem?_append_right (by omega), List.getElem?_drop]
    congr 1
    omega

/-- Cutting at the high-water mark commutes with a store that starts below it. -/
theorem take_splice {l : List α} {p n : ℕ} (d : List α) (hp : p ≤ n) (hn : n ≤ l.length) :
    (splice l p d).take (max n (p + d.length)) = splice (l.take n) p d := by
  apply List.ext_getElem?
  intro i
  rw [List.getElem?_take, getElem?_splice d (by omega), getElem?_splice d (by simp; omega),
    List.getElem?_take]
  split_ifs <;> first | rfl | omega

theorem take_drop_splice_self {l : List α} {p : ℕ} (d : List α) (hp : p ≤ l.length) :
    ((splice l p d).drop p).take d.length = d := by
  have hlen : (l.take p).length = p := by simp; omega
  rw [splice, List.append_assoc, List.drop_append, hlen, List.drop_eq_nil_of_le (by omega)]
  simp

section Blocks
variable {b : ℕ} {blocks : List (List α)}

theorem length_flatten_of_uniform (hb : ∀ blk ∈ blocks, blk.length = b) :
    blocks.flatten.length = blocks.length * b := by
  induction blocks with
  | nil => simp
  | cons blk rest ih =>
    rw [List.flatten_cons, List.length_append, hb blk (by simp),
      ih (fun c hc => hb c (by simp [hc])), List.length_cons, Nat.succ_mul, Nat.add_comm]

/-- A store inside block `i` is a store at offset `i * b` of the concatenation. -/
theorem flatten_set_splice (hb : ∀ blk ∈ blocks, blk.length = b) {i q : ℕ} {blk d : List α}
    (hi : blocks[i]? = some blk) (hq : q + d.length ≤ b) :
    (blocks.set i (splice blk q d)).flatten = splice blocks.flatten (i * b + q) d := by
  induction blocks generalizing i with
  | nil => simp at hi
  | cons c rest ih =>
    have hc : c.length = b := hb c (by simp)
    cases i with
    | zero =>
      simp only [List.getElem?_cons_zero, Option.some.injEq] at hi
      subst hi
      simp only [List.set_cons_zero, List.flatten_cons, Nat.zero_mul, Nat.zero_add]
      rw [splice_append_left _ (by omega)]
    | succ i =>
      simp only [List.getElem?_cons_succ] at hi
      simp only [List.set_cons_succ, List.flatten_cons]
      have hoff : (i + 1) * b + q = c.length + (i * b + q) := by rw [hc, Nat.succ_mul]; omega
      rw [ih (fun x hx => hb x (by simp [hx])) hi, hoff, splice_append_right _ _ (by omega),
        Nat.add_sub_cancel_left]

/-- A read inside block `i` is a read at offset `i * b` of the concatenation. -/
theorem take_drop_flatten (hb : ∀ blk ∈ blocks, blk.length = b) {i q m : ℕ} {blk : List α}
    (hi : blocks[i]? = some blk) (hq : q + m ≤ b) :
    (blocks.flatten.drop (i * b + q)).take m = (blk.drop q).take m := by
  induction blocks generalizing i with
  | nil => simp at hi
  | cons c rest ih =>
    have hc : c.length = b := hb c (by simp)
    cases i with
    | zero =>
      simp only [List.getElem?_cons_zero, Option.some.injEq] at hi
      subst hi
      rw [List.flatten_cons, Nat.zero_mul, Nat.zero_add, List.drop_append_of_le_length (by omega),
        List.take_append_of_le_length (by rw [List.length_drop]; omega)]
    | succ i =>
      simp only [List.getElem?_cons_succ] at hi
      have hoff : (i + 1) * b + q = c.length + (i * b + q) := by rw [hc, Nat.succ_mul]; omega
      rw [List.flatten_cons, hoff, List.drop_length_add_append,
        ih (fun x hx => hb x (by simp [hx])) hi]

end Blocks

/-- Reading on across a boundary: a read of `m + n` is a read of `m` followed by one of `n`. -/
theorem take_add_drop (l : List α) (p m n : ℕ) :
    (l.drop p).take (m + n) = (l.drop p).take m ++ (l.drop (p + m)).take n := by
  rw [List.take_add, List.drop_drop]

end Sylar.Memory
