import Mathlib.Data.List.Basic
import Mathlib.Logic.Function.Basic

/-! # What stands after a history of calls

A call may write under a key: a value, or nothing when it deletes. A value stands as long as no
later call writes under its key. Things found at numbers can be listed in the order of the numbers;
the first of them with some property is the one with the least number.
-/
namespace Sylar.Memory

variable {C K V α : Type}

/-- Call number `i` wrote the value under the key, and no later call wrote under it. -/
def Stands (writes : C → Option (K × Option V)) (calls : List C) (i : ℕ) (k : K) (v : V) : Prop :=
  (∃ c, calls[i]? = some c ∧ writes c = some (k, some v)) ∧
    ∀ j c, i < j → calls[j]? = some c → ∀ o, writes c ≠ some (k, o)

section Stands

variable {writes : C → Option (K × Option V)} {calls : List C} {c : C} {i j : ℕ} {k : K} {v v' : V}

theorem not_stands_nil : ¬Stands writes [] i k v := by
  rintro ⟨⟨c, hc, -⟩, -⟩
  rw [List.getElem?_nil] at hc
  cases hc

theorem Stands.lt_length (h : Stands writes calls i k v) : i < calls.length := by
  rcases h.1 with ⟨c, hc, -⟩
  exact (List.getElem?_eq_some_iff.mp hc).1

/-- What stands after one more call. -/
theorem stands_concat : Stands writes (calls ++ [c]) i k v ↔
    (i = calls.length ∧ writes c = some (k, some v)) ∨
      (Stands writes calls i k v ∧ ∀ o, writes c ≠ some (k, o)) := by
  constructor
  · rintro ⟨⟨x, hx, hwrites⟩, hlater⟩
    rcases Nat.lt_or_ge i calls.length with hlt | hge
    · rw [List.getElem?_append_left hlt] at hx
      refine .inr ⟨⟨⟨x, hx, hwrites⟩, fun j y hij hy => hlater j y hij ?_⟩, ?_⟩
      · rw [List.getElem?_append_left (List.getElem?_eq_some_iff.mp hy).1, hy]
      · exact hlater calls.length c hlt List.getElem?_concat_length
    · have hi : i = calls.length := by
        have hlen := (List.getElem?_eq_some_iff.mp hx).1
        rw [List.length_append, List.length_singleton] at hlen
        omega
      rw [hi, List.getElem?_concat_length] at hx
      cases hx
      exact .inl ⟨hi, hwrites⟩
  · rintro (⟨rfl, hwrites⟩ | ⟨hstands, hc⟩)
    · refine ⟨⟨c, List.getElem?_concat_length, hwrites⟩, fun j y hij hy => ?_⟩
      have hlen := (List.getElem?_eq_some_iff.mp hy).1
      rw [List.length_append, List.length_singleton] at hlen
      omega
    · have hlt := hstands.lt_length
      rcases hstands with ⟨⟨x, hx, hwrites⟩, hlater⟩
      refine ⟨⟨x, by rw [List.getElem?_append_left hlt, hx], hwrites⟩, fun j y hij hy => ?_⟩
      rcases Nat.lt_or_ge j calls.length with hj | hj
      · rw [List.getElem?_append_left hj] at hy
        exact hlater j y hij hy
      · rw [List.getElem?_append_right hj] at hy
        rw [List.mem_singleton.mp (List.mem_of_getElem? hy)]
        exact hc

theorem stands_concat_of_none (hc : writes c = none) :
    Stands writes (calls ++ [c]) i k v ↔ Stands writes calls i k v := by
  simp [stands_concat, hc]

theorem stands_concat_of_some {k' : K} {w : Option V} (hc : writes c = some (k', w)) :
    Stands writes (calls ++ [c]) i k v ↔
      (i = calls.length ∧ k = k' ∧ w = some v) ∨ (Stands writes calls i k v ∧ k ≠ k') := by
  have hkey : (∀ o, writes c ≠ some (k, o)) ↔ k ≠ k' := by
    constructor
    · rintro hne rfl
      exact hne w hc
    · intro hne o ho
      rw [hc, Option.some.injEq, Prod.mk.injEq] at ho
      exact hne ho.1.symm
  rw [stands_concat, hkey, hc, Option.some.injEq, Prod.mk.injEq, eq_comm (a := k')]

/-- What stands under a key was written by one call. -/
theorem Stands.index_eq (h : Stands writes calls i k v) (h' : Stands writes calls j k v') : i = j := by
  rcases h with ⟨⟨c, hc, hwrites⟩, hlater⟩
  rcases h' with ⟨⟨c', hc', hwrites'⟩, hlater'⟩
  rcases Nat.lt_trichotomy i j with hij | rfl | hji
  · exact absurd hwrites' (hlater j c' hij hc' _)
  · rfl
  · exact absurd hwrites (hlater' i c hji hc _)

/-- A map that is written to. -/
def writeTo [DecidableEq K] (m : K → Option V) : Option (K × Option V) → K → Option V
  | none => m
  | some (k, o) => Function.update m k o

/-- A map holds what stands. -/
theorem writeTo_stands [DecidableEq K] {m : K → Option V}
    (hm : ∀ k v, m k = some v ↔ ∃ i, Stands writes calls i k v) (c : C) (k : K) (v : V) :
    writeTo m (writes c) k = some v ↔ ∃ i, Stands writes (calls ++ [c]) i k v := by
  simp only [stands_concat, exists_or, exists_eq_left, exists_and_right, ← hm]
  cases hc : writes c with
  | none => simp [writeTo]
  | some w =>
    rcases w with ⟨k', o⟩
    by_cases hk : k = k'
    · subst hk
      simp [writeTo]
    · simp [writeTo, Function.update_of_ne hk, Ne.symm hk]

end Stands

/-- The list of what is found at numbers, in the order of the numbers. -/
def Lists (found : ℕ → α → Prop) (l : List α) : Prop :=
  ∃ numbered : List (ℕ × α), numbered.map Prod.snd = l ∧
    numbered.Pairwise (fun a b => a.1 < b.1) ∧ ∀ i x, (i, x) ∈ numbered ↔ found i x

namespace Lists

variable {found found' : ℕ → α → Prop} {l : List α} {p : α → Bool}

theorem nil (h : ∀ i x, ¬found i x) : Lists found [] :=
  ⟨[], rfl, .nil, fun i x => iff_of_false List.not_mem_nil (h i x)⟩

theorem congr (h : Lists found l) (hiff : ∀ i x, found' i x ↔ found i x) : Lists found' l := by
  rcases h with ⟨numbered, hmap, hsorted, hmem⟩
  exact ⟨numbered, hmap, hsorted, fun i x => (hmem i x).trans (hiff i x).symm⟩

theorem filter (h : Lists found l) (p : α → Bool) :
    Lists (fun i x => found i x ∧ p x = true) (l.filter p) := by
  rcases h with ⟨numbered, rfl, hsorted, hmem⟩
  refine ⟨numbered.filter fun e => p e.2, ?_, hsorted.filter _, ?_⟩
  · rw [List.filter_map]
    rfl
  · intro i x
    rw [List.mem_filter, hmem]

/-- One more thing, at a number above the others. -/
theorem concat (h : Lists found l) {n : ℕ} (hn : ∀ i x, found i x → i < n) (y : α) :
    Lists (fun i x => found i x ∨ (i = n ∧ x = y)) (l ++ [y]) := by
  rcases h with ⟨numbered, rfl, hsorted, hmem⟩
  refine ⟨numbered ++ [(n, y)], by simp, ?_, ?_⟩
  · rw [List.pairwise_append]
    refine ⟨hsorted, List.pairwise_singleton _ _, ?_⟩
    rintro ⟨i, x⟩ hx e he
    rw [List.mem_singleton.mp he]
    exact hn i x ((hmem i x).mp hx)
  · intro i x
    rw [List.mem_append, hmem, List.mem_singleton, Prod.mk.injEq]

theorem mem (h : Lists found l) {x : α} : x ∈ l ↔ ∃ i, found i x := by
  rcases h with ⟨numbered, rfl, -, hmem⟩
  simp only [List.mem_map, Prod.exists, exists_eq_right, hmem]

/-- No two members agree in a part that says at which number they are found. -/
theorem nodup_map {β : Type} (h : Lists found l) {f : α → β}
    (hf : ∀ i j x y, found i x → found j y → f x = f y → i = j) : (l.map f).Nodup := by
  rcases h with ⟨numbered, rfl, hsorted, hmem⟩
  rw [List.map_map, List.Nodup, List.pairwise_map]
  refine hsorted.imp_of_mem fun {a b} ha hb hlt heq => ?_
  have hij := hf a.1 b.1 a.2 b.2 ((hmem _ _).mp ha) ((hmem _ _).mp hb) heq
  omega

/-- The first member with a property is found at the least number. -/
theorem find?_eq_some (h : Lists found l) {x : α} (hx : l.find? p = some x) :
    ∃ i, found i x ∧ p x = true ∧ ∀ j y, found j y → p y = true → i ≤ j := by
  rcases h with ⟨numbered, rfl, hsorted, hmem⟩
  rw [List.find?_map, Option.map_eq_some_iff] at hx
  rcases hx with ⟨⟨i, x⟩, hfind, rfl⟩
  rcases List.find?_eq_some_iff_append.mp hfind with ⟨hp, before, after, rfl, hbefore⟩
  refine ⟨i, (hmem i x).mp (by simp), hp, fun j y hy hpy => ?_⟩
  rw [List.pairwise_append, List.pairwise_cons] at hsorted
  rcases List.mem_append.mp ((hmem j y).mpr hy) with hb | ha
  · have hno := hbefore _ hb
    rw [Function.comp_apply, hpy] at hno
    cases hno
  · rcases List.mem_cons.mp ha with heq | ha
    · cases heq
      exact Nat.le_refl _
    · exact Nat.le_of_lt (hsorted.2.1.1 _ ha)

end Lists

end Sylar.Memory
