import Mathlib.Data.List.Nodup
import Mathlib.Data.List.Pairwise
import Mathlib.Data.List.Perm.Basic
import Mathlib.Order.Lattice

/-! # Ordered maps

`std::map` with a comparison of its own: keys of equal rank are the same key, and the
map keeps the one that came first.
-/
namespace Sylar.Memory

structure OrderedMap (K V : Type) {R : Type} [LinearOrder R] (rank : K → R) where
  entries : List (K × V)
  sorted : entries.Pairwise fun x y => rank x.1 < rank y.1
deriving DecidableEq

namespace OrderedMap

variable {K V R : Type} [LinearOrder R] {rank : K → R}

def empty : OrderedMap K V rank := ⟨[], .nil⟩

def find (m : OrderedMap K V rank) (key : K) : Option V :=
  (m.entries.find? fun x => rank x.1 = rank key).map Prod.snd

/-- The entries after `map[key] = val`. -/
def put (rank : K → R) (key : K) (val : V) : List (K × V) → List (K × V)
  | [] => [(key, val)]
  | (k, v) :: l =>
    if rank key < rank k then (key, val) :: (k, v) :: l
    else if rank k < rank key then (k, v) :: put rank key val l
    else (k, val) :: l

theorem mem_put {key : K} {val : V} {l : List (K × V)} {x : K × V}
    (h : x ∈ put rank key val l) : rank x.1 = rank key ∨ x ∈ l := by
  induction l with
  | nil =>
    rw [put, List.mem_singleton] at h
    exact .inl (by rw [h])
  | cons kv l ih =>
    rw [put] at h
    split_ifs at h with hlt hgt
    · rcases List.mem_cons.mp h with rfl | h
      · exact .inl rfl
      · exact .inr h
    · rcases List.mem_cons.mp h with rfl | h
      · exact .inr List.mem_cons_self
      · exact (ih h).imp_right (List.mem_cons_of_mem _)
    · rcases List.mem_cons.mp h with rfl | h
      · exact .inl (le_antisymm (not_lt.mp hlt) (not_lt.mp hgt))
      · exact .inr (List.mem_cons_of_mem _ h)

theorem put_sorted {key : K} {val : V} {l : List (K × V)}
    (h : l.Pairwise fun x y => rank x.1 < rank y.1) :
    (put rank key val l).Pairwise fun x y => rank x.1 < rank y.1 := by
  induction l with
  | nil => exact List.pairwise_singleton _ _
  | cons kv l ih =>
    have htail := List.pairwise_cons.mp h
    rw [put]
    split_ifs with hlt hgt
    · refine List.pairwise_cons.mpr ⟨fun x hx => ?_, h⟩
      rcases List.mem_cons.mp hx with rfl | hx
      · exact hlt
      · exact lt_trans hlt (htail.1 x hx)
    · refine List.pairwise_cons.mpr ⟨fun x hx => ?_, ih htail.2⟩
      rcases mem_put hx with hx | hx
      · rw [hx]
        exact hgt
      · exact htail.1 x hx
    · exact List.pairwise_cons.mpr htail

/-- `map[key] = val`. -/
def set (m : OrderedMap K V rank) (key : K) (val : V) : OrderedMap K V rank :=
  ⟨put rank key val m.entries, put_sorted m.sorted⟩

/-- The entry of a key, with the spelling the map keeps. -/
def entry (m : OrderedMap K V rank) (key : K) : Option (K × V) :=
  m.entries.find? fun x => rank x.1 = rank key

section Entry

variable {m m' : OrderedMap K V rank} {key k : K} {val : V} {l : List (K × V)}

theorem eq_of_entries (h : m.entries = m'.entries) : m = m' := by
  cases m
  cases m'
  congr

theorem find?_put (h : l.Pairwise fun x y => rank x.1 < rank y.1) :
    ((put rank key val l).find? fun x => rank x.1 = rank k) =
      if rank key = rank k then
        some ((((l.find? fun x => rank x.1 = rank key).map Prod.fst).getD key), val)
      else l.find? fun x => rank x.1 = rank k := by
  induction l with
  | nil =>
    rw [put, List.find?_cons]
    by_cases hk : rank key = rank k <;> simp [hk]
  | cons kv l ih =>
    have htail := List.pairwise_cons.mp h
    rw [put]
    by_cases hlt : rank key < rank kv.1
    · have hnone : ((kv :: l).find? fun x => rank x.1 = rank key) = none := by
        rw [List.find?_eq_none]
        intro x hx
        rw [decide_eq_true_eq]
        rcases List.mem_cons.mp hx with rfl | hx
        · exact ne_of_gt hlt
        · exact ne_of_gt (lt_trans hlt (htail.1 x hx))
      rw [if_pos hlt, List.find?_cons, hnone]
      by_cases hk : rank key = rank k
      · rw [if_pos hk, decide_eq_true hk]
        rfl
      · rw [if_neg hk, decide_eq_false hk]
    · rw [if_neg hlt]
      by_cases hgt : rank kv.1 < rank key
      · rw [if_pos hgt, List.find?_cons, List.find?_cons (a := kv), List.find?_cons (a := kv),
          decide_eq_false (ne_of_lt hgt)]
        by_cases hkv : rank kv.1 = rank k
        · rw [decide_eq_true hkv, if_neg fun hk => absurd (hkv.trans hk.symm) (ne_of_lt hgt)]
        · rw [decide_eq_false hkv]
          exact ih htail.2
      · have heq : rank kv.1 = rank key := le_antisymm (not_lt.mp hlt) (not_lt.mp hgt)
        rw [if_neg hgt, List.find?_cons, List.find?_cons, List.find?_cons, heq]
        by_cases hk : rank key = rank k
        · rw [if_pos hk, decide_eq_true hk, decide_eq_true rfl]
          rfl
        · rw [if_neg hk, decide_eq_false hk]

theorem entry_set : (m.set key val).entry k =
    if rank key = rank k then some (((m.entry key).map Prod.fst).getD key, val) else m.entry k :=
  find?_put m.sorted

theorem entry_eq_some_iff {x : K × V} : m.entry k = some x ↔ x ∈ m.entries ∧ rank x.1 = rank k := by
  constructor
  · intro h
    have hrank := List.find?_some h
    rw [decide_eq_true_eq] at hrank
    exact ⟨List.mem_of_find?_eq_some h, hrank⟩
  · rintro ⟨hx, hk⟩
    cases hfind : m.entry k with
    | none =>
      rw [entry, List.find?_eq_none] at hfind
      exact absurd (decide_eq_true hk) (hfind x hx)
    | some y =>
      -- keys of one rank are one entry
      have hy := List.find?_some hfind
      rw [decide_eq_true_eq] at hy
      by_contra hne
      have hsymm : Std.Symm fun x y : K × V => rank x.1 ≠ rank y.1 := ⟨fun _ _ => Ne.symm⟩
      have hapart : m.entries.Pairwise fun x y => rank x.1 ≠ rank y.1 := m.sorted.imp ne_of_lt
      have hyx : y ≠ x := fun h => hne (congrArg some h)
      exact hapart.forall (List.mem_of_find?_eq_some hfind) hx hyx (hy.trans hk.symm)

theorem ext_of_entry (h : ∀ k, m.entry k = m'.entry k) : m = m' := by
  have hmem (x : K × V) : x ∈ m.entries ↔ x ∈ m'.entries := by
    have hx := h x.1
    rw [← and_iff_left (a := x ∈ m.entries) (rfl : rank x.1 = rank x.1), ← entry_eq_some_iff, hx,
      entry_eq_some_iff, and_iff_left rfl]
  have hnodup (m : OrderedMap K V rank) : m.entries.Nodup :=
    m.sorted.imp fun hlt heq => absurd (congrArg (fun x => rank x.1) heq) (ne_of_lt hlt)
  have hperm : m.entries.Perm m'.entries :=
    (List.perm_ext_iff_of_nodup (hnodup m) (hnodup m')).mpr hmem
  have hentries : m.entries = m'.entries := by
    apply hperm.eq_of_pairwise _ m.sorted m'.sorted
    intro x y _ _ hxy hyx
    exact absurd hxy (lt_asymm hyx)
  exact eq_of_entries hentries

theorem set_comm {key' : K} {val' : V} (h : rank key ≠ rank key') :
    (m.set key val).set key' val' = (m.set key' val').set key val := by
  apply ext_of_entry
  intro k
  simp only [entry_set]
  rw [if_neg h, if_neg h.symm]
  by_cases hk : rank key' = rank k
  · rw [if_pos hk, if_pos hk, if_neg (fun hkk => h (hkk.trans hk.symm))]
  · rw [if_neg hk, if_neg hk]

end Entry

section Find

variable {m m' : OrderedMap K V rank} {key k : K} {val : V}

theorem find_set : (m.set key val).find k = if rank key = rank k then some val else m.find k := by
  change ((m.set key val).entry k).map Prod.snd = _
  rw [entry_set]
  split_ifs <;> rfl

/-- Storing under a key that is there keeps the keys. -/
theorem keys_set (h : (m.find key).isSome = true) :
    (m.set key val).entries.map Prod.fst = m.entries.map Prod.fst := by
  have hsorted := m.sorted
  rw [find] at h
  rw [set]
  dsimp only
  generalize m.entries = l at h hsorted
  induction l with
  | nil => cases h
  | cons kv l ih =>
    have htail := List.pairwise_cons.mp hsorted
    rw [put]
    split_ifs with hlt hgt
    · -- every key is greater
      rw [Option.isSome_map, List.find?_isSome] at h
      obtain ⟨x, hx, heq⟩ := h
      rw [decide_eq_true_eq] at heq
      rcases List.mem_cons.mp hx with rfl | hx
      · exact absurd (heq ▸ hlt) (lt_irrefl _)
      · exact absurd (lt_trans hlt (htail.1 x hx)) (by rw [heq]; exact lt_irrefl _)
    · rw [List.find?_cons, decide_eq_false (ne_of_lt hgt)] at h
      rw [List.map_cons, List.map_cons, ih h htail.2]
    · rfl

/-- Maps with the same keys and the same values are equal. -/
theorem ext_of_find (hkeys : m.entries.map Prod.fst = m'.entries.map Prod.fst)
    (hfind : ∀ k, m.find k = m'.find k) : m = m' := by
  obtain ⟨l, hl⟩ := m
  obtain ⟨l', hl'⟩ := m'
  simp only [find] at hfind
  dsimp only at hkeys
  congr 1
  induction l generalizing l' with
  | nil => exact (List.map_eq_nil_iff.mp hkeys.symm).symm
  | cons kv l ih =>
    cases l' with
    | nil => cases hkeys
    | cons kv' l' =>
      rw [List.map_cons, List.map_cons, List.cons.injEq] at hkeys
      have hrest := List.pairwise_cons.mp hl
      have hrest' := List.pairwise_cons.mp hl'
      have hnone {kv : K × V} {l : List (K × V)} (h : ∀ x ∈ l, rank kv.1 < rank x.1) {k : K}
          (hk : rank kv.1 = rank k) : (l.find? fun x => rank x.1 = rank k) = none := by
        rw [List.find?_eq_none]
        intro x hx
        rw [decide_eq_true_eq, ← hk]
        exact ne_of_gt (h x hx)
      have hval : kv.2 = kv'.2 := by
        have := hfind kv.1
        rw [List.find?_cons, List.find?_cons, ← hkeys.1, decide_eq_true rfl] at this
        exact Option.some.inj this
      have htails : l = l' := by
        apply ih hrest.2 l' hrest'.2 hkeys.2
        intro k
        by_cases hk : rank kv.1 = rank k
        · rw [hnone hrest.1 hk, hnone hrest'.1 (hkeys.1 ▸ hk)]
        · have := hfind k
          rwa [List.find?_cons, List.find?_cons, ← hkeys.1, decide_eq_false hk] at this
      rw [htails, Prod.ext hkeys.1 hval]

end Find

section SetAll

/-- `map[key] = val` for each of some entries in turn. -/
def setAll (m : OrderedMap K V rank) (l : List (K × V)) : OrderedMap K V rank :=
  l.foldl (fun m e => m.set e.1 e.2) m

/-- The value of the last of some entries with a key. -/
def lastOf (rank : K → R) (l : List (K × V)) (key : K) : Option V :=
  (l.reverse.find? fun e => rank e.1 = rank key).map Prod.snd

variable {m : OrderedMap K V rank} {l : List (K × V)}

theorem find_setAll (k : K) : (m.setAll l).find k = (lastOf rank l k).or (m.find k) := by
  induction l generalizing m with
  | nil => rfl
  | cons e l ih =>
    change ((m.set e.1 e.2).setAll l).find k = _
    rw [ih, find_set, lastOf, lastOf, List.reverse_cons, List.find?_append]
    cases l.reverse.find? fun e => rank e.1 = rank k with
    | some x => rfl
    | none =>
      by_cases hk : rank e.1 = rank k
      · rw [if_pos hk, List.find?_singleton, decide_eq_true hk]
        rfl
      · rw [if_neg hk, List.find?_singleton, decide_eq_false hk]
        rfl

theorem isSome_lastOf {e : K × V} (he : e ∈ l) : (lastOf rank l e.1).isSome = true := by
  rw [lastOf, Option.isSome_map, List.find?_isSome]
  exact ⟨e, List.mem_reverse.mpr he, decide_eq_true rfl⟩

theorem keys_setAll (h : ∀ e ∈ l, (m.find e.1).isSome = true) :
    (m.setAll l).entries.map Prod.fst = m.entries.map Prod.fst := by
  induction l generalizing m with
  | nil => rfl
  | cons e l ih =>
    rw [List.forall_mem_cons] at h
    change ((m.set e.1 e.2).setAll l).entries.map Prod.fst = _
    rw [ih, keys_set h.1]
    intro x hx
    rw [find_set]
    split_ifs
    · rfl
    · exact h.2 x hx

/-- Storing entries changes nothing exactly if the last entry for each key was there already. -/
theorem setAll_eq_self_iff : m.setAll l = m ↔ ∀ e ∈ l, m.find e.1 = lastOf rank l e.1 := by
  constructor
  · intro h e he
    have hfind := find_setAll (m := m) (l := l) e.1
    rw [h] at hfind
    have hsome : (lastOf rank l e.1).isSome = true := isSome_lastOf he
    obtain ⟨v, hv⟩ := Option.isSome_iff_exists.mp hsome
    rw [hfind, hv]
    rfl
  · intro h
    apply ext_of_find
    · apply keys_setAll
      intro e he
      rw [h e he]
      exact isSome_lastOf he
    · intro k
      rw [find_setAll]
      cases hlast : lastOf rank l k with
      | none => rfl
      | some v =>
        obtain ⟨e, hfind, rfl⟩ := Option.map_eq_some_iff.mp hlast
        have hk : rank e.1 = rank k := by
          have := List.find?_some hfind
          rwa [decide_eq_true_eq] at this
        have he := h e (List.mem_reverse.mp (List.mem_of_find?_eq_some hfind))
        have hsame : m.find k = m.find e.1 := by rw [find, find, hk]
        have hlast' : lastOf rank l k = lastOf rank l e.1 := by rw [lastOf, lastOf, hk]
        rw [hsame, he, ← hlast', hlast]
        rfl

theorem setAll_set {m : OrderedMap K V rank} {l : List (K × V)} {key : K} {val : V}
    (h : ∀ e ∈ l, rank e.1 ≠ rank key) : (m.set key val).setAll l = (m.setAll l).set key val := by
  induction l generalizing m with
  | nil => rfl
  | cons e l ih =>
    rw [List.forall_mem_cons] at h
    change ((m.set key val).set e.1 e.2).setAll l = _
    rw [set_comm h.1.symm, ih h.2]
    rfl

theorem put_eq_concat {key : K} {val : V} {l : List (K × V)} (h : ∀ x ∈ l, rank x.1 < rank key) :
    put rank key val l = l ++ [(key, val)] := by
  induction l with
  | nil => rfl
  | cons kv l ih =>
    rw [List.forall_mem_cons] at h
    rw [put, if_neg (lt_asymm h.1), if_pos h.1, ih h.2]
    rfl

theorem entries_setAll {m : OrderedMap K V rank} {l : List (K × V)}
    (h : (m.entries ++ l).Pairwise fun x y => rank x.1 < rank y.1) :
    (m.setAll l).entries = m.entries ++ l := by
  induction l generalizing m with
  | nil => rw [List.append_nil]; rfl
  | cons e l ih =>
    have hset : (m.set e.1 e.2).entries = m.entries ++ [e] :=
      put_eq_concat fun x hx => (List.pairwise_append.mp h).2.2 x hx e List.mem_cons_self
    change ((m.set e.1 e.2).setAll l).entries = _
    rw [ih] <;> rw [hset, List.append_assoc]
    · rfl
    · exact h

/-- A map is its entries, stored one after the other. -/
theorem setAll_entries (m : OrderedMap K V rank) : empty.setAll m.entries = m := by
  apply eq_of_entries
  exact entries_setAll (m := empty) m.sorted

end SetAll

end OrderedMap

end Sylar.Memory
