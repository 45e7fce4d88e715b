import Sylar.Net.Address
import Mathlib.Data.Set.Function
import Mathlib.Logic.Equiv.Basic

/-! # Addresses as keys

`Address::operator<` compares the bytes up to the shorter length and falls back on the places of
the objects. It is an order that agrees with `operator==` exactly on objects that never need the
places.
-/
namespace Sylar.Net
open Sylar.ByteArray (Endian)

section Bytes

variable {x y z : List UInt8} {b c : UInt8}

theorem compareBytes_cons_lt : compareBytes (b :: x) (c :: y) = .lt ↔
    b < c ∨ (b = c ∧ compareBytes x y = .lt) := by
  rw [compareBytes]
  by_cases hlt : b < c
  · simp [hlt]
  · by_cases hgt : c < b
    · have hne : b ≠ c := fun h => UInt8.lt_irrefl b (h ▸ hgt)
      simp [hlt, hgt, hne]
    · have heq : b = c := UInt8.le_antisymm (UInt8.not_lt.mp hgt) (UInt8.not_lt.mp hlt)
      simp [heq, UInt8.lt_irrefl]

theorem compareBytes_trans (hxy : compareBytes x y = .lt) (hyz : compareBytes y z = .lt) :
    compareBytes x z = .lt := by
  induction x generalizing y z with
  | nil => cases y <;> cases hxy
  | cons b x ih =>
    cases y with
    | nil => cases hxy
    | cons c y =>
      cases z with
      | nil => cases hyz
      | cons d z =>
        rw [compareBytes_cons_lt] at hxy hyz ⊢
        rcases hxy with hbc | ⟨rfl, hxy⟩
        · rcases hyz with hcd | ⟨rfl, -⟩
          · exact .inl (UInt8.lt_trans hbc hcd)
          · exact .inl hbc
        · rcases hyz with hcd | ⟨rfl, hyz⟩
          · exact .inl hcd
          · exact .inr ⟨rfl, ih hxy hyz⟩

theorem compareBytes_swap (x y : List UInt8) : compareBytes y x = (compareBytes x y).swap := by
  induction x generalizing y with
  | nil => cases y <;> rfl
  | cons b x ih =>
    cases y with
    | nil => rfl
    | cons c y =>
      rw [compareBytes, compareBytes]
      by_cases hlt : b < c
      · rw [if_neg (UInt8.lt_asymm hlt), if_pos hlt, if_pos hlt]
        rfl
      · by_cases hgt : c < b
        · rw [if_pos hgt, if_neg hlt, if_pos hgt]
          rfl
        · rw [if_neg hgt, if_neg hlt, if_neg hlt, if_neg hgt, ih]

/-- The bytes of one string are all found in the other one. -/
theorem compareBytes_eq_iff : compareBytes x y = .eq ↔ x <+: y ∨ y <+: x := by
  induction x generalizing y with
  | nil => simp [compareBytes]
  | cons b x ih =>
    cases y with
    | nil => simp [compareBytes]
    | cons c y =>
      rw [compareBytes, List.cons_prefix_cons, List.cons_prefix_cons]
      by_cases hlt : b < c
      · have hne : b ≠ c := fun h => UInt8.lt_irrefl b (h ▸ hlt)
        simp [hlt, hne, hne.symm]
      · by_cases hgt : c < b
        · have hne : b ≠ c := fun h => UInt8.lt_irrefl b (h ▸ hgt)
          simp [hlt, hgt, hne, hne.symm]
        · have heq : b = c := UInt8.le_antisymm (UInt8.not_lt.mp hgt) (UInt8.not_lt.mp hlt)
          simp [heq, ih, UInt8.lt_irrefl]

/-- The comparison never looks behind the end of the shorter string. -/
theorem compareBytes_take (x y : List UInt8) :
    compareBytes (x.take (min x.length y.length)) (y.take (min x.length y.length)) =
      compareBytes x y := by
  induction x generalizing y with
  | nil => cases y <;> rfl
  | cons b x ih =>
    cases y with
    | nil => rfl
    | cons c y =>
      rw [List.length_cons, List.length_cons, Nat.succ_min_succ, List.take_succ_cons,
        List.take_succ_cons, compareBytes, compareBytes, ih]

end Bytes

namespace Address

variable (host : Endian)

/-- The bytes that `operator<` and `operator==` may look at. -/
def bytes (v : Address) : List UInt8 := (v.image host).take v.getAddrLen

def Bounded (v : Address) : Prop := v.getAddrLen ≤ (v.image host).length

variable {host} {u v : Address}

theorem length_bytes (h : v.Bounded host) : (v.bytes host).length = v.getAddrLen := by
  rw [bytes, List.length_take, min_eq_left h]

theorem memcmp_bytes (hu : u.Bounded host) (hv : v.Bounded host) :
    memcmp (u.image host) (v.image host) (min u.getAddrLen v.getAddrLen) =
      .ok (compareBytes (u.bytes host) (v.bytes host)) := by
  have hlong : ¬((u.image host).length < min u.getAddrLen v.getAddrLen ∨
      (v.image host).length < min u.getAddrLen v.getAddrLen) := by
    rw [Bounded] at hu hv
    omega
  rw [memcmp, if_neg hlong, ← compareBytes_take (u.bytes host), length_bytes hu, length_bytes hv,
    bytes, bytes, List.take_take, List.take_take, min_eq_left (min_le_left _ _),
    min_eq_left (min_le_right _ _)]

end Address

namespace Object

variable {host : Endian} {a b : Object}

theorem less_eq (ha : a.value.Bounded host) (hb : b.value.Bounded host) :
    a.less host b = .ok (match compareBytes (a.value.bytes host) (b.value.bytes host) with
      | .lt => true
      | .gt => false
      | .eq => decide (a.place < b.place)) := by
  rw [less, Address.memcmp_bytes ha hb]
  cases compareBytes (a.value.bytes host) (b.value.bytes host) <;> rfl

theorem equal_iff (ha : a.value.Bounded host) (hb : b.value.Bounded host) :
    a.equal host b = .ok true ↔ a.value.bytes host = b.value.bytes host := by
  rw [equal]
  by_cases hlen : a.value.getAddrLen = b.value.getAddrLen
  · have hcmp := Address.memcmp_bytes ha hb
    rw [← hlen, min_self] at hcmp
    have hlengths : (a.value.bytes host).length = (b.value.bytes host).length := by
      rw [Address.length_bytes ha, Address.length_bytes hb, hlen]
    rw [if_pos hlen, hcmp]
    change Except.ok (decide (compareBytes _ _ = .eq)) = Except.ok true ↔ _
    rw [Except.ok.injEq, decide_eq_true_eq, compareBytes_eq_iff]
    constructor
    · rintro (h | h)
      · exact h.eq_of_length hlengths
      · exact (h.eq_of_length hlengths.symm).symm
    · intro h
      exact .inl (h ▸ List.prefix_refl _)
  · rw [if_neg hlen]
    constructor
    · intro h
      cases h
    · intro h
      have hlengths := congrArg List.length h
      rw [Address.length_bytes ha, Address.length_bytes hb] at hlengths
      exact absurd hlengths hlen

/-- The comparison of an object with itself looks at all of its bytes. -/
theorem bounded_of_less (h : a.less host a = .ok false) : a.value.Bounded host := by
  by_contra hover
  have hlong : (a.value.image host).length < min a.value.getAddrLen a.value.getAddrLen := by
    rw [min_self]
    exact Nat.not_le.mp hover
  rw [less, memcmp, if_pos (.inl hlong)] at h
  cases h

end Object

/-- Address objects that are alive together: no two of them are at one place. -/
structure Population where
  objects : Set Object
  apart : Set.InjOn Object.place objects

namespace Population

variable (host : Endian)

/-- `operator<` is a strict weak order whose ties are the equal addresses, and moving the objects
to other places changes nothing. -/
structure Ordered (s : Population) : Prop where
  irrefl : ∀ a ∈ s.objects, a.less host a = .ok false
  trans : ∀ a ∈ s.objects, ∀ b ∈ s.objects, ∀ c ∈ s.objects, a.less host b = .ok true →
    b.less host c = .ok true → a.less host c = .ok true
  keys : ∀ a ∈ s.objects, ∀ b ∈ s.objects,
    (a.less host b = .ok false ∧ b.less host a = .ok false) ↔ a.equal host b = .ok true
  placed : ∀ move : Object → ℕ, Set.InjOn move s.objects → ∀ a ∈ s.objects, ∀ b ∈ s.objects,
    Object.less host ⟨move a, a.value⟩ ⟨move b, b.value⟩ = a.less host b

/-- No length goes beyond its structure, and the bytes of no object begin those of another. -/
def Distinct (s : Population) : Prop :=
  (∀ a ∈ s.objects, a.value.Bounded host) ∧
  ∀ a ∈ s.objects, ∀ b ∈ s.objects, a ≠ b → ¬a.value.bytes host <+: b.value.bytes host

variable {host} {s : Population} {a b : Object}

/-- Objects whose bytes tie are ordered by their places, which may be exchanged. -/
theorem Ordered.no_tie (h : s.Ordered host) (ha : a ∈ s.objects) (hb : b ∈ s.objects)
    (hne : a ≠ b) : compareBytes (a.value.bytes host) (b.value.bytes host) ≠ .eq := by
  intro htie
  have hplaces : a.place ≠ b.place := fun hp => hne (s.apart ha hb hp)
  have hbounda := Object.bounded_of_less (h.irrefl a ha)
  have hboundb := Object.bounded_of_less (h.irrefl b hb)
  have hmove : Set.InjOn (fun x : Object => Equiv.swap a.place b.place x.place) s.objects :=
    (Equiv.injective _).comp_injOn s.apart
  have hplaced := h.placed _ hmove a ha b hb
  rw [Object.less_eq hbounda hboundb, Object.less_eq (by exact hbounda) (by exact hboundb)]
    at hplaced
  simp only [Equiv.swap_apply_left, Equiv.swap_apply_right, htie, Except.ok.injEq,
    decide_eq_decide] at hplaced
  omega

/-- Distinct objects are told apart by their bytes. -/
theorem Distinct.no_tie (h : s.Distinct host) (ha : a ∈ s.objects) (hb : b ∈ s.objects)
    (hne : a ≠ b) : compareBytes (a.value.bytes host) (b.value.bytes host) ≠ .eq := by
  rw [ne_eq, compareBytes_eq_iff, not_or]
  exact ⟨h.2 a ha b hb hne, h.2 b hb a ha hne.symm⟩

theorem Distinct.less_iff (h : s.Distinct host) (ha : a ∈ s.objects) (hb : b ∈ s.objects) :
    a.less host b = .ok (decide (compareBytes (a.value.bytes host) (b.value.bytes host) = .lt)) := by
  rw [Object.less_eq (h.1 a ha) (h.1 b hb)]
  by_cases hab : a = b
  · subst hab
    rw [compareBytes_eq_iff.mpr (.inl (List.prefix_refl _))]
    simp
  · have htie := h.no_tie ha hb hab
    cases hcmp : compareBytes (a.value.bytes host) (b.value.bytes host) with
    | lt => rfl
    | gt => rfl
    | eq => exact absurd hcmp htie

theorem Distinct.ordered (h : s.Distinct host) : s.Ordered host := by
  constructor
  · intro a ha
    rw [h.less_iff ha ha, compareBytes_eq_iff.mpr (.inl (List.prefix_refl _))]
    rfl
  · intro a ha b hb c hc hab hbc
    rw [h.less_iff ha hb, Except.ok.injEq, decide_eq_true_eq] at hab
    rw [h.less_iff hb hc, Except.ok.injEq, decide_eq_true_eq] at hbc
    rw [h.less_iff ha hc, compareBytes_trans hab hbc]
    rfl
  · intro a ha b hb
    rw [h.less_iff ha hb, h.less_iff hb ha, Object.equal_iff (h.1 a ha) (h.1 b hb),
      compareBytes_swap (a.value.bytes host)]
    by_cases hab : a = b
    · subst hab
      rw [compareBytes_eq_iff.mpr (.inl (List.prefix_refl _))]
      simp
    · have htie := h.no_tie ha hb hab
      have hne : a.value.bytes host ≠ b.value.bytes host := fun heq =>
        htie (compareBytes_eq_iff.mpr (.inl (heq ▸ List.prefix_refl _)))
      cases hcmp : compareBytes (a.value.bytes host) (b.value.bytes host) with
      | lt => simp [hne]
      | gt => simp [hne]
      | eq => exact absurd hcmp htie
  · intro move hmove a ha b hb
    rw [h.less_iff ha hb, Object.less_eq (by exact h.1 a ha) (by exact h.1 b hb)]
    by_cases hab : a = b
    · subst hab
      rw [compareBytes_eq_iff.mpr (.inl (List.prefix_refl _))]
      simp
    · have htie := h.no_tie ha hb hab
      cases hcmp : compareBytes (a.value.bytes host) (b.value.bytes host) with
      | lt => rfl
      | gt => rfl
      | eq => exact absurd hcmp htie

/-- The comparisons of address objects are those of keys exactly if the objects are told apart by
their bytes. -/
theorem ordered_iff_distinct (host : Endian) (s : Population) :
    s.Ordered host ↔ s.Distinct host := by
  constructor
  · intro h
    refine ⟨fun a ha => Object.bounded_of_less (h.irrefl a ha), fun a ha b hb hne hbegins => ?_⟩
    exact h.no_tie ha hb hne (compareBytes_eq_iff.mpr (.inl hbegins))
  · exact Distinct.ordered

end Population

/-- 127.0.0.1 with the port 80, in an object at some place. -/
def localAt (place : ℕ) : Object := ⟨place, .ipv4 ⟨afInet, 0x5000, 0x0100007F, 0⟩⟩

/-- An abstract socket with the name `text` behind the NUL. -/
def socketAt (place : ℕ) (text : List UInt8) : Object :=
  ⟨place, .unix ⟨1, Vector.ofFn fun i => (0 :: text).getD i 0⟩ (.ofNat (text.length + 3))⟩

/-- Two objects with one address are different keys, and the order of three sockets goes round. -/
theorem places_decide :
    (localAt 0).equal .little (localAt 16) = .ok true ∧
    (localAt 0).less .little (localAt 16) = .ok true ∧
    (socketAt 0 [98]).less .little (socketAt 200 []) = .ok true ∧
    (socketAt 200 []).less .little (socketAt 400 [97]) = .ok true ∧
    (socketAt 0 [98]).less .little (socketAt 400 [97]) = .ok false := by
  decide +kernel

end Sylar.Net
