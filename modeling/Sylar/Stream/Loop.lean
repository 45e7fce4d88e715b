import Sylar.Memory.Agree
import Mathlib.Algebra.BigOperators.Group.Finset.Basic
import Mathlib.Algebra.Order.BigOperators.Group.Finset
import Mathlib.Data.Int.Basic

/-! # The transfer loop of `readFixSize` and `writeFixSize`

The four functions are one loop around a partial transfer. The counters are
`size_t`, the result of the transfer is an `int` that is stored in a `size_t`
before it is tested.
-/
namespace Sylar.Stream
open Memory

def toSize (x : ℤ) : ℕ := (x % 2 ^ 64).toNat

def toInt (x : ℕ) : ℤ := if x % 2 ^ 32 < 2 ^ 31 then (x % 2 ^ 32 : ℕ) else (x % 2 ^ 32 : ℕ) - 2 ^ 32

variable {ε σ : Type}

/-- `while(left > 0)`: the transfer `io` is given the offset into the caller's buffer. -/
def fixSizeLoop (io : ℕ → Command ε σ ℤ) (length : ℕ) : ℕ → ℕ → ℕ → Command ε σ ℤ
  | 0, _, _ => Command.abort .fuelExhausted
  | fuel + 1, offset, left =>
    if left > 0 then do
      let r ← io offset
      let size := toSize r
      if size ≤ 0 then pure (toInt size)
      else fixSizeLoop io length fuel ((offset + size) % 2 ^ 64) ((left + 2 ^ 64 - size) % 2 ^ 64)
    else pure (toInt length)

/-- The bytes transferred by the first `k` calls. -/
def moved (r : ℕ → ℤ) (k : ℕ) : ℕ := ∑ i ∈ Finset.range k, (r i).toNat

@[simp] theorem moved_zero (r : ℕ → ℤ) : moved r 0 = 0 := rfl

theorem moved_succ (r : ℕ → ℤ) (k : ℕ) : moved r (k + 1) = moved r k + (r k).toNat := by
  rw [moved, Finset.sum_range_succ, moved]

theorem moved_mono (r : ℕ → ℤ) {j k : ℕ} (h : j ≤ k) : moved r j ≤ moved r k := by
  induction h with
  | refl => exact le_rfl
  | step h ih => exact ih.trans (by rw [moved_succ]; exact Nat.le_add_right _ _)

/-- While the count is short of `n` each call adds to it, so some call reaches `n`. -/
theorem exists_crossing {r : ℕ → ℤ} {n : ℕ} (hp : ∀ k, moved r k < n → 1 ≤ r k) (hn : 0 < n) :
    ∃ k, moved r k < n ∧ n ≤ moved r (k + 1) := by
  by_contra hnone
  have hall : ∀ k, moved r k < n ∧ k ≤ moved r k := by
    intro k
    induction k with
    | zero => exact ⟨hn, Nat.zero_le _⟩
    | succ k ih =>
      have hpos := hp k ih.1
      have hlt : ¬n ≤ moved r (k + 1) := fun h => hnone ⟨k, ih.1, h⟩
      rw [moved_succ] at hlt ⊢
      omega
  have := hall n
  omega

theorem toSize_of_nonneg {x : ℤ} (h : 0 ≤ x) (hlt : x < 2 ^ 64) : toSize x = x.toNat := by
  rw [toSize, Int.emod_eq_of_lt h hlt]

theorem toSize_of_neg {x : ℤ} (h : x < 0) (hge : -2 ^ 31 ≤ x) :
    (toSize x : ℤ) = x + 2 ^ 64 := by
  have hmod : x % 2 ^ 64 = x + 2 ^ 64 := by omega
  rw [toSize, hmod]
  omega

theorem toInt_eq_self_iff {n : ℕ} : toInt n = n ↔ n < 2 ^ 31 := by
  rw [toInt]
  split_ifs <;> omega

theorem toInt_bounds (n : ℕ) : -2 ^ 31 ≤ toInt n ∧ toInt n < 2 ^ 31 := by
  rw [toInt]
  split_ifs <;> omega

theorem toInt_neg {n : ℕ} (h : 2 ^ 64 - 2 ^ 31 ≤ n) (hlt : n < 2 ^ 64) : toInt n < 0 := by
  rw [toInt]
  split_ifs <;> omega

section Loop

variable {io : ℕ → Command ε σ ℤ} {n : ℕ} {s s' : σ}

@[simp] theorem fixSizeLoop_stop (fuel offset : ℕ) :
    fixSizeLoop io n (fuel + 1) offset 0 s = .done (toInt n) s := by
  simp [fixSizeLoop]

/-- One round after a call that returned. -/
theorem fixSizeLoop_call {fuel offset left : ℕ} {v : ℤ} (hleft : 0 < left)
    (hio : io offset s = .done v s') :
    fixSizeLoop io n (fuel + 1) offset left s =
      if toSize v = 0 then .done 0 s'
      else fixSizeLoop io n fuel ((offset + toSize v) % 2 ^ 64)
        ((left + 2 ^ 64 - toSize v) % 2 ^ 64) s' := by
  rw [fixSizeLoop, if_pos hleft, Command.bind_done hio, Command.ite_apply]
  by_cases h : toSize v = 0
  · rw [if_pos (by omega), if_pos h, h]
    rfl
  · rw [if_neg (by omega), if_neg h]

/-- A positive result that does not exceed the remaining count advances both counters. -/
theorem fixSizeLoop_advance {fuel offset left : ℕ} {v : ℤ} (hio : io offset s = .done v s')
    (hv : 1 ≤ v) (hle : v.toNat ≤ left) (hoff : offset + left < 2 ^ 64) :
    fixSizeLoop io n (fuel + 1) offset left s =
      fixSizeLoop io n fuel (offset + v.toNat) (left - v.toNat) s' := by
  have hsize : toSize v = v.toNat := toSize_of_nonneg (by omega) (by omega)
  rw [fixSizeLoop_call (by omega) hio, hsize, if_neg (by omega), Nat.mod_eq_of_lt (by omega),
    show left + 2 ^ 64 - v.toNat = left - v.toNat + 2 ^ 64 by omega, Nat.add_mod_right,
    Nat.mod_eq_of_lt (by omega)]

/-- Rounds with positive results, as long as no more than `n` bytes have been transferred. -/
theorem fixSizeLoop_rounds {r : ℕ → ℤ} (hn : n < 2 ^ 64) {I : ℕ → σ → Prop} {m : ℕ}
    (hstep : ∀ k < m, ∀ s, I k s → ∃ s', io (moved r k) s = .done (r k) s' ∧ I (k + 1) s')
    (hpos : ∀ k < m, 1 ≤ r k) (hm : moved r m ≤ n) (h0 : I 0 s) :
    ∃ s', I m s' ∧ ∀ fuel, fixSizeLoop io n (fuel + m) 0 n s =
      fixSizeLoop io n fuel (moved r m) (n - moved r m) s' := by
  induction m with
  | zero => exact ⟨s, h0, fun fuel => rfl⟩
  | succ m ih =>
    rw [moved_succ] at hm
    obtain ⟨s₁, h₁, hrun⟩ := ih (fun k hk => hstep k (by omega)) (fun k hk => hpos k (by omega))
      (by omega)
    obtain ⟨s₂, hio, h₂⟩ := hstep m (by omega) s₁ h₁
    refine ⟨s₂, h₂, fun fuel => ?_⟩
    rw [show fuel + (m + 1) = fuel + 1 + m by omega, hrun,
      fixSizeLoop_advance hio (hpos m (by omega)) (by omega) (by omega), moved_succ,
      Nat.sub_sub]

/-- A loop that returns with work left has made a call, and returned or gone on after it. -/
theorem fixSizeLoop_inv {fuel offset left : ℕ} {v : ℤ} (hleft : 0 < left)
    (h : fixSizeLoop io n (fuel + 1) offset left s = .done v s') :
    ∃ a s₁, io offset s = .done a s₁ ∧ ((toSize a = 0 ∧ v = 0 ∧ s' = s₁) ∨
      toSize a ≠ 0 ∧ fixSizeLoop io n fuel ((offset + toSize a) % 2 ^ 64)
        ((left + 2 ^ 64 - toSize a) % 2 ^ 64) s₁ = .done v s') := by
  cases hio : io offset s with
  | done a s₁ =>
    rw [fixSizeLoop_call hleft hio] at h
    refine ⟨a, s₁, rfl, ?_⟩
    split_ifs at h with hz
    · rw [Outcome.done.injEq] at h
      exact .inl ⟨hz, h.1.symm, h.2.symm⟩
    · exact .inr ⟨hz, h⟩
  | raised e s₁ => simp [fixSizeLoop, hleft, Command.bind_apply, hio] at h
  | fault f => simp [fixSizeLoop, hleft, Command.bind_apply, hio] at h

/-- What every call keeps, the loop keeps. -/
theorem fixSizeLoop_keeps {P : σ → Prop}
    (hio : ∀ offset s v s', P s → io offset s = .done v s' → P s') {fuel offset left : ℕ}
    {v : ℤ} (hP : P s) (h : fixSizeLoop io n fuel offset left s = .done v s') : P s' := by
  induction fuel generalizing offset left s with
  | zero => simp [fixSizeLoop] at h
  | succ fuel ih =>
    rcases Nat.eq_zero_or_pos left with rfl | hleft
    · rw [fixSizeLoop_stop, Outcome.done.injEq] at h
      rw [← h.2]
      exact hP
    · rcases fixSizeLoop_inv hleft h with ⟨a, s₁, hrun, ⟨-, -, rfl⟩ | ⟨-, hrest⟩⟩
      · exact hio offset s a s' hP hrun
      · exact ih (hio offset s a s₁ hP hrun) hrest

/-- The loop returns the converted length, or zero. -/
theorem fixSizeLoop_value {fuel offset left : ℕ} {v : ℤ}
    (h : fixSizeLoop io n fuel offset left s = .done v s') : v = toInt n ∨ v = 0 := by
  induction fuel generalizing offset left s with
  | zero => simp [fixSizeLoop] at h
  | succ fuel ih =>
    rcases Nat.eq_zero_or_pos left with rfl | hleft
    · rw [fixSizeLoop_stop, Outcome.done.injEq] at h
      exact .inl h.1.symm
    · rcases fixSizeLoop_inv hleft h with ⟨a, s₁, -, ⟨-, hv, -⟩ | ⟨-, hrest⟩⟩
      · exact .inr hv
      · exact ih hrest

/-- A loop whose calls use up something, unless they report zero, ends. -/
theorem fixSizeLoop_ends {P : σ → Prop} (measure : σ → ℕ)
    (hio : ∀ offset s, P s → io offset s ≠ .fault .fuelExhausted)
    (hdec : ∀ offset s v s', P s → io offset s = .done v s' →
      P s' ∧ (toSize v ≠ 0 → measure s' < measure s)) {fuel offset left : ℕ} (hP : P s)
    (hfuel : measure s < fuel) :
    fixSizeLoop io n fuel offset left s ≠ .fault .fuelExhausted := by
  induction fuel generalizing offset left s with
  | zero => omega
  | succ fuel ih =>
    rcases Nat.eq_zero_or_pos left with rfl | hleft
    · rw [fixSizeLoop_stop]
      nofun
    · rw [fixSizeLoop, if_pos hleft]
      apply Command.bind_ne_fault (hio offset s hP)
      intro v s' hrun
      obtain ⟨hP', hlt⟩ := hdec offset s v s' hP hrun
      rw [Command.ite_apply]
      split_ifs with hz
      · exact Command.Spares.pure _ s'
      · exact ih hP' (by have := hlt (by omega); omega)

theorem fixSizeLoop_agree {τ : Type} {R : σ → τ → Prop} {io' : ℕ → Command ε τ ℤ} {t : τ}
    (hio : ∀ offset s t, R s t → Command.Agree R (io offset s) (io' offset t))
    (fuel offset left : ℕ) (h : R s t) :
    Command.Agree R (fixSizeLoop io n fuel offset left s) (fixSizeLoop io' n fuel offset left t) := by
  induction fuel generalizing offset left s t with
  | zero => rfl
  | succ fuel ih =>
    apply Command.Agree.ite
    · intro _
      apply (hio offset s t h).bind
      intro v s' t' h'
      apply Command.Agree.ite
      · intro _
        exact ⟨rfl, h'⟩
      · intro _
        exact ih _ _ h'
    · intro _
      exact ⟨rfl, h⟩

/-- More rounds than needed change nothing. -/
theorem fixSizeLoop_mono {fuel offset left : ℕ} {v : ℤ} (m : ℕ)
    (h : fixSizeLoop io n fuel offset left s = .done v s') :
    fixSizeLoop io n (fuel + m) offset left s = .done v s' := by
  induction fuel generalizing offset left s with
  | zero => simp [fixSizeLoop] at h
  | succ fuel ih =>
    rw [show fuel + 1 + m = fuel + m + 1 by omega]
    rcases Nat.eq_zero_or_pos left with rfl | hleft
    · rw [fixSizeLoop_stop] at h ⊢
      exact h
    · rcases fixSizeLoop_inv hleft h with ⟨a, s₁, hrun, ⟨hz, rfl, rfl⟩ | ⟨hz, hrest⟩⟩
      · rw [fixSizeLoop_call hleft hrun, if_pos hz]
      · rw [fixSizeLoop_call hleft hrun, if_neg hz, ih hrest]

/-- A first result that is not positive ends the loop at once exactly when it is zero, or when
the wrapped counter happens to reach zero. -/
theorem fixSizeLoop_stops_iff {r : ℕ → ℤ} (hn : n < 2 ^ 64) {I : ℕ → σ → Prop} {j : ℕ}
    (calls : σ → ℕ)
    (hstep : ∀ k < j + 1, ∀ s, I k s → ∃ s', io (moved r k) s = .done (r k) s' ∧ I (k + 1) s')
    (hI : ∀ s, I (j + 1) s → calls s = j + 1)
    (hcalls : ∀ offset s v s', io offset s = .done v s' → calls s' = calls s + 1)
    (hpos : ∀ k < j, 1 ≤ r k) (hj : moved r j < n) (hlow : -2 ^ 31 ≤ r j) (hle : r j ≤ 0)
    (h0 : I 0 s) :
    (∃ fuel v s', fixSizeLoop io n fuel 0 n s = .done v s' ∧ calls s' = j + 1 ∧
      (r j = 0 → v = 0) ∧ (r j < 0 → v < 0)) ↔
      r j = 0 ∨ ((n - moved r j : ℕ) : ℤ) - r j = 2 ^ 64 := by
  obtain ⟨s₁, h₁, hrounds⟩ := fixSizeLoop_rounds hn (fun k hk => hstep k (by omega)) hpos hj.le h0
  obtain ⟨s₂, hio, h₂⟩ := hstep j (by omega) s₁ h₁
  have hcall (fuel : ℕ) : fixSizeLoop io n (fuel + 1 + j) 0 n s = _ :=
    (hrounds (fuel + 1)).trans (fixSizeLoop_call (by omega) hio)
  rcases hle.eq_or_lt with hzero | hneg
  · refine ⟨fun _ => .inl hzero, fun _ => ⟨0 + 1 + j, 0, s₂, ?_, hI s₂ h₂, fun _ => rfl, ?_⟩⟩
    · rw [hcall, if_pos (by rw [hzero]; rfl)]
    · intro h
      omega
  · have hsize := toSize_of_neg hneg hlow
    have hne : toSize (r j) ≠ 0 := by omega
    by_cases hwrap : ((n - moved r j : ℕ) : ℤ) - r j = 2 ^ 64
    · have hleft : (n - moved r j + 2 ^ 64 - toSize (r j)) % 2 ^ 64 = 0 := by omega
      refine ⟨fun _ => .inr hwrap, fun _ => ⟨1 + 1 + j, toInt n, s₂, ?_, hI s₂ h₂, ?_, ?_⟩⟩
      · rw [hcall, if_neg hne, hleft, fixSizeLoop_stop]
      · intro h
        omega
      · intro _
        exact toInt_neg (by omega) hn
    · have hleft : 0 < (n - moved r j + 2 ^ 64 - toSize (r j)) % 2 ^ 64 := by omega
      constructor
      · rintro ⟨fuel, v, s', hrun, hend, -⟩
        have hmore := fixSizeLoop_mono (1 + 1 + j) hrun
        rw [show fuel + (1 + 1 + j) = fuel + 1 + 1 + j by omega, hcall, if_neg hne] at hmore
        rcases fixSizeLoop_inv hleft hmore with ⟨a, s₃, hnext, hafter⟩
        have h₃ : j + 2 ≤ calls s₃ := by
          rw [hcalls _ _ _ _ hnext, hI s₂ h₂]
        rcases hafter with ⟨-, -, rfl⟩ | ⟨-, hrest⟩
        · omega
        · have hkeep : ∀ offset s v s', j + 2 ≤ calls s → io offset s = .done v s' →
              j + 2 ≤ calls s' := by
            intro offset s v s' h hio
            rw [hcalls _ _ _ _ hio]
            omega
          have hmany := fixSizeLoop_keeps hkeep h₃ hrest
          omega
      · rintro (h | h)
        · omega
        · exact absurd h hwrap

/-- A transfer that is not told the offset is exact when some number of results adds up to
`n`, and `n` is an `int`. Once more than `n` bytes have been transferred the cursor never
comes back. -/
theorem fixSizeLoop_exact_iff {r : ℕ → ℤ} (hn : n < 2 ^ 64) {I : ℕ → σ → Prop}
    {J Q : σ → Prop} (pos : σ → ℕ) (p : ℕ)
    (hstep : ∀ k s, I k s → moved r k < n → ∃ s', io (moved r k) s = .done (r k) s' ∧ I (k + 1) s')
    (hI : ∀ k s, I k s → J s ∧ pos s = p + moved r k)
    (hJ : ∀ offset s v s', J s → io offset s = .done v s' → J s' ∧ pos s ≤ pos s')
    (hQ : ∀ k s, I k s → moved r k = n → Q s)
    (hp : ∀ k, moved r k < n → 1 ≤ r k) (h0 : I 0 s) :
    (∃ fuel s', fixSizeLoop io n fuel 0 n s = .done (n : ℤ) s' ∧ pos s' = p + n ∧ Q s') ↔
      n < 2 ^ 31 ∧ ∃ k, moved r k = n := by
  -- the rounds up to a point where at most `n` bytes have been transferred
  have hrounds (m : ℕ) (hm : moved r m ≤ n) (hlt : ∀ k < m, moved r k < n) :
      ∃ s', I m s' ∧ ∀ fuel, fixSizeLoop io n (fuel + m) 0 n s =
        fixSizeLoop io n fuel (moved r m) (n - moved r m) s' :=
    fixSizeLoop_rounds hn (fun k hk s hs => hstep k s hs (hlt k hk)) (fun k hk => hp k (hlt k hk))
      hm h0
  constructor
  · rintro ⟨fuel, s', hrun, hpos, -⟩
    constructor
    · rcases fixSizeLoop_value hrun with hv | hv
      · exact toInt_eq_self_iff.mp hv.symm
      · omega
    · by_contra hnone
      have hn0 : 0 < n := Nat.pos_of_ne_zero fun h => hnone ⟨0, h.symm⟩
      obtain ⟨k, hk, hcross⟩ := exists_crossing hp hn0
      have hover : n < moved r (k + 1) := lt_of_le_of_ne hcross fun h => hnone ⟨k + 1, h.symm⟩
      obtain ⟨s₁, h₁, hrun₁⟩ := hrounds k hk.le fun i hi => (moved_mono r hi.le).trans_lt hk
      obtain ⟨s₂, hio, h₂⟩ := hstep k s₁ h₁ hk
      have hkeep : ∀ offset s v s', J s ∧ p + n < pos s → io offset s = .done v s' →
          J s' ∧ p + n < pos s' := by
        intro offset s v s' hs hio
        obtain ⟨hJ', hle⟩ := hJ offset s v s' hs.1 hio
        exact ⟨hJ', hs.2.trans_le hle⟩
      have hfar : J s₂ ∧ p + n < pos s₂ := by
        obtain ⟨hJ₂, hpos₂⟩ := hI (k + 1) s₂ h₂
        exact ⟨hJ₂, by omega⟩
      have hmore := fixSizeLoop_mono (1 + k) hrun
      rw [show fuel + (1 + k) = fuel + 1 + k by omega, hrun₁] at hmore
      rcases fixSizeLoop_inv (by omega) hmore with ⟨a, s₃, hio', hafter⟩
      rw [hio, Outcome.done.injEq] at hio'
      rw [← hio'.2] at hafter
      rcases hafter with ⟨-, -, rfl⟩ | ⟨-, hrest⟩
      · omega
      · have := (fixSizeLoop_keeps hkeep hfar hrest).2
        omega
  · rintro ⟨hint, hex⟩
    classical
    have hfind := Nat.find_spec hex
    have hlt : ∀ i < Nat.find hex, moved r i < n := fun i hi =>
      lt_of_le_of_ne (hfind ▸ moved_mono r hi.le) (Nat.find_min hex hi)
    obtain ⟨s', hs', hrun⟩ := hrounds (Nat.find hex) hfind.le hlt
    refine ⟨0 + 1 + Nat.find hex, s', ?_, ?_, hQ _ s' hs' hfind⟩
    · rw [hrun, hfind, Nat.sub_self, fixSizeLoop_stop, toInt_eq_self_iff.mpr hint]
    · rw [(hI _ s' hs').2, hfind]

/-- A transfer into a buffer asks for the full length in every call, so only the first call
stays inside the buffer. -/
theorem fixSizeLoop_inside_iff {v : ℤ} (hn : n < 2 ^ 64) (asked : σ → List (ℕ × ℕ))
    {Q : σ → Prop} (hask : ∀ offset s v s', io offset s = .done v s' →
      asked s' = asked s ++ [(offset, n)]) (h0 : asked s = [])
    (hv : 0 < n → 1 ≤ v ∧ v ≤ n ∧ v < 2 ^ 31) (hio : io 0 s = .done v s')
    (hQ₀ : n = 0 → Q s) (hQ₁ : v = n → Q s') :
    (∃ fuel t, fixSizeLoop io n fuel 0 n s = .done (n : ℤ) t ∧
      (∀ q ∈ asked t, q.1 + q.2 ≤ n) ∧ Q t) ↔ n = 0 ∨ v = n := by
  constructor
  · rintro ⟨fuel, t, hrun, hin, -⟩
    by_contra hnot
    push Not at hnot
    obtain ⟨hv₁, hv₂, -⟩ := hv (Nat.pos_of_ne_zero hnot.1)
    have hmore := fixSizeLoop_mono 2 hrun
    rw [fixSizeLoop_advance hio hv₁ (by omega) (by omega)] at hmore
    rcases fixSizeLoop_inv (by omega) hmore with ⟨a, s₂, hio₂, hafter⟩
    have hout : (0 + v.toNat, n) ∈ asked s₂ := by
      rw [hask _ _ _ _ hio₂]
      simp
    have hkeep : ∀ offset s v' s', (0 + v.toNat, n) ∈ asked s → io offset s = .done v' s' →
        (0 + v.toNat, n) ∈ asked s' := by
      intro offset s v' s' h hio
      rw [hask _ _ _ _ hio]
      exact List.mem_append_left _ h
    have hlast : (0 + v.toNat, n) ∈ asked t := by
      rcases hafter with ⟨-, -, rfl⟩ | ⟨-, hrest⟩
      · exact hout
      · exact fixSizeLoop_keeps (P := fun s => (0 + v.toNat, n) ∈ asked s) hkeep hout hrest
    have := hin _ hlast
    dsimp only at this
    omega
  · rintro (rfl | hfull)
    · refine ⟨1, s, by rw [fixSizeLoop_stop]; rfl, ?_, hQ₀ rfl⟩
      rw [h0]
      simp
    · rcases Nat.eq_zero_or_pos n with rfl | hpos
      · refine ⟨1, s, by rw [fixSizeLoop_stop]; rfl, ?_, hQ₀ rfl⟩
        rw [h0]
        simp
      · obtain ⟨hv₁, hv₂, hv₃⟩ := hv hpos
        refine ⟨2, s', ?_, ?_, hQ₁ hfull⟩
        · rw [fixSizeLoop_advance hio hv₁ (by omega) (by omega), hfull, Int.toNat_natCast,
            Nat.sub_self, fixSizeLoop_stop, toInt_eq_self_iff.mpr (by omega)]
        · rw [hask _ _ _ _ hio, h0]
          simp

end Loop

end Sylar.Stream
