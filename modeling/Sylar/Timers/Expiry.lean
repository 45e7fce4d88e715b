import Mathlib.Tactic.FinCases
import Sylar.Timers.Invariant

/-! # Which timers expire

`listExpiredCb` looks for the end of the expired timers with a probe, whose address takes part in
the comparison, and then skips the timers of the same deadline. Whatever the address is, that
finds the timers whose deadline is not after the reading.
-/
namespace Sylar.Timers
open Memory TimerManager

variable {F : Type} {s : TimerManager F} {a p q : ℕ} {now : UInt64}

theorem take_skipEqual (now : UInt64) (it : ℕ) :
    s.timers.take (skipEqual s.heap now s.timers it) =
      s.timers.take it ++ (s.timers.drop it).takeWhile fun p => nextOf s.heap p == now := by
  rw [skipEqual, List.take_add, ← List.prefix_iff_eq_take.mp (List.takeWhile_prefix _)]

theorem Ordered.deadlines (h : Ordered s) :
    s.timers.Pairwise fun p q => (nextOf s.heap p).toNat ≤ (nextOf s.heap q).toNat := by
  apply h.sorted.imp
  intro p q hpq
  rw [less_iff, rank, rank, Prod.Lex.toLex_lt_toLex] at hpq
  rcases hpq with hlt | ⟨heq, -⟩
  · exact hlt.le
  · exact heq.le

theorem less_probe (hp : p ≠ a) :
    less (Function.update s.heap a (some (.at now))) p a = true ↔
      (nextOf s.heap p).toNat < now.toNat ∨ (nextOf s.heap p).toNat = now.toNat ∧ p < a := by
  rw [less_iff, rank, rank, Prod.Lex.toLex_lt_toLex, nextOf, nextOf, Function.update_self,
    Function.update_of_ne hp]
  rfl

/-- The expired timers end at the place of the probe, equal deadlines included. -/
theorem take_due (h : Ordered s) (ha : s.heap a = none) (now : UInt64) :
    s.timers.take (due s false a now) = s.timers.filter fun p => nextOf s.heap p ≤ now := by
  have hne {p : ℕ} (hp : p ∈ s.timers) : p ≠ a := by
    rintro rfl
    exact h.not_mem ha hp
  let before (p : ℕ) : Bool := less (Function.update s.heap a (some (.at now))) p a
  have hbefore : s.timers.Pairwise fun p q => before q = true → before p = true := by
    apply h.sorted.imp_of_mem
    intro p q hp hq hpq
    rw [less_iff, rank, rank, Prod.Lex.toLex_lt_toLex] at hpq
    rw [less_probe (hne hp), less_probe (hne hq)]
    dsimp only at hpq
    omega
  have hrest : ∀ p ∈ s.timers.dropWhile before, now.toNat ≤ (nextOf s.heap p).toNat := by
    intro p hp
    have hmem := (List.dropWhile_sublist before).subset hp
    have hnot := SortedSet.not_of_mem_dropWhile hbefore p hp
    rw [less_probe (hne hmem)] at hnot
    omega
  have hmono := h.deadlines.sublist (List.dropWhile_sublist before)
  -- behind the probe, what is due has the deadline `now`
  have hequal : (s.timers.dropWhile before).takeWhile (fun p => nextOf s.heap p == now) =
      (s.timers.dropWhile before).filter fun p => nextOf s.heap p ≤ now := by
    rw [SortedSet.takeWhile_eq_filter]
    · apply List.filter_congr
      intro p hp
      have hle := hrest p hp
      rw [Bool.eq_iff_iff, beq_iff_eq, decide_eq_true_eq, ← UInt64.toNat_inj,
        UInt64.le_iff_toNat_le]
      omega
    · apply hmono.imp_of_mem
      intro p q hp _ hpq hq
      have hle := hrest p hp
      rw [beq_iff_eq, ← UInt64.toNat_inj] at hq ⊢
      omega
  have hdue : (s.timers.takeWhile before).filter (fun p => nextOf s.heap p ≤ now) =
      s.timers.takeWhile before := by
    rw [List.filter_eq_self]
    intro p hp
    have hmem := (List.takeWhile_sublist before).subset hp
    have hlt := (less_probe (hne hmem)).mp (List.mem_takeWhile_imp (p := before) hp)
    rw [decide_eq_true_eq, UInt64.le_iff_toNat_le]
    omega
  rw [due, if_neg Bool.false_ne_true, take_skipEqual, SortedSet.take_lowerBound,
    SortedSet.drop_lowerBound, hequal, ← hdue, ← List.filter_append,
    List.takeWhile_append_dropWhile]

/-- The timers whose callbacks are handed out, in the order of the set. -/
theorem expired_eq (h : Ordered s) (ha : s.heap a = none) (now : UInt64) :
    expired s a now = s.timers.filter fun p =>
      rolledOver s.previousTime now || nextOf s.heap p ≤ now := by
  rw [expired]
  cases hroll : rolledOver s.previousTime now with
  | true =>
    have hall : due s true a now = s.timers.length := by
      rw [due, if_pos rfl, skipEqual, List.drop_length]
      rfl
    have hfilter : s.timers.filter (fun p => true || nextOf s.heap p ≤ now) = s.timers :=
      List.filter_eq_self.mpr fun _ _ => rfl
    rw [hall, List.take_length, hfilter, idle]
    cases s.timers with
    | nil => rfl
    | cons q l => rfl
  | false =>
    simp only [take_due h ha, Bool.false_or]
    split_ifs with hidle
    · rw [eq_comm, List.filter_eq_nil_iff]
      intro p hp
      have hmono := h.deadlines
      rw [idle] at hidle
      cases htimers : s.timers with
      | nil => simp [htimers] at hp
      | cons q l =>
        rw [htimers] at hidle hp hmono
        rw [List.pairwise_cons] at hmono
        have hq : now.toNat < (nextOf s.heap q).toNat := by
          simpa [UInt64.lt_iff_toNat_lt] using hidle
        rw [decide_eq_true_eq, UInt64.le_iff_toNat_le]
        rcases List.mem_cons.mp hp with rfl | hp
        · omega
        · have := hmono.1 p hp
          omega
    · rfl

/-- A call hands out the callbacks of the timers that are due, or of all of them if the clock was
set back, in the order of the set. A timer of a single shot leaves the set without its callback, a
recurring one is registered for the next deadline and no other timer changes. The address of the
probe does not matter. -/
theorem listExpiredCb_exact (h : Ordered s) (ha : s.heap a = none) (now : UInt64) :
    ∃ out s', out = s.timers.filter (fun p =>
          rolledOver s.previousTime now || nextOf s.heap p ≤ now) ∧
      listExpiredCb a now s = .done (out.map fun p => (s.heap p).bind Timer.cb) s' ∧
      (∀ b, s.heap b = none → listExpiredCb b now s = listExpiredCb a now s) ∧
      out.Pairwise (fun p q => nextOf s.heap p < nextOf s.heap q ∨
        nextOf s.heap p = nextOf s.heap q ∧ p < q) ∧
      Ordered s' ∧
      (∀ p ∈ out, ∃ t, s.heap p = some t ∧
        (t.recurring = false → p ∉ s'.timers ∧ s'.heap p = some { t with cb := none }) ∧
        (t.recurring = true → s'.timers.count p = 1 ∧
          s'.heap p = some { t with next := now + t.ms })) ∧
      ∀ p ∉ out, s'.heap p = s.heap p ∧ s'.timers.count p = s.timers.count p := by
  rcases listExpiredCb_spec now h a with ⟨s', hrun, hordered, hheap, hmem⟩
  have hout {b : ℕ} (hb : s.heap b = none) := expired_eq h hb now
  rw [hout ha] at hrun hheap hmem
  refine ⟨_, s', rfl, hrun, fun b hb => ?_, ?_, hordered, fun p hp => ?_, fun p hp => ?_⟩
  · cases hidle : idle s (rolledOver s.previousTime now) now with
    | true => rw [listExpiredCb_idle now b hidle, listExpiredCb_idle now a hidle]
    | false =>
      rw [listExpiredCb_apply now b hidle, listExpiredCb_apply now a hidle, hout ha, hout hb]
  · apply (h.sorted.sublist List.filter_sublist).imp
    intro p q hpq
    rw [less_iff, rank, rank, Prod.Lex.toLex_lt_toLex] at hpq
    rw [UInt64.lt_iff_toNat_lt, ← UInt64.toNat_inj]
    exact hpq
  · have hreg := (List.mem_filter.mp hp).1
    rcases h.alive p hreg with ⟨t, ht⟩
    have hin : p ∈ s'.timers ↔ t.recurring = true := by
      rw [hmem]
      simp [hreg, hp, ht]
    have hat : s'.heap p = some (t.handedOut now) := by
      rw [congrFun hheap p, if_pos hp, ht]
      rfl
    refine ⟨t, ht, fun hrec => ⟨?_, ?_⟩, fun hrec => ⟨?_, ?_⟩⟩
    · rw [hin, hrec]
      exact Bool.false_ne_true
    · rw [hat, Timer.handedOut, hrec]
      rfl
    · rw [hordered.nodup.count, if_pos (hin.mpr hrec)]
    · rw [hat, Timer.handedOut, hrec]
      rfl
  · have hin : p ∈ s'.timers ↔ p ∈ s.timers := by
      rw [hmem]
      simp [hp]
    refine ⟨(congrFun hheap p).trans (if_neg hp), ?_⟩
    rw [hordered.nodup.count, h.nodup.count]
    simp only [hin]

/-- Of three timers two are due, at the same time; the probe lies between them. -/
theorem listExpiredCb_exact_equal :
    ∃ s s' : TimerManager ℕ, s.timers = [2, 5, 7] ∧
      listExpiredCb 4 13 s = .done [some 0, some 1] s' ∧
      s'.timers.count 2 = 1 ∧ 5 ∉ s'.timers ∧ s'.timers.count 7 = 1 := by
  let s : TimerManager ℕ := (((init 0).store 2 ⟨true, 3, 13, some 0⟩).store 5
    ⟨false, 3, 13, some 1⟩).store 7 ⟨false, 9, 19, some 2⟩ |>.putTimers [2, 5, 7]
  have hs : Ordered s := by
    refine ⟨fun q hq => ?_, by decide⟩
    fin_cases hq <;> exact ⟨_, rfl⟩
  rcases listExpiredCb_exact hs (a := 4) rfl 13 with ⟨out, s', hout, hrun, -, -, -, hin, hother⟩
  obtain rfl : out = [2, 5] := hout.trans (by decide)
  rcases hin 2 (by decide) with ⟨t, ht, -, hrec⟩
  rcases hin 5 (by decide) with ⟨u, hu, hone, -⟩
  cases ht
  cases hu
  exact ⟨s, s', rfl, hrun, (hrec rfl).1, (hone rfl).1, (hother 7 (by decide)).2⟩

end Sylar.Timers
