import Sylar.Timers.Model

/-! # The set of timers over whole runs

The set is in the order of the deadlines, since every operation takes a timer out of it before
it changes the deadline. What a call leaves is said once, as the timers and which of them are
registered; that a timer is registered exactly while it has a callback follows.
-/
namespace Sylar.Timers
open Memory TimerManager

variable {F C W : Type}

section Order

variable {heap heap' : ℕ → Option (Timer F)} {p q : ℕ}

/-- The place of a timer in the order. -/
def rank (heap : ℕ → Option (Timer F)) (p : ℕ) : ℕ ×ₗ ℕ := toLex ((nextOf heap p).toNat, p)

theorem rank_injective (heap : ℕ → Option (Timer F)) : Function.Injective (rank heap) := by
  intro p q h
  exact congrArg (fun r => (ofLex r).2) h

theorem less_iff (heap : ℕ → Option (Timer F)) (p q : ℕ) :
    less heap p q = true ↔ rank heap p < rank heap q := by
  rw [rank, rank, Prod.Lex.toLex_lt_toLex, less, comparator]
  dsimp only
  split_ifs with h h' <;> rw [UInt64.lt_iff_toNat_lt] at h
  · exact ⟨fun _ => .inl h, fun _ => rfl⟩
  · rw [UInt64.lt_iff_toNat_lt] at h'
    simp only [false_iff]
    omega
  · rw [UInt64.lt_iff_toNat_lt] at h'
    rw [decide_eq_true_eq]
    omega

theorem less_congr (hp : heap p = heap' p) (hq : heap q = heap' q) :
    less heap p q = less heap' p q := by
  have hp' : nextOf heap p = nextOf heap' p := by rw [nextOf, hp, nextOf]
  have hq' : nextOf heap q = nextOf heap' q := by rw [nextOf, hq, nextOf]
  rw [less, less, comparator, comparator, hp', hq']

end Order

/-- `m_timers` is in order and its timers are alive. -/
structure Ordered (s : TimerManager F) : Prop where
  alive : ∀ q ∈ s.timers, ∃ t, s.heap q = some t
  sorted : s.timers.Pairwise fun q r => less s.heap q r = true

/-- What a call leaves: the timers `heap`, those of `mem` being registered. -/
structure After (s : TimerManager F) (heap : ℕ → Option (Timer F)) (mem : ℕ → Prop) : Prop where
  ordered : Ordered s
  heap_eq : s.heap = heap
  mem_iff : ∀ q, q ∈ s.timers ↔ mem q

/-- `m_timers` is in order and holds the timers that have a callback, those in `out` apart, which
have been taken out. -/
structure Loose (out : List ℕ) (s : TimerManager F) : Prop where
  alive : ∀ q ∈ s.timers, ∃ t, s.heap q = some t
  armed : ∀ q t, q ∉ out → s.heap q = some t → (q ∈ s.timers ↔ t.cb.isSome)
  sorted : s.timers.Pairwise fun q r => less s.heap q r = true
  absent : ∀ q ∈ out, q ∉ s.timers

abbrev Good (s : TimerManager F) : Prop := Loose [] s

/-- `m_timers` is in order and holds at least the timers that have a callback. -/
structure Kept (s : TimerManager F) : Prop extends Ordered s where
  armed : ∀ q t, s.heap q = some t → t.cb.isSome → q ∈ s.timers

variable {s s' : TimerManager F} {p : ℕ} {t : Timer F} {out : List ℕ}

theorem good_init (now : UInt64) : Good (init now : TimerManager F) :=
  ⟨nofun, nofun, .nil, nofun⟩

theorem kept_init (now : UInt64) : Kept (init now : TimerManager F) :=
  ⟨⟨nofun, .nil⟩, nofun⟩

theorem Good.mem_iff (h : Good s) (ht : s.heap p = some t) : p ∈ s.timers ↔ t.cb.isSome :=
  h.armed p t List.not_mem_nil ht

theorem Good.kept (h : Good s) : Kept s :=
  ⟨⟨h.alive, h.sorted⟩, fun _ _ ht => (h.mem_iff ht).mpr⟩

section Moves

theorem heap_store (s : TimerManager F) (p : ℕ) (t : Timer F) :
    (s.store p t).heap = Function.update s.heap p (some t) := rfl

theorem Ordered.nodup (h : Ordered s) : s.timers.Nodup :=
  SortedSet.nodup_of_pairwise (less_iff s.heap) h.sorted

theorem Ordered.exists_find (h : Ordered s) (hp : p ∈ s.timers) : ∃ i, s.find p = some i :=
  SortedSet.exists_find (less_iff s.heap) h.sorted hp

theorem Ordered.not_mem (h : Ordered s) (hp : s.heap p = none) : p ∉ s.timers := by
  intro hmem
  rcases h.alive p hmem with ⟨t, ht⟩
  rw [hp] at ht
  cases ht

/-- A timer that is not registered changes. -/
theorem Ordered.update (h : Ordered s) (hp : p ∉ s.timers) (x : Option (Timer F)) :
    Ordered { s with heap := Function.update s.heap p x } := by
  have hother {q : ℕ} (hq : q ∈ s.timers) : Function.update s.heap p x q = s.heap q := by
    apply Function.update_of_ne
    rintro rfl
    exact hp hq
  constructor
  · intro q hq
    dsimp only
    rw [hother hq]
    exact h.alive q hq
  · apply SortedSet.pairwise_congr _ h.sorted
    intro q hq r hr
    exact less_congr (hother hq).symm (hother hr).symm

theorem mem_insert {q : ℕ} : q ∈ (s.insert p).timers ↔ q = p ∨ q ∈ s.timers :=
  SortedSet.mem_insert (less_iff s.heap) (rank_injective s.heap)

theorem Ordered.insert (h : Ordered s) (ht : s.heap p = some t) : Ordered (s.insert p) := by
  constructor
  · intro q hq
    rcases mem_insert.mp hq with rfl | hq
    · exact ⟨t, ht⟩
    · exact h.alive q hq
  · exact SortedSet.pairwise_insert (less_iff s.heap) h.sorted

/-- A timer that is outside is inserted after it has been given a deadline. -/
theorem Ordered.rearm (h : Ordered s) (hp : p ∉ s.timers) (t : Timer F) :
    After ((s.store p t).insert p) (Function.update s.heap p (some t))
      (fun q => q = p ∨ q ∈ s.timers) := by
  constructor
  · exact Ordered.insert (h.update hp (some t)) (Function.update_self p _ _)
  · rfl
  · intro q
    exact mem_insert

theorem Ordered.sublist {l : List ℕ} (h : Ordered s) (hl : l.Sublist s.timers) :
    Ordered (s.putTimers l) :=
  ⟨fun q hq => h.alive q (hl.subset hq), h.sorted.sublist hl⟩

/-- A timer that was found is taken out. -/
theorem Ordered.mem_erase {i q : ℕ} (h : Ordered s) (hi : s.find p = some i) :
    q ∈ s.timers.eraseIdx i ↔ q ∈ s.timers ∧ q ≠ p :=
  SortedSet.mem_eraseIdx_find (less_iff s.heap) (rank_injective s.heap) h.sorted hi

/-- A registered timer is taken out and inserted again. -/
theorem Ordered.replace {i : ℕ} (h : Ordered s) (hi : s.find p = some i) (hp : p ∈ s.timers)
    (t : Timer F) : After (((s.putTimers (s.timers.eraseIdx i)).store p t).insert p)
      (Function.update s.heap p (some t)) (· ∈ s.timers) := by
  have herase := h.sublist (List.eraseIdx_sublist s.timers i)
  have hout : p ∉ s.timers.eraseIdx i := fun hmem => ((h.mem_erase hi).mp hmem).2 rfl
  rcases herase.rearm hout t with ⟨hordered, hheap, hmem⟩
  refine ⟨hordered, hheap, fun q => ?_⟩
  rw [hmem]
  change q = p ∨ q ∈ s.timers.eraseIdx i ↔ q ∈ s.timers
  rw [h.mem_erase hi]
  by_cases hq : q = p
  · simp [hq, hp]
  · simp [hq]

theorem deref_apply (ht : s.heap p = some t) : deref p s = .done t s := Command.lookup_done ht

/-- The search only reads the deadlines. -/
theorem find_store (ht : s.heap p = some t) (cb : Option F) :
    (s.store p { t with cb := cb }).find p = s.find p := by
  have hnext : nextOf (s.store p { t with cb := cb }).heap = nextOf s.heap := by
    funext q
    by_cases hq : q = p
    · rw [hq, nextOf, nextOf, ht, heap_store, Function.update_self]
    · rw [nextOf, nextOf, heap_store, Function.update_of_ne hq]
  have hless : less (s.store p { t with cb := cb }).heap = less s.heap := by
    funext q r
    rw [less, less, comparator, comparator, hnext]
  rw [TimerManager.find, TimerManager.find, hless]
  rfl

end Moves

section Operations

variable (now ms : UInt64)

theorem addTimerLocked_apply (s : TimerManager F) (p : ℕ) :
    ∃ b b', addTimerLocked p s = .done b ((s.insert p).putTickled b') := ⟨_, _, rfl⟩

theorem After.putTickled {heap : ℕ → Option (Timer F)} {mem : ℕ → Prop} (h : After s heap mem)
    (b : Bool) : After (s.putTickled b) heap mem :=
  ⟨⟨h.ordered.alive, h.ordered.sorted⟩, h.heap_eq, h.mem_iff⟩

theorem addTimer_spec (h : Ordered s) (hp : s.heap p = none) (cb : Option F) (recurring : Bool) :
    ∃ b s', addTimer p ms cb recurring now s = .done b s' ∧
      After s' (Function.update s.heap p (some (.new ms cb recurring now)))
        (fun q => q = p ∨ q ∈ s.timers) := by
  have hafter := h.rearm (h.not_mem hp) (.new ms cb recurring now)
  rcases addTimerLocked_apply (s.store p (.new ms cb recurring now)) p with ⟨b, b', hrun⟩
  refine ⟨b, _, ?_, hafter.putTickled b'⟩
  rw [addTimer, Command.modify_bind_apply, hrun]

theorem cancel_spent (ht : s.heap p = some t) (hcb : t.cb = none) : cancel p s = .done false s := by
  rw [cancel, Command.bind_done (deref_apply ht), Command.ite_apply, if_neg (by simp [hcb])]
  rfl

theorem cancel_armed (h : Ordered s) (ht : s.heap p = some t) (hcb : t.cb.isSome)
    (hp : p ∈ s.timers) : ∃ s', cancel p s = .done true s' ∧
      After s' (Function.update s.heap p (some { t with cb := none }))
        (fun q => q ∈ s.timers ∧ q ≠ p) := by
  rcases h.exists_find hp with ⟨i, hi⟩
  have hout : p ∉ s.timers.eraseIdx i := fun hmem => ((h.mem_erase hi).mp hmem).2 rfl
  have herase := h.sublist (List.eraseIdx_sublist s.timers i)
  refine ⟨_, ?_, herase.update hout (some { t with cb := none }), rfl, fun q => h.mem_erase hi⟩
  rw [cancel, Command.bind_done (deref_apply ht), Command.ite_apply, if_pos hcb,
    Command.modify_bind_apply, Command.state_bind_apply, find_store ht, hi]
  rfl

theorem refresh_spent (ht : s.heap p = some t) (hcb : t.cb = none) :
    refresh p now s = .done false s := by
  rw [refresh, Command.bind_done (deref_apply ht), Command.state_bind_apply, Command.ite_apply,
    if_pos (by simp [hcb])]
  rfl

theorem refresh_armed (h : Ordered s) (ht : s.heap p = some t) (hcb : t.cb.isSome)
    (hp : p ∈ s.timers) : ∃ s', refresh p now s = .done true s' ∧
      After s' (Function.update s.heap p (some { t with next := now + t.ms })) (· ∈ s.timers) := by
  rcases h.exists_find hp with ⟨i, hi⟩
  refine ⟨_, ?_, h.replace hi hp { t with next := now + t.ms }⟩
  rw [refresh, Command.bind_done (deref_apply ht), Command.state_bind_apply, Command.ite_apply,
    if_neg (by simpa [Option.isSome_iff_ne_none] using hcb), hi]
  rfl

/-- The timer after `reset`. -/
def Timer.reset (t : Timer F) (ms : UInt64) (fromNow : Bool) (now : UInt64) : Timer F :=
  { t with ms := ms, next := (if fromNow then now else t.next - t.ms) + ms }

section Reset

variable {fromNow : Bool}

theorem reset_same (ht : s.heap p = some t) (hsame : ms = t.ms ∧ fromNow = false) :
    reset p ms fromNow now s = .done true s := by
  rw [reset, Command.bind_done (deref_apply ht), Command.state_bind_apply, Command.ite_apply,
    if_pos (by simp [hsame])]
  rfl

theorem reset_spent (ht : s.heap p = some t) (hcb : t.cb = none)
    (hnew : ¬(ms = t.ms ∧ fromNow = false)) : reset p ms fromNow now s = .done false s := by
  rw [reset, Command.bind_done (deref_apply ht), Command.state_bind_apply, Command.ite_apply,
    if_neg (by simpa using hnew), Command.ite_apply, if_pos (by simp [hcb])]
  rfl

theorem reset_armed (h : Ordered s) (ht : s.heap p = some t) (hcb : t.cb.isSome)
    (hp : p ∈ s.timers) (hnew : ¬(ms = t.ms ∧ fromNow = false)) :
    ∃ s', reset p ms fromNow now s = .done true s' ∧
      After s' (Function.update s.heap p (some (t.reset ms fromNow now))) (· ∈ s.timers) := by
  rcases h.exists_find hp with ⟨i, hi⟩
  have hafter := h.replace hi hp (t.reset ms fromNow now)
  rcases addTimerLocked_apply
    ((s.putTimers (s.timers.eraseIdx i)).store p (t.reset ms fromNow now)) p with ⟨b, b', hrun⟩
  refine ⟨_, ?_, hafter.putTickled b'⟩
  rw [reset, Command.bind_done (deref_apply ht), Command.state_bind_apply, Command.ite_apply,
    if_neg (by simpa using hnew), if_neg (by simpa [Option.isSome_iff_ne_none] using hcb), hi]
  exact Command.bind_done hrun fun _ => pure true

end Reset

/-- An expired timer after the call. -/
def Timer.handedOut (t : Timer F) (now : UInt64) : Timer F :=
  if t.recurring then { t with next := now + t.ms } else { t with cb := none }

theorem handOut_spec (h : Ordered s) (hp : p ∉ s.timers) (ht : s.heap p = some t) :
    ∃ s', handOut now p s = .done t.cb s' ∧
      After s' (Function.update s.heap p (some (t.handedOut now)))
        (fun q => q ∈ s.timers ∨ q = p ∧ t.recurring = true) := by
  rw [handOut, Command.bind_done (deref_apply ht), Command.ite_apply, Timer.handedOut]
  by_cases hrec : t.recurring
  · rcases h.rearm hp { t with next := now + t.ms } with ⟨hordered, hheap, hmem⟩
    rw [if_pos hrec, if_pos hrec]
    refine ⟨_, rfl, hordered, hheap, fun q => ?_⟩
    rw [hmem, or_comm]
    simp [hrec]
  · rw [if_neg hrec, if_neg hrec]
    refine ⟨_, rfl, h.update hp (some { t with cb := none }), rfl, fun q => ?_⟩
    simp [hrec]
    rfl

/-- Timers that have been taken out are handed out one after the other. -/
theorem handOutAll_spec (h : Ordered s) (hnodup : out.Nodup)
    (hout : ∀ p ∈ out, p ∉ s.timers ∧ ∃ t, s.heap p = some t) :
    ∃ s', handOutAll now out s = .done (out.map fun p => (s.heap p).bind Timer.cb) s' ∧
      After s' (fun q => if q ∈ out then (s.heap q).map (·.handedOut now) else s.heap q)
        (fun q => q ∈ s.timers ∨ q ∈ out ∧ ∃ t, s.heap q = some t ∧ t.recurring = true) := by
  induction out generalizing s with
  | nil => exact ⟨s, rfl, h, by simp, by simp⟩
  | cons p out ih =>
    rw [List.nodup_cons] at hnodup
    rw [List.forall_mem_cons] at hout
    rcases hout with ⟨⟨hp, t, ht⟩, hrest⟩
    rcases handOut_spec now h hp ht with ⟨s₁, hrun, h₁, hheap, hmem⟩
    have hother {q : ℕ} (hq : q ≠ p) : s₁.heap q = s.heap q := by
      rw [hheap, Function.update_of_ne hq]
    have hne {q : ℕ} (hq : q ∈ out) : q ≠ p := by
      rintro rfl
      exact hnodup.1 hq
    have hrest₁ : ∀ q ∈ out, q ∉ s₁.timers ∧ ∃ t, s₁.heap q = some t := by
      intro q hq
      rw [hmem, hother (hne hq)]
      simp [hne hq, hrest q hq]
    rcases ih h₁ hnodup.2 hrest₁ with ⟨s', hall, h', hheap', hmem'⟩
    have hcbs : out.map (fun q => (s₁.heap q).bind Timer.cb) =
        out.map (fun q => (s.heap q).bind Timer.cb) := by
      apply List.map_congr_left
      intro q hq
      rw [hother (hne hq)]
    refine ⟨s', ?_, h', ?_, fun q => ?_⟩
    · rw [handOutAll, Command.bind_done hrun, Command.bind_done hall, hcbs, List.map_cons, ht]
      rfl
    · rw [hheap']
      funext q
      by_cases hq : q = p
      · rw [hq, if_neg hnodup.1, if_pos List.mem_cons_self, hheap, Function.update_self, ht]
        rfl
      · rw [hother hq]
        simp [hq]
    · rw [hmem', hmem]
      by_cases hq : q = p
      · simp [hq, hnodup.1, ht]
      · rw [hother hq]
        simp [hq]

/-- What is left to do once there is something to hand out. -/
theorem listExpiredCb_apply (a : ℕ) (hidle : idle s (rolledOver s.previousTime now) now = false) :
    listExpiredCb a now s = handOutAll now (expired s a now)
      ((s.putPreviousTime now).putTimers (s.timers.drop (expired s a now).length)) := by
  have hne : s.timers.isEmpty = false := by
    rw [idle] at hidle
    cases htimers : s.timers with
    | nil => simp [htimers] at hidle
    | cons p l => rfl
  have hexp : expired s a now = s.timers.take (due s (rolledOver s.previousTime now) a now) :=
    if_neg (by simp [hidle])
  have hdrop (i : ℕ) : s.timers.drop (s.timers.take i).length = s.timers.drop i := by
    rw [List.length_take]
    rcases le_total i s.timers.length with hi | hi
    · rw [min_eq_left hi]
    · rw [min_eq_right hi, List.drop_of_length_le hi, List.drop_length]
  rw [listExpiredCb, Command.state_bind_apply, Command.ite_apply, if_neg (by simp [hne]),
    Command.modify_bind_apply, Command.ite_apply, if_neg (by simp [hidle]),
    Command.modify_bind_apply, hexp, hdrop]

/-- Nothing is due: at most the reading is recorded. -/
theorem listExpiredCb_idle (a : ℕ) (hidle : idle s (rolledOver s.previousTime now) now = true) :
    listExpiredCb a now s =
      .done [] (if s.timers.isEmpty then s else s.putPreviousTime now) := by
  rw [listExpiredCb, Command.state_bind_apply, Command.ite_apply, if_pos hidle]
  split_ifs
  · rfl
  · rfl

theorem listExpiredCb_spec (h : Ordered s) (a : ℕ) :
    ∃ s', listExpiredCb a now s =
        .done ((expired s a now).map fun p => (s.heap p).bind Timer.cb) s' ∧
      After s'
        (fun q => if q ∈ expired s a now then (s.heap q).map (·.handedOut now) else s.heap q)
        (fun q => q ∈ s.timers ∧
          (q ∈ expired s a now → ∃ t, s.heap q = some t ∧ t.recurring = true)) := by
  cases hidle : idle s (rolledOver s.previousTime now) now with
  | true =>
    have hexp : expired s a now = [] := if_pos hidle
    have hsame : After s
        (fun q => if q ∈ ([] : List ℕ) then (s.heap q).map (·.handedOut now) else s.heap q)
        (fun q => q ∈ s.timers ∧
          (q ∈ ([] : List ℕ) → ∃ t, s.heap q = some t ∧ t.recurring = true)) :=
      ⟨h, by simp, by simp⟩
    rw [listExpiredCb_idle now a hidle, hexp]
    split_ifs
    · exact ⟨s, rfl, hsame⟩
    · exact ⟨_, rfl, ⟨h.alive, h.sorted⟩, hsame.heap_eq, hsame.mem_iff⟩
  | false =>
    have hexp : expired s a now = s.timers.take (due s (rolledOver s.previousTime now) a now) :=
      if_neg (by simp [hidle])
    have htake : expired s a now = s.timers.take (expired s a now).length := by
      rw [hexp, List.length_take, List.take_eq_take_min]
    rw [listExpiredCb_apply now a hidle]
    generalize expired s a now = out at htake ⊢
    have hsplit (q : ℕ) : q ∈ s.timers ↔ q ∈ out ∨ q ∈ s.timers.drop out.length := by
      conv_lhs => rw [← List.take_append_drop out.length s.timers, ← htake]
      exact List.mem_append
    have hdisj {q : ℕ} (hq : q ∈ out) : q ∉ s.timers.drop out.length := by
      rw [htake] at hq
      exact List.disjoint_take_drop h.nodup le_rfl hq
    have hdrop : Ordered ((s.putPreviousTime now).putTimers (s.timers.drop out.length)) :=
      ⟨fun q hq => h.alive q (List.mem_of_mem_drop hq),
        h.sorted.sublist (List.drop_sublist _ _)⟩
    have hnodup : out.Nodup := by
      rw [htake]
      exact h.nodup.sublist (List.take_sublist _ _)
    rcases handOutAll_spec now hdrop hnodup
      (fun q hq => ⟨hdisj hq, h.alive q ((hsplit q).mpr (.inl hq))⟩) with
      ⟨s', hrun, hordered, hheap, hmem⟩
    refine ⟨s', hrun, hordered, hheap, fun q => ?_⟩
    rw [hmem, hsplit]
    change q ∈ s.timers.drop out.length ∨ _ ↔ _
    by_cases hq : q ∈ out
    · simp [hq, hdisj hq]
      rfl
    · simp [hq]

end Operations

end Sylar.Timers
