import Sylar.ByteArray.Layout

/-! # The representation invariant over whole runs

A run is any sequence of calls on a fresh array, exceptions being caught by the
caller. Every state of every run has a layout, and no call ever faults.
-/
namespace Sylar.ByteArray
open Memory

/-- The calls of the public interface that move the cursor or store bytes. -/
inductive Call where
  | write (buf : List UInt8)
  | read (readSize : ℕ)
  | readForPeek (readSize : ℕ)
  | toString
  | setPosition (v : ℕ)
  | clear

def Call.run : Call → Cmd (List Cell)
  | .write buf => do ByteArray.write buf; pure []
  | .read m => ByteArray.read m
  | .readForPeek m => ByteArray.readForPeek m
  | .toString => ByteArray.toString
  | .setPosition v => do ByteArray.setPosition v; pure []
  | .clear => do ByteArray.clear; pure []

inductive Op where
  | call (c : Call)
  | getReadBuffers (buffers : List Iovec) (len : ℕ)
  | getReadBuffersAt (buffers : List Iovec) (len position : ℕ)
  | getWriteBuffers (buffers : List Iovec) (len : ℕ)

def Op.run : Op → Cmd (List Cell × ℕ × List Iovec)
  | .call c => do let d ← c.run; pure (d, 0, [])
  | .getReadBuffers buffers len => do pure ([], ← ByteArray.getReadBuffers buffers len)
  | .getReadBuffersAt buffers len position => do
    pure ([], ← ByteArray.getReadBuffersAt buffers len position)
  | .getWriteBuffers buffers len => do pure ([], ← ByteArray.getWriteBuffers buffers len)

/-- A read of nothing is the one call that is left out. -/
def Op.Allowed : Op → Prop
  | .call (.read m) => 1 ≤ m
  | .call (.readForPeek m) => 1 ≤ m
  | _ => True

/-- The states of all runs from `ByteArray(b)`. -/
inductive Reachable (b : ℕ) : ByteArray → Prop where
  | new : Reachable b (new b)
  | returned {s s' : ByteArray} {o : Op} {r : List Cell × ℕ × List Iovec} :
      Reachable b s → o.Allowed → o.run s = .done r s' → Reachable b s'
  | threw {s s' : ByteArray} {o : Op} {e : Exception} :
      Reachable b s → o.Allowed → o.run s = .raised e s' → Reachable b s'

variable {b : ℕ} {s : ByteArray} {as : List ℕ}

/-- From a laid out state a call returns to a laid out state or throws without a trace. -/
theorem Call.step (hl : Layout b s as) (c : Call) (ha : (Op.call c).Allowed) :
    (∃ d s' as', c.run s = .done d s' ∧ Layout b s' as') ∨ ∃ e, c.run s = .raised e s := by
  cases c with
  | write buf =>
    obtain ⟨s', as', -, hrun, hl', -⟩ := write_spec hl buf
    exact .inl ⟨[], s', as', by rw [Call.run, Command.bind_done hrun, Command.pure_apply], hl'⟩
  | read m =>
    by_cases hm : m ≤ s.size - s.position
    · obtain ⟨hrun, hl'⟩ := read_spec hl ha hm
      exact .inl ⟨_, _, as, hrun, hl'⟩
    · exact .inr ⟨_, read_raises hl (by omega)⟩
  | readForPeek m =>
    by_cases hm : m ≤ s.size - s.position
    · exact .inl ⟨_, s, as, readForPeek_spec hl ha hm, hl⟩
    · exact .inr ⟨_, readForPeek_raises (by omega)⟩
  | toString => exact .inl ⟨_, s, as, toString_spec hl, hl⟩
  | setPosition v =>
    by_cases hv : v ≤ s.capacity
    · obtain ⟨hrun, hl'⟩ := setPosition_spec hl hv
      exact .inl ⟨[], _, as, by rw [Call.run, Command.bind_done hrun, Command.pure_apply], hl'⟩
    · refine .inr ⟨.outOfRange "ByteArray set position out of range", ?_⟩
      rw [Call.run, Command.bind_apply, setPosition_raises (by omega)]
  | clear =>
    obtain ⟨s', a, hrun, hl', -⟩ := clear_spec hl
    exact .inl ⟨[], s', [a], by rw [Call.run, Command.bind_done hrun, Command.pure_apply], hl'⟩

theorem Op.step (hl : Layout b s as) (o : Op) (ha : o.Allowed) :
    (∃ r s' as', o.run s = .done r s' ∧ Layout b s' as') ∨ ∃ e, o.run s = .raised e s := by
  cases o with
  | call c =>
    rcases c.step hl ha with ⟨d, s', as', hrun, hl'⟩ | ⟨e, hrun⟩
    · exact .inl ⟨_, s', as', by rw [Op.run, Command.bind_done hrun, Command.pure_apply], hl'⟩
    · exact .inr ⟨e, by rw [Op.run, Command.bind_apply, hrun]⟩
  | getReadBuffers buffers len =>
    obtain ⟨vs, hrun, -⟩ := getReadBuffers_spec hl buffers len
    exact .inl ⟨_, s, as, by rw [Op.run, Command.bind_done hrun, Command.pure_apply], hl⟩
  | getReadBuffersAt buffers len position =>
    obtain ⟨vs, hrun, -⟩ := getReadBuffersAt_spec hl buffers len position
    exact .inl ⟨_, s, as, by rw [Op.run, Command.bind_done hrun, Command.pure_apply], hl⟩
  | getWriteBuffers buffers len =>
    obtain ⟨s', as', vs, -, hrun, hl', -⟩ := getWriteBuffers_spec hl buffers len
    exact .inl ⟨_, s', as', by rw [Op.run, Command.bind_done hrun, Command.pure_apply], hl'⟩

theorem Reachable.layout (hb : 0 < b) (hr : Reachable b s) : ∃ as, Layout b s as := by
  induction hr with
  | new => exact ⟨[0], new_layout hb⟩
  | @returned s s' o r _ ha hrun ih =>
    obtain ⟨as, hl⟩ := ih
    rcases o.step hl ha with ⟨r', s'', as', hrun', hl'⟩ | ⟨e, hrun'⟩
    · rw [hrun, Outcome.done.injEq] at hrun'
      exact ⟨as', hrun'.2 ▸ hl'⟩
    · simp [hrun] at hrun'
  | @threw s s' o e _ ha hrun ih =>
    obtain ⟨as, hl⟩ := ih
    rcases o.step hl ha with ⟨r', s'', as', hrun', -⟩ | ⟨e', hrun'⟩
    · simp [hrun] at hrun'
    · rw [hrun, Outcome.raised.injEq] at hrun'
      exact ⟨as, hrun'.2 ▸ hl⟩

/-- In every reachable state the list from `root` is a non-empty acyclic list of `k` nodes of
the base size, the counters are ordered, the cached pointer is the node of the cursor, growth
is minimal, and no operation faults. -/
theorem reachable_representation (hb : 1 ≤ b) (hr : Reachable b s) :
    ∃ as : List ℕ, as ≠ [] ∧ Chain Node.next s.heap s.root as ∧ as.Nodup ∧
      (∀ a ∈ as, ∃ n, s.heap.get a = some n ∧ n.size = b) ∧
      s.capacity = as.length * b ∧ s.position ≤ s.size ∧ s.size ≤ s.capacity ∧
      (s.position < s.capacity → ∃ a, s.cur = some a ∧ as[s.position / b]? = some a) ∧
      (s.cur = none ↔ s.position = s.capacity) ∧
      (∀ m, ∃ s' new, addCapacityIfNeeded m s = .done () s' ∧
        Chain Node.next s'.heap s'.root (as ++ new) ∧ s'.position = s.position ∧
        s'.capacity = s.capacity + new.length * b ∧ m ≤ s'.capacity - s'.position ∧
        ∀ k, m ≤ s.capacity + k * b - s.position → new.length ≤ k) ∧
      ∀ o : Op, o.Allowed → ∀ f, o.run s ≠ .fault f := by
  obtain ⟨as, hl⟩ := hr.layout hb
  refine ⟨as, List.ne_nil_of_length_pos hl.length_pos, hl.spine.chain, hl.spine.chain.nodup,
    fun a ha => ?_, hl.capacity, hl.position_le, hl.size_le, fun hlt => ?_, hl.cur_eq_none_iff,
    fun m => ?_, fun o ha f hf => ?_⟩
  · obtain ⟨n, hn⟩ := hl.spine.chain.get_isSome ha
    exact ⟨n, hn, (hl.spine.node a ha n hn).1⟩
  · obtain ⟨a, n, hcur, -⟩ := hl.cur_eq_some hlt
    exact ⟨a, hcur, hl.cur.symm.trans hcur⟩
  · obtain ⟨h, new, hadd, hl', -, hroom, hleast⟩ := addCapacityIfNeeded_spec hl m
    exact ⟨_, new, hadd, hl'.spine.chain, rfl, rfl, hroom, hleast⟩
  · rcases o.step hl ha with ⟨r, s', as', hrun, -⟩ | ⟨e, hrun⟩ <;> simp [hrun] at hf

/-- Five bytes are written, the cursor is set back and three are read, with blocks of four. -/
theorem reachable_representation_four : ∃ s₁ s₂ s₃ as,
    (Op.call (.write [1, 2, 3, 4, 5])).run (new 4) = .done ([], 0, []) s₁ ∧
    (Op.call (.setPosition 1)).run s₁ = .done ([], 0, []) s₂ ∧
    (Op.call (.read 3)).run s₂ = .done ([some 2, some 3, some 4], 0, []) s₃ ∧
    s₃.position = 4 ∧ s₃.size = 5 ∧ s₃.capacity = 8 ∧
    Chain Node.next s₃.heap s₃.root as ∧ as.Nodup ∧ as.length = 2 ∧
    (∃ a, s₃.cur = some a ∧ as[1]? = some a) ∧ ∀ f, (Op.call (.read 2)).run s₃ ≠ .fault f := by
  have hr := Reachable.returned (o := .call (.read 3)) (r := ([some 2, some 3, some 4], 0, []))
    (.returned (o := .call (.setPosition 1)) (r := ([], 0, []))
      (.returned (o := .call (.write [1, 2, 3, 4, 5])) (r := ([], 0, [])) (.new (b := 4)) trivial rfl)
      trivial rfl) (by decide : 1 ≤ 3) rfl
  obtain ⟨as, -, hchain, hnodup, -, hcapacity, -, -, hcur, -, -, hsafe⟩ :=
    reachable_representation (by decide) hr
  refine ⟨_, _, _, as, rfl, rfl, rfl, rfl, rfl, rfl, hchain, hnodup, ?_, hcur (by decide), ?_⟩
  · have hlen : 8 = as.length * 4 := hcapacity
    omega
  · exact hsafe (.call (.read 2)) (by decide : 1 ≤ 2)

end Sylar.ByteArray
