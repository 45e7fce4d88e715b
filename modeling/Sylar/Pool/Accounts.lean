import Sylar.Pool.Ownership
import Mathlib.Data.Finset.Dedup
import Mathlib.Data.UInt

/-! # The counter of the pool

`m_total` is adjusted outside the lock. It is the number of live connections, less those that
are made and not yet counted, plus those that are deleted and not yet subtracted, modulo `2^32`.
The limit is kept if no call passes the test while another one is between its test and its count.
-/
namespace Sylar.Pool
open Memory

/-- What `m_total` counts. -/
def State.counted (s : State) : ℕ := s.live - s.uncounted.length + s.owed

/-- Every connection that was taken was connected, and young enough by the clock reading with which
the call began. -/
def State.Young (lim : Limits) (s : State) : Prop :=
  ∀ t ∈ s.takes, t.conn.connected = true ∧
    t.now.toNat < t.conn.createTime.toNat + lim.maxAliveTime.toNat

section Steps

variable {lim : Limits} {s s' : State} {i p : ℕ} {a b : Stage} {c : Conn}

theorem length_uncounted : s.uncounted.length = tally (fun a => a.uncounted.length) s.calls :=
  List.length_flatMap

theorem uncounted_count_le (p : ℕ) : s.uncounted.count p ≤ tally (Stage.holds p) s.calls := by
  rw [State.uncounted, List.count_flatMap]
  apply tally_le_tally
  intro a
  cases a <;> simp [Stage.uncounted, Stage.holds]

/-- Connections that are counted once if they are alive, and not otherwise. -/
theorem length_le_live {l : List ℕ} (h : ∀ p, l.count p ≤ s.alive p) : l.length ≤ s.live := by
  have hnodup : l.Nodup := by
    rw [List.nodup_iff_count_le_one]
    intro p
    exact (h p).trans alive_le
  rw [← List.toFinset_card_of_nodup hnodup, State.live, Heap.size]
  apply Finset.card_le_card
  intro p hp
  have hpos := List.count_pos_iff.mpr (List.mem_toFinset.mp hp)
  have halive : s.alive p = 1 := le_antisymm alive_le (hpos.trans_le (h p))
  rcases get_of_alive halive with ⟨c, hget⟩
  rw [Heap.mem_dom, hget]
  rfl

theorem Owned.uncounted_le (h : Owned lim s) : s.uncounted.length ≤ s.live := by
  apply length_le_live
  intro p
  have hle := uncounted_count_le (s := s) p
  have hp := h.places p
  rw [State.places] at hp
  omega

theorem Owned.idle_add_held_le (h : Owned lim s) : s.conns.length + s.held.length ≤ s.live := by
  rw [← List.length_append]
  apply length_le_live
  intro p
  have hp := h.places p
  rw [State.places] at hp
  rw [List.count_append]
  omega

/-- How the count changes when a call goes on. -/
theorem counted_set (h : Owned lim s) (h' : Owned lim s') (hcall : s.calls[i]? = some a)
    (hcalls : s'.calls = s.calls.set i b) :
    s'.counted + s.live + a.owed + b.uncounted.length =
      s.counted + s'.live + b.owed + a.uncounted.length := by
  have howed : s'.owed + a.owed = s.owed + b.owed := by
    rw [State.owed, State.owed, hcalls]
    exact tally_set hcall
  have hnew : s'.uncounted.length + a.uncounted.length =
      s.uncounted.length + b.uncounted.length := by
    rw [length_uncounted, length_uncounted, hcalls]
    exact tally_set (w := fun a => a.uncounted.length) hcall
  have hle := h.uncounted_le
  have hle' := h'.uncounted_le
  rw [State.counted, State.counted]
  omega

/-- A step that leaves the counter alone. -/
theorem balanced_keep (h : Owned lim s) (h' : Owned lim s') (hcall : s.calls[i]? = some a)
    (hcalls : s'.calls = s.calls.set i b) (hbal : s.total = UInt32.ofNat s.counted)
    (htotal : s'.total = s.total)
    (hlive : s.live + a.owed + b.uncounted.length = s'.live + b.owed + a.uncounted.length) :
    s'.total = UInt32.ofNat s'.counted := by
  have hcount := counted_set h h' hcall hcalls
  have heq : s.counted = s'.counted := by omega
  rw [htotal, hbal, heq]

/-- A step that subtracts `n`. -/
theorem balanced_sub (h : Owned lim s) (h' : Owned lim s') (hcall : s.calls[i]? = some a)
    (hcalls : s'.calls = s.calls.set i b) (hbal : s.total = UInt32.ofNat s.counted) {n : ℕ}
    (htotal : s'.total = s.total - UInt32.ofNat n)
    (hlive : s.live + a.owed + b.uncounted.length = s'.live + b.owed + a.uncounted.length + n) :
    s'.total = UInt32.ofNat s'.counted := by
  have hcount := counted_set h h' hcall hcalls
  have heq : s.counted = s'.counted + n := by omega
  rw [htotal, hbal, heq, ← UInt32.ofNat_sub (Nat.le_add_left _ _), Nat.add_sub_cancel]

theorem Move.balanced (h : Owned lim s) (h' : Owned lim s') (hcall : s.calls[i]? = some a)
    (hmove : Move lim s i a s') (hbal : s.total = UInt32.ofNat s.counted) :
    s'.total = UInt32.ofNat s'.counted := by
  cases hmove with
  | @take now ptr invalid rest hconns hfound =>
    apply balanced_keep (b := .purging ptr invalid invalid.length) h h' hcall rfl hbal rfl
    change s.live + 0 + 0 = s.live + (invalid.length - invalid.length) + 0
    omega
  | @delete ptr p todo size c hget =>
    have hlive := Heap.size_free hget
    have hfits : todo.length + 1 ≤ size := h.fits _ (List.mem_of_getElem? hcall)
    apply balanced_keep (b := .purging ptr todo size) h h' hcall rfl hbal rfl
    change s.heap.size + (size - (todo.length + 1)) + 0 =
      (s.heap.free p).size + (size - todo.length) + 0
    omega
  | @reuse p size => exact balanced_sub (b := .finished (some p)) h h' hcall rfl hbal rfl rfl
  | miss => exact balanced_sub (b := .testing) h h' hcall rfl hbal rfl rfl
  | full _ => exact balanced_keep (b := .finished none) h h' hcall rfl hbal rfl rfl
  | pass _ => exact balanced_keep (b := .connecting) h h' hcall rfl hbal rfl rfl
  | connect =>
    apply balanced_keep (b := .counting s.heap.brk) h h' hcall rfl hbal rfl
    exact (s.heap.size_alloc ⟨s.clock, 0, true⟩).symm
  | fail => exact balanced_keep (b := .finished none) h h' hcall rfl hbal rfl rfl
  | @count p =>
    have hcount := counted_set (b := .finished (some p)) h h' hcall rfl
    have hnext : ((s.putTotal (s.total + 1)).handOut i p).counted = s.counted + 1 := by
      change _ + s.live + 0 + 0 = _ + s.live + 0 + 1 at hcount
      omega
    rw [hnext, UInt32.ofNat_add, ← hbal]
    rfl
  | @spend p c hget hspent =>
    apply balanced_keep (b := .discarding p) h h' hcall rfl hbal rfl
    exact (Heap.size_set { c with request := c.request + 1 } hget).symm
  | @keep p c hget hspent =>
    apply balanced_keep (b := .returning p) h h' hcall rfl hbal rfl
    exact (Heap.size_set { c with request := c.request + 1 } hget).symm
  | @discard p c hget =>
    apply balanced_keep (b := .uncounting) h h' hcall rfl hbal rfl
    exact (Heap.size_free hget).symm
  | uncount => exact balanced_sub (b := .finished none) (n := 1) h h' hcall rfl hbal rfl rfl
  | putBack => exact balanced_keep (b := .finished none) h h' hcall rfl hbal rfl rfl
  | rest => exact hbal

theorem expired_eq_false {now : UInt64} (h : c.expired lim now = false) :
    now.toNat < c.createTime.toNat + lim.maxAliveTime.toNat := by
  rw [Conn.expired, decide_eq_false_iff_not, UInt64.le_iff_toNat_le, UInt64.toNat_add] at h
  have hmod := Nat.mod_le (c.createTime.toNat + lim.maxAliveTime.toUInt64.toNat) (2 ^ 64)
  have hwide : lim.maxAliveTime.toUInt64.toNat = lim.maxAliveTime.toNat := rfl
  omega

theorem Move.young (hmove : Move lim s i a s') (hyoung : s.Young lim) : s'.Young lim := by
  cases hmove with
  | @take now ptr invalid rest hconns hfound =>
    intro t ht
    rcases List.mem_append.mp ht with hnew | hold
    · cases ptr with
      | none => cases hnew
      | some p =>
        rcases hfound p rfl with ⟨c, hget, hconnected, hexpired⟩
        rw [takeOf, hget] at hnew
        cases List.mem_singleton.mp hnew
        exact ⟨hconnected, expired_eq_false hexpired⟩
    · exact hyoung t hold
  | _ => exact hyoung

end Steps

end Sylar.Pool
