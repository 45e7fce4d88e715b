import Sylar.ByteArray.Vectored
import Sylar.ByteArray.Reachable
import Sylar.Stream.Loop

/-! # `SocketStream`: transfers over a connected socket

The kernel is a sequence of answers, one for each call. A receive takes the next
bytes of the incoming stream, a send appends to what the peer has received. The
memory behind a caller's buffer is unbounded here, so a transfer past its end is
a visible effect.
-/
namespace Sylar.Stream
open Memory Sylar.ByteArray

/-- The other side of a connection: `none` when the socket is found disconnected, otherwise
the result of `recv` or `send`. -/
structure Peer where
  answer : ℕ → Option Int32
  input : ℕ → UInt8

namespace Peer

/-- The result of the `i`-th call as `SocketStream` returns it. -/
def result (peer : Peer) (i : ℕ) : ℤ :=
  match peer.answer i with
  | none => -1
  | some r => r.toInt

def bytes (peer : Peer) (start count : ℕ) : List UInt8 :=
  (List.range count).map fun i => peer.input (start + i)

end Peer

/-- One end of a connection, with the memory that its transfers touch. -/
structure Link where
  calls : ℕ
  asked : List (ℕ × ℕ)
  taken : ℕ
  sent : List Cell
  mem : ℕ → Cell
  ba : ByteArray

/-- Nothing has been transferred yet. -/
def Link.start (mem : ℕ → Cell) (ba : ByteArray) : Link := ⟨0, [], 0, [], mem, ba⟩

abbrev Io := Command Exception Link

def onArray {α : Type} (c : Cmd α) : Io α := Command.focus Link.ba (fun ba l => { l with ba := ba }) c

/-- `SocketStream::read(void*, size_t)`, the buffer given by the offset into the caller's. -/
def read (peer : Peer) (length offset : ℕ) : Io ℤ := do
  let l ← Command.state
  let r := peer.result l.calls
  Command.modify fun l => { l with
    calls := l.calls + 1
    asked := l.asked ++ [(offset, length)]
    taken := l.taken + r.toNat
    mem := fun i => if offset ≤ i ∧ i < offset + r.toNat then
      some (peer.input (l.taken + (i - offset))) else l.mem i }
  pure r

def write (peer : Peer) (length offset : ℕ) : Io ℤ := do
  let l ← Command.state
  let r := peer.result l.calls
  Command.modify fun l => { l with
    calls := l.calls + 1
    asked := l.asked ++ [(offset, length)]
    sent := l.sent ++ (List.range r.toNat).map fun i => l.mem (offset + i) }
  pure r

/-- The end of both array transfers: the cursor moves behind the bytes transferred. -/
def advance (r : Int32) : Io ℤ := do
  if r.toInt > 0 then do
    let l ← Command.state
    onArray (setPosition (l.ba.position + r.toInt.toNat))
    pure r.toInt
  else pure r.toInt

/-- `SocketStream::read(ByteArray::ptr, size_t)`. -/
def readArray (peer : Peer) (length : ℕ) : Io ℤ := do
  let l ← Command.state
  Command.modify fun l => { l with calls := l.calls + 1 }
  match peer.answer l.calls with
  | none => pure (-1)
  | some r => do
    let (_, iovs) ← onArray (getWriteBuffers [] length)
    onArray (scatter iovs (peer.bytes l.taken r.toInt.toNat))
    Command.modify fun l => { l with taken := l.taken + r.toInt.toNat }
    advance r

/-- `SocketStream::write(ByteArray::ptr, size_t)`. -/
def writeArray (peer : Peer) (length : ℕ) : Io ℤ := do
  let l ← Command.state
  Command.modify fun l => { l with calls := l.calls + 1 }
  match peer.answer l.calls with
  | none => pure (-1)
  | some r => do
    let (_, iovs) ← onArray (getReadBuffers [] length)
    let d ← onArray (gather iovs r.toInt.toNat)
    Command.modify fun l => { l with sent := l.sent ++ d }
    advance r

def readFixSize (peer : Peer) (fuel length : ℕ) : Io ℤ :=
  fixSizeLoop (read peer length) length fuel 0 length

/-- `Stream::readFixSize(ByteArray::ptr, size_t)`. -/
def readFixSizeArray (peer : Peer) (fuel length : ℕ) : Io ℤ :=
  fixSizeLoop (fun _ => readArray peer length) length fuel 0 length

def writeFixSize (peer : Peer) (fuel length : ℕ) : Io ℤ :=
  fixSizeLoop (write peer length) length fuel 0 length

/-- `Stream::writeFixSize(ByteArray::ptr, size_t)`. -/
def writeFixSizeArray (peer : Peer) (fuel length : ℕ) : Io ℤ :=
  fixSizeLoop (fun _ => writeArray peer length) length fuel 0 length

namespace Peer

variable {peer : Peer} {i : ℕ}

@[simp] theorem length_bytes (peer : Peer) (start count : ℕ) :
    (peer.bytes start count).length = count := by
  simp [bytes]

theorem bytes_add (peer : Peer) (start m k : ℕ) :
    peer.bytes start (m + k) = peer.bytes start m ++ peer.bytes (start + m) k := by
  simp [bytes, List.range_add, Nat.add_assoc, Function.comp_def]

theorem result_ge (peer : Peer) (i : ℕ) : -2 ^ 31 ≤ peer.result i := by
  rw [result]
  split
  · omega
  · exact Int32.le_toInt _

theorem result_lt (peer : Peer) (i : ℕ) : peer.result i < 2 ^ 31 := by
  rw [result]
  split
  · omega
  · exact Int32.toInt_lt _

end Peer

section Specs

variable {peer : Peer} {n b : ℕ} {l l' : Link} {as : List ℕ} {v : ℤ}

theorem onArray_done {α : Type} {c : Cmd α} {a : α} {s : ByteArray} (h : c l.ba = .done a s) :
    onArray c l = .done a { l with ba := s } :=
  Command.focus_done h

theorem onArray_inv {α : Type} {c : Cmd α} {a : α} (h : onArray c l = .done a l') :
    ∃ s, c l.ba = .done a s ∧ l' = { l with ba := s } := by
  rcases Command.focus_eq_done.mp h with ⟨s, hs, hset⟩
  exact ⟨s, hs, hset.symm⟩

theorem read_log {offset : ℕ} (h : read peer n offset l = .done v l') :
    l'.calls = l.calls + 1 ∧ l'.asked = l.asked ++ [(offset, n)] := by
  rw [read, Command.state_bind_apply, Command.modify_bind_apply, Command.pure_apply,
    Outcome.done.injEq] at h
  rw [← h.2]
  exact ⟨rfl, rfl⟩

theorem write_log {offset : ℕ} (h : write peer n offset l = .done v l') :
    l'.calls = l.calls + 1 ∧ l'.asked = l.asked ++ [(offset, n)] := by
  rw [write, Command.state_bind_apply, Command.modify_bind_apply, Command.pure_apply,
    Outcome.done.injEq] at h
  rw [← h.2]
  exact ⟨rfl, rfl⟩

theorem advance_inv {r : Int32} (h : advance r l = .done v l') :
    ∃ s, l' = { l with ba := s } ∧
      (l.ba = s ∨ setPosition (l.ba.position + r.toInt.toNat) l.ba = .done () s) := by
  rw [advance, Command.ite_apply] at h
  split_ifs at h
  · rw [Command.state_bind_apply] at h
    rcases Command.bind_eq_done.mp h with ⟨_, l₁, h₁, h⟩
    rcases onArray_inv h₁ with ⟨s, hs, rfl⟩
    rw [Command.pure_apply, Outcome.done.injEq] at h
    exact ⟨s, h.2.symm, .inr hs⟩
  · rw [Command.pure_apply, Outcome.done.injEq] at h
    exact ⟨l.ba, h.2.symm, .inl rfl⟩

theorem advance_spec {r : Int32} (hl : Layout b l.ba as)
    (hr : l.ba.position + r.toInt.toNat ≤ l.ba.capacity) :
    ∃ s, advance r l = .done r.toInt { l with ba := s } ∧ Layout b s as ∧
      s.position = l.ba.position + r.toInt.toNat ∧ s.heap = l.ba.heap ∧
      s.size = max l.ba.size (l.ba.position + r.toInt.toNat) := by
  rw [advance, Command.ite_apply]
  split_ifs with hpos
  · obtain ⟨hseek, hl'⟩ := setPosition_spec hl hr
    rw [Command.state_bind_apply, Command.bind_done (onArray_done hseek), Command.pure_apply]
    exact ⟨_, rfl, hl', rfl, rfl, rfl⟩
  · have h0 : r.toInt.toNat = 0 := by omega
    have hsize := hl.position_le
    refine ⟨l.ba, rfl, hl, by omega, rfl, ?_⟩
    rw [h0]
    omega

/-- The cursor only moves forward, and the array stays well formed. -/
theorem advance_keeps {r : Int32} (hl : Layout b l.ba as) (h : advance r l = .done v l') :
    (∃ as', Layout b l'.ba as') ∧ l.ba.position ≤ l'.ba.position ∧ l'.calls = l.calls := by
  rcases advance_inv h with ⟨s, rfl, rfl | hseek⟩
  · exact ⟨⟨as, hl⟩, le_rfl, rfl⟩
  · by_cases hcap : l.ba.position + r.toInt.toNat ≤ l.ba.capacity
    · obtain ⟨hrun, hl'⟩ := setPosition_spec hl hcap
      rw [hrun, Outcome.done.injEq] at hseek
      rw [← hseek.2]
      exact ⟨⟨as, hl'⟩, Nat.le_add_right _ _, rfl⟩
    · rw [setPosition_raises (by omega)] at hseek
      cases hseek

section Calls

variable {k : ℕ}

theorem onArray_calls {α : Type} (c : Cmd α) :
    Command.Ensures (fun l => l.calls = k) (onArray c) fun _ l => l.calls = k := by
  intro l a l' hl h
  rcases onArray_inv h with ⟨s, -, rfl⟩
  exact hl

theorem advance_calls (r : Int32) :
    Command.Ensures (fun l => l.calls = k) (advance r) fun _ l => l.calls = k := by
  intro l v l' hl h
  rcases advance_inv h with ⟨s, rfl, -⟩
  exact hl

/-- What follows an answer does not count again. -/
theorem answer_calls {move : Int32 → Io ℤ}
    (hmove : ∀ r, Command.Ensures (fun l => l.calls = k) (move r) fun _ l => l.calls = k)
    (answer : Option Int32) :
    Command.Ensures (fun l => l.calls = k)
      (match answer with
        | none => pure (-1)
        | some r => move r) fun _ l => l.calls = k := by
  cases answer with
  | none => exact .pure fun _ hl => hl
  | some r => exact hmove r

/-- Every call that returns is counted. -/
theorem readArray_calls (h : readArray peer n l = .done v l') : l'.calls = l.calls + 1 := by
  rw [readArray, Command.state_bind_apply, Command.modify_bind_apply] at h
  refine answer_calls (fun r => ?_) (peer.answer l.calls) _ _ _ rfl h
  exact .bind (onArray_calls _) fun _ => .bind (onArray_calls _) fun _ =>
    .bind (.modify fun _ hl => hl) fun _ => advance_calls r

theorem writeArray_calls (h : writeArray peer n l = .done v l') : l'.calls = l.calls + 1 := by
  rw [writeArray, Command.state_bind_apply, Command.modify_bind_apply] at h
  refine answer_calls (fun r => ?_) (peer.answer l.calls) _ _ _ rfl h
  exact .bind (onArray_calls _) fun _ => .bind (onArray_calls _) fun _ =>
    .bind (.modify fun _ hl => hl) fun _ => advance_calls r

end Calls

theorem readArray_keeps (hl : Layout b l.ba as) (h : readArray peer n l = .done v l') :
    (∃ as', Layout b l'.ba as') ∧ l.ba.position ≤ l'.ba.position := by
  rw [readArray, Command.state_bind_apply, Command.modify_bind_apply] at h
  cases hans : peer.answer l.calls with
  | none =>
    simp only [hans, Command.pure_apply, Outcome.done.injEq] at h
    rw [← h.2]
    exact ⟨⟨as, hl⟩, le_rfl⟩
  | some r =>
    obtain ⟨vs, s₁, s₂, as', pad, hget, hscatter, hl₂, hpos, -⟩ :=
      receive_spec hl n (peer.bytes l.taken r.toInt.toNat)
    simp only [hans] at h
    rw [Command.bind_done (onArray_done (by exact hget)), Command.bind_done (onArray_done (by exact hscatter)),
      Command.modify_bind_apply] at h
    obtain ⟨hex, hle, -⟩ := advance_keeps (by exact hl₂) h
    exact ⟨hex, hpos ▸ hle⟩

theorem writeArray_keeps (hl : Layout b l.ba as) (h : writeArray peer n l = .done v l') :
    (∃ as', Layout b l'.ba as') ∧ l.ba.position ≤ l'.ba.position := by
  rw [writeArray, Command.state_bind_apply, Command.modify_bind_apply] at h
  cases hans : peer.answer l.calls with
  | none =>
    simp only [hans, Command.pure_apply, Outcome.done.injEq] at h
    rw [← h.2]
    exact ⟨⟨as, hl⟩, le_rfl⟩
  | some r =>
    obtain ⟨vs, hget, hgather⟩ := send_spec hl n r.toInt.toNat
    simp only [hans] at h
    rw [Command.bind_done (onArray_done (by exact hget)), Command.bind_done (onArray_done (by exact hgather)),
      Command.modify_bind_apply] at h
    obtain ⟨hex, hle, -⟩ := advance_keeps (by exact hl) h
    exact ⟨hex, hle⟩

/-- A receive of at most the bytes asked for stores them at the cursor and moves it. -/
theorem readArray_spec (hl : Layout b l.ba as) (hr : peer.result l.calls ≤ n) :
    ∃ s as' pad, readArray peer n l = .done (peer.result l.calls) { l with
        calls := l.calls + 1
        taken := l.taken + (peer.result l.calls).toNat
        ba := s } ∧
      Layout b s as' ∧ s.position = l.ba.position + (peer.result l.calls).toNat ∧
      l.ba.position + (peer.result l.calls).toNat ≤ l.ba.capacity + pad ∧
      contents s.heap as' = splice (contents l.ba.heap as ++ List.replicate pad none)
        l.ba.position ((peer.bytes l.taken (peer.result l.calls).toNat).map some) := by
  rw [readArray, Command.state_bind_apply, Command.modify_bind_apply]
  rw [Peer.result] at hr ⊢
  cases hans : peer.answer l.calls with
  | none =>
    exact ⟨l.ba, as, 0, rfl, hl, rfl, hl.position_le.trans hl.size_le, by simp [Peer.bytes]⟩
  | some r =>
    simp only [hans] at hr ⊢
    obtain ⟨vs, s₁, s₂, as', pad, hget, hscatter, hl₂, hpos, hcap, hgrown, hcont⟩ :=
      receive_spec hl n (peer.bytes l.taken r.toInt.toNat)
    rw [List.take_of_length_le (by rw [Peer.length_bytes]; omega)] at hcont
    rw [Command.bind_done (onArray_done (by exact hget)), Command.bind_done (onArray_done (by exact hscatter)),
      Command.modify_bind_apply]
    obtain ⟨s, hrun, hl', hpos', hheap, -⟩ := advance_spec (r := r)
      (l := { l with calls := l.calls + 1, taken := l.taken + r.toInt.toNat, ba := s₂ }) hl₂
      (by dsimp only; omega)
    refine ⟨s, as', pad, hrun, hl', hpos'.trans (by rw [hpos]), by omega, ?_⟩
    rw [hheap, hcont]

/-- A send of some of the bytes offered takes them from the cursor on and moves it. -/
theorem writeArray_spec (hl : Layout b l.ba as)
    (hr : peer.result l.calls ≤ (min n (l.ba.size - l.ba.position) : ℕ)) :
    ∃ s, writeArray peer n l = .done (peer.result l.calls) { l with
        calls := l.calls + 1
        sent := l.sent ++ ((contents l.ba.heap as).drop l.ba.position).take
          (peer.result l.calls).toNat
        ba := s } ∧
      Layout b s as ∧ s.position = l.ba.position + (peer.result l.calls).toNat ∧
      s.heap = l.ba.heap ∧ s.size = l.ba.size := by
  have h₁ := hl.size_le
  have h₂ := hl.position_le
  rw [writeArray, Command.state_bind_apply, Command.modify_bind_apply]
  rw [Peer.result] at hr ⊢
  cases hans : peer.answer l.calls with
  | none =>
    refine ⟨l.ba, ?_, hl, rfl, rfl, rfl⟩
    simp
  | some r =>
    simp only [hans] at hr ⊢
    obtain ⟨vs, hget, hgather⟩ := send_spec hl n r.toInt.toNat
    rw [min_eq_left (by omega)] at hgather
    rw [Command.bind_done (onArray_done (by exact hget)), Command.bind_done (onArray_done (by exact hgather)),
      Command.modify_bind_apply]
    obtain ⟨s, hrun, hl', hpos', hheap, hsize⟩ := advance_spec (r := r)
      (l := { l with
        calls := l.calls + 1
        sent := l.sent ++ ((contents l.ba.heap as).drop l.ba.position).take r.toInt.toNat }) hl
      (by dsimp only; omega)
    refine ⟨s, hrun, hl', hpos', hheap, hsize.trans ?_⟩
    dsimp only
    omega

end Specs

end Sylar.Stream
