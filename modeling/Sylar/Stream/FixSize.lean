import Sylar.Stream.Socket

/-! # When `readFixSize` and `writeFixSize` transfer exactly what they are asked for

Every call of the loop asks for the full length instead of what is left, and a
negative result is stored in an unsigned variable before it is tested. The
results below say for which answers of the kernel this goes unnoticed.
-/
namespace Sylar.Stream
open Memory Sylar.ByteArray

variable {peer : Peer} {n b : ℕ} {mem : ℕ → Cell} {ba : ByteArray} {as : List ℕ}

/-- As long as fewer than `n` bytes have been transferred the calls return a positive number,
at most what they were asked for. -/
def Peer.Partial (peer : Peer) (n : ℕ) : Prop :=
  ∀ k, moved peer.result k < n → 1 ≤ peer.result k ∧ peer.result k ≤ n

/-- The same for sends from an array with `readable` bytes behind its cursor: no more can be
sent than is there. -/
def Peer.PartialSend (peer : Peer) (n readable : ℕ) : Prop :=
  ∀ k, moved peer.result k < n →
    1 ≤ peer.result k ∧ peer.result k ≤ (min n (readable - moved peer.result k) : ℕ)

/-- `readFixSize(buffer, n)` returns `n`, has asked for nothing outside the buffer, and has
stored the next `n` bytes of the stream and consumed no others. -/
def ReadsBuffer (peer : Peer) (mem : ℕ → Cell) (ba : ByteArray) (n : ℕ) : Prop :=
  ∃ fuel l, readFixSize peer fuel n (Link.start mem ba) = .done (n : ℤ) l ∧
    (∀ q ∈ l.asked, q.1 + q.2 ≤ n) ∧ l.taken = n ∧
    ∀ i, l.mem i = if i < n then some (peer.input i) else mem i

/-- `readFixSize(ba, n)` returns `n`, has moved the cursor by `n`, and has stored the next `n`
bytes of the stream in front of it and consumed no others. -/
def ReadsArray (peer : Peer) (mem : ℕ → Cell) (ba : ByteArray) (n : ℕ) : Prop :=
  ∃ fuel l, readFixSizeArray peer fuel n (Link.start mem ba) = .done (n : ℤ) l ∧
    l.ba.position = ba.position + n ∧ l.taken = n ∧
    ∃ as', Layout ba.baseSize l.ba as' ∧
      ((contents l.ba.heap as').drop ba.position).take n = (peer.bytes 0 n).map some

/-- `writeFixSize(buffer, n)` returns `n`, has read nothing outside the buffer, and the peer
has received the buffer. -/
def WritesBuffer (peer : Peer) (mem : ℕ → Cell) (ba : ByteArray) (n : ℕ) : Prop :=
  ∃ fuel l, writeFixSize peer fuel n (Link.start mem ba) = .done (n : ℤ) l ∧
    (∀ q ∈ l.asked, q.1 + q.2 ≤ n) ∧ l.sent = (List.range n).map mem

/-- `writeFixSize(ba, n)` returns `n`, has moved the cursor by `n`, and the peer has received
the `n` bytes in front of it. -/
def WritesArray (peer : Peer) (mem : ℕ → Cell) (ba : ByteArray) (as : List ℕ) (n : ℕ) : Prop :=
  ∃ fuel l, writeFixSizeArray peer fuel n (Link.start mem ba) = .done (n : ℤ) l ∧
    l.ba.position = ba.position + n ∧
    l.sent = ((contents ba.heap as).drop ba.position).take n

theorem readsBuffer_iff (hn : n < 2 ^ 64) (hp : peer.Partial n) :
    ReadsBuffer peer mem ba n ↔ n = 0 ∨ peer.result 0 = n := by
  apply fixSizeLoop_inside_iff hn Link.asked
    (Q := fun l => l.taken = n ∧ ∀ i, l.mem i = if i < n then some (peer.input i) else mem i)
  · intro offset l v l' h
    exact (read_log h).2
  · rfl
  · intro hpos
    obtain ⟨h₁, h₂⟩ := hp 0 hpos
    exact ⟨h₁, h₂, peer.result_lt 0⟩
  · rfl
  · rintro rfl
    exact ⟨rfl, fun i => rfl⟩
  · intro hfull
    have hnat : (peer.result 0).toNat = n := by omega
    refine ⟨(Nat.zero_add _).trans hnat, fun i => ?_⟩
    simp [Link.start, hnat]

theorem writesBuffer_iff (hn : n < 2 ^ 64) (hp : peer.Partial n) :
    WritesBuffer peer mem ba n ↔ n = 0 ∨ peer.result 0 = n := by
  apply fixSizeLoop_inside_iff hn Link.asked (Q := fun l => l.sent = (List.range n).map mem)
  · intro offset l v l' h
    exact (write_log h).2
  · rfl
  · intro hpos
    obtain ⟨h₁, h₂⟩ := hp 0 hpos
    exact ⟨h₁, h₂, peer.result_lt 0⟩
  · rfl
  · rintro rfl
    rfl
  · intro hfull
    have hnat : (peer.result 0).toNat = n := by omega
    simp [Link.start, hnat]

/-- After `k` calls the array holds what was received so far, stored at the old cursor. -/
structure Received (peer : Peer) (ba : ByteArray) (as : List ℕ) (k : ℕ) (l : Link) : Prop where
  calls : l.calls = k
  taken : l.taken = moved peer.result k
  position : l.ba.position = ba.position + moved peer.result k
  stored : ∃ as' pad, Layout ba.baseSize l.ba as' ∧
    ba.position + moved peer.result k ≤ ba.capacity + pad ∧
    contents l.ba.heap as' = splice (contents ba.heap as ++ List.replicate pad none) ba.position
      ((peer.bytes 0 (moved peer.result k)).map some)

theorem received_start (hl : Layout ba.baseSize ba as) :
    Received peer ba as 0 (Link.start mem ba) where
  calls := rfl
  taken := rfl
  position := rfl
  stored := ⟨as, 0, hl, hl.position_le.trans hl.size_le, by simp [Link.start, Peer.bytes]⟩

theorem Received.step {k : ℕ} {l : Link} (hl : Layout ba.baseSize ba as)
    (h : Received peer ba as k l) (hr : peer.result k ≤ n) :
    ∃ l', readArray peer n l = .done (peer.result k) l' ∧ Received peer ba as (k + 1) l' := by
  obtain ⟨as', pad, hl', hroom, hcont⟩ := h.stored
  have hk := h.calls
  subst hk
  obtain ⟨s, as'', pad', hrun, hl'', hpos, hroom', hcont'⟩ := readArray_spec hl' hr
  have hle := hl.position_le.trans hl.size_le
  have hlen : (contents ba.heap as ++ List.replicate pad none).length = ba.capacity + pad := by
    rw [List.length_append, hl.length_contents, List.length_replicate]
  have hcap : l.ba.capacity = ba.capacity + pad := by
    rw [← hl'.length_contents, hcont, length_splice _ (by omega), hlen, List.length_map,
      Peer.length_bytes, max_eq_left hroom]
  have hpos₀ := h.position
  refine ⟨_, hrun, rfl, ?_, ?_, as'', pad + pad', hl'', ?_, ?_⟩
  · rw [moved_succ, h.taken]
  · rw [hpos, hpos₀, moved_succ, Nat.add_assoc]
  · rw [moved_succ]
    omega
  · have hjoin := splice_splice (l := contents ba.heap as ++ List.replicate (pad + pad') none)
      (p := ba.position) ((peer.bytes 0 (moved peer.result l.calls)).map some)
      ((peer.bytes (moved peer.result l.calls) (peer.result l.calls).toNat).map some)
      (by rw [List.length_append, hl.length_contents]; omega)
    rw [List.length_map, Peer.length_bytes] at hjoin
    rw [hcont', hcont, hpos₀, ← splice_append_left _ (by simpa [hlen] using hroom),
      List.append_assoc, ← List.replicate_add, h.taken, hjoin, moved_succ, Peer.bytes_add,
      List.map_append, Nat.zero_add]

theorem readsArray_iff (hn : n < 2 ^ 64) (hp : peer.Partial n) (hl : Layout b ba as) :
    ReadsArray peer mem ba n ↔ n < 2 ^ 31 ∧ ∃ k, moved peer.result k = n := by
  have hbase := hl.base
  subst hbase
  apply fixSizeLoop_exact_iff hn (fun l : Link => l.ba.position) ba.position
    (I := Received peer ba as) (J := fun l => ∃ as', Layout ba.baseSize l.ba as')
    (Q := fun l => l.taken = n ∧ ∃ as', Layout ba.baseSize l.ba as' ∧
      ((contents l.ba.heap as').drop ba.position).take n = (peer.bytes 0 n).map some)
  · intro k l h hlt
    exact h.step hl (hp k hlt).2
  · intro k l h
    obtain ⟨as', -, hl', -⟩ := h.stored
    exact ⟨⟨as', hl'⟩, h.position⟩
  · rintro - l v l' ⟨as', hl'⟩ hrun
    exact readArray_keeps hl' hrun
  · intro k l h hk
    obtain ⟨as', pad, hl', -, hcont⟩ := h.stored
    refine ⟨h.taken.trans hk, as', hl', ?_⟩
    have hin : ba.position ≤ (contents ba.heap as ++ List.replicate pad none).length := by
      have := hl.position_le.trans hl.size_le
      rw [List.length_append, hl.length_contents]
      omega
    have hself := take_drop_splice_self ((peer.bytes 0 n).map some) hin
    rw [List.length_map, Peer.length_bytes] at hself
    rw [hcont, hk, hself]
  · intro k hk
    exact (hp k hk).1
  · exact received_start hl

/-- After `k` calls the peer has received the bytes in front of the old cursor. -/
structure Delivered (peer : Peer) (ba : ByteArray) (as : List ℕ) (k : ℕ) (l : Link) : Prop where
  calls : l.calls = k
  position : l.ba.position = ba.position + moved peer.result k
  layout : Layout ba.baseSize l.ba as
  heap : l.ba.heap = ba.heap
  size : l.ba.size = ba.size
  sent : l.sent = ((contents ba.heap as).drop ba.position).take (moved peer.result k)

theorem delivered_start (hl : Layout ba.baseSize ba as) :
    Delivered peer ba as 0 (Link.start mem ba) :=
  ⟨rfl, rfl, hl, rfl, rfl, rfl⟩

theorem Delivered.step {k : ℕ} {l : Link} (h : Delivered peer ba as k l)
    (hr : peer.result k ≤ (min n (ba.size - ba.position - moved peer.result k) : ℕ)) :
    ∃ l', writeArray peer n l = .done (peer.result k) l' ∧ Delivered peer ba as (k + 1) l' := by
  have hk := h.calls
  have hpos₀ := h.position
  have hsize₀ := h.size
  subst hk
  have hr' : peer.result l.calls ≤ (min n (l.ba.size - l.ba.position) : ℕ) := by omega
  obtain ⟨s, hrun, hl', hpos, hheap, hsize⟩ := writeArray_spec h.layout hr'
  refine ⟨_, hrun, rfl, ?_, hl', hheap.trans h.heap, hsize.trans hsize₀, ?_⟩
  · rw [hpos, hpos₀, moved_succ, Nat.add_assoc]
  · rw [h.sent, h.heap, hpos₀, moved_succ, take_add_drop]

theorem writesArray_iff (hn : n < 2 ^ 64) (hl : Layout b ba as)
    (hp : peer.PartialSend n (ba.size - ba.position)) :
    WritesArray peer mem ba as n ↔ n < 2 ^ 31 ∧ ∃ k, moved peer.result k = n := by
  have hbase := hl.base
  subst hbase
  apply fixSizeLoop_exact_iff hn (fun l : Link => l.ba.position) ba.position
    (I := Delivered peer ba as) (J := fun l => ∃ as', Layout ba.baseSize l.ba as')
    (Q := fun l => l.sent = ((contents ba.heap as).drop ba.position).take n)
  · intro k l h hlt
    exact h.step (hp k hlt).2
  · intro k l h
    exact ⟨⟨as, h.layout⟩, h.position⟩
  · rintro - l v l' ⟨as', hl'⟩ hrun
    exact writeArray_keeps hl' hrun
  · intro k l h hk
    rw [h.sent, hk]
  · intro k hk
    exact (hp k hk).1
  · exact delivered_start hl

/-- The peer whose every call transfers the same number of bytes. -/
def steady (r : Int32) : Peer := ⟨fun _ => some r, fun i => UInt8.ofNat i⟩

theorem moved_steady (r : Int32) (k : ℕ) : moved (steady r).result k = k * r.toInt.toNat := by
  induction k with
  | zero => rw [moved_zero, Nat.zero_mul]
  | succ k ih =>
    rw [moved_succ, ih, Nat.succ_mul]
    rfl

theorem steady_partial {r : Int32} (h₁ : 1 ≤ r.toInt) (h₂ : r.toInt ≤ n) :
    (steady r).Partial n :=
  fun _ _ => ⟨h₁, h₂⟩

/-- With positive partial results, reading into a buffer is exact when one call delivers
everything, and reading into an array when some number of results adds up to the length. -/
theorem readFixSize_exact_iff (mem : ℕ → Cell) (hn : n < 2 ^ 64) (hp : peer.Partial n)
    (hl : Layout b ba as) :
    (ReadsBuffer peer mem ba n ↔ n = 0 ∨ peer.result 0 = n) ∧
      (ReadsArray peer mem ba n ↔ n < 2 ^ 31 ∧ ∃ k, moved peer.result k = n) :=
  ⟨readsBuffer_iff hn hp, readsArray_iff hn hp hl⟩

theorem readFixSize_exact_three :
    (steady 3).Partial 3 ∧ ReadsBuffer (steady 3) (fun _ => none) (new 4) 3 ∧
      ReadsArray (steady 3) (fun _ => none) (new 4) 3 := by
  have hp : (steady 3).Partial 3 := steady_partial (by decide) (by decide)
  have h := readFixSize_exact_iff (fun _ => none) (by decide) hp (new_layout (b := 4) (by decide))
  exact ⟨hp, h.1.mpr (.inr rfl), h.2.mpr ⟨by decide, 1, rfl⟩⟩

/-- Two one-byte results for two bytes make the second call ask past the buffer; two two-byte
results for three bytes are one byte too many for the array. -/
theorem short_read_overruns :
    (steady 1).Partial 2 ∧ ¬ReadsBuffer (steady 1) (fun _ => none) (new 4) 2 ∧
      (steady 2).Partial 3 ∧ ¬ReadsArray (steady 2) (fun _ => none) (new 4) 3 := by
  have h₁ : (steady 1).Partial 2 := steady_partial (by decide) (by decide)
  have h₂ : (steady 2).Partial 3 := steady_partial (by decide) (by decide)
  refine ⟨h₁, ?_, h₂, ?_⟩
  · rw [readsBuffer_iff (by decide) h₁]
    decide
  · rw [readsArray_iff (by decide) h₂ (new_layout (b := 4) (by decide))]
    rintro ⟨-, k, hk⟩
    rw [moved_steady, show (2 : Int32).toInt.toNat = 2 by decide] at hk
    omega

/-- With positive partial results, writing a buffer is exact when one call takes everything,
and writing from an array when some number of results adds up to the length. -/
theorem writeFixSize_exact_iff (mem : ℕ → Cell) (hn : n < 2 ^ 64) (hl : Layout b ba as) :
    (peer.Partial n → (WritesBuffer peer mem ba n ↔ n = 0 ∨ peer.result 0 = n)) ∧
      (peer.PartialSend n (ba.size - ba.position) →
        (WritesArray peer mem ba as n ↔ n < 2 ^ 31 ∧ ∃ k, moved peer.result k = n)) :=
  ⟨writesBuffer_iff hn, writesArray_iff hn hl⟩

/-- An array that holds `d` with the cursor in front of it. -/
theorem exists_rewound (d : List UInt8) :
    ∃ s₁ s₂ as, ByteArray.write d (new 4) = .done () s₁ ∧ setPosition 0 s₁ = .done () s₂ ∧
      Layout 4 s₂ as ∧ s₂.size - s₂.position = d.length := by
  obtain ⟨s₁, as, -, hwrite, hl, -, -, hsize, -⟩ :=
    ByteArray.write_spec (new_layout (b := 4) (by decide)) d
  obtain ⟨hseek, hl'⟩ := setPosition_spec hl (Nat.zero_le _)
  refine ⟨s₁, _, as, hwrite, hseek, hl', ?_⟩
  rw [max_eq_left (Nat.zero_le _), hsize]
  simp [new]

theorem writeFixSize_exact_four :
    (steady 2).Partial 2 ∧ WritesBuffer (steady 2) (fun _ => some 7) (new 4) 2 ∧
      ∃ s₁ s₂ as, ByteArray.write [1, 2, 3, 4] (new 4) = .done () s₁ ∧
        setPosition 0 s₁ = .done () s₂ ∧ (steady 2).PartialSend 4 (s₂.size - s₂.position) ∧
        WritesArray (steady 2) (fun _ => some 7) s₂ as 4 := by
  have hp : (steady 2).Partial 2 := steady_partial (by decide) (by decide)
  obtain ⟨s₁, s₂, as, hwrite, hseek, hl, hsize⟩ := exists_rewound [1, 2, 3, 4]
  have hs : (steady 2).PartialSend 4 (s₂.size - s₂.position) := by
    intro k hk
    have htwo : (steady 2).result k = 2 := rfl
    rw [moved_steady, show (2 : Int32).toInt.toNat = 2 by decide] at hk ⊢
    rw [hsize, List.length_cons, List.length_cons, List.length_cons, List.length_singleton]
    omega
  refine ⟨hp, ?_, s₁, s₂, as, hwrite, hseek, hs, ?_⟩
  · have hnew := new_layout (b := 4) (by decide)
    exact ((writeFixSize_exact_iff _ (by decide) hnew).1 hp).mpr (.inr rfl)
  · exact ((writeFixSize_exact_iff _ (by decide) hl).2 hs).mpr ⟨by decide, 2, rfl⟩

/-- Two one-byte results for two bytes make the second call read past the buffer; two two-byte
results for three of the four bytes of an array send one byte too many. -/
theorem short_write_overruns :
    (steady 1).Partial 2 ∧ ¬WritesBuffer (steady 1) (fun _ => some 7) (new 4) 2 ∧
      ∃ s₁ s₂ as, ByteArray.write [1, 2, 3, 4] (new 4) = .done () s₁ ∧
        setPosition 0 s₁ = .done () s₂ ∧ Layout 4 s₂ as ∧
        (steady 2).PartialSend 3 (s₂.size - s₂.position) ∧
        ¬WritesArray (steady 2) (fun _ => some 7) s₂ as 3 := by
  have hp : (steady 1).Partial 2 := steady_partial (by decide) (by decide)
  obtain ⟨s₁, s₂, as, hwrite, hseek, hl, hsize⟩ := exists_rewound [1, 2, 3, 4]
  have hs : (steady 2).PartialSend 3 (s₂.size - s₂.position) := by
    intro k hk
    have htwo : (steady 2).result k = 2 := rfl
    rw [moved_steady, show (2 : Int32).toInt.toNat = 2 by decide] at hk ⊢
    rw [hsize, List.length_cons, List.length_cons, List.length_cons, List.length_singleton]
    omega
  refine ⟨hp, ?_, s₁, s₂, as, hwrite, hseek, hl, hs, ?_⟩
  · rw [writesBuffer_iff (by decide) hp]
    decide
  · rw [writesArray_iff (by decide) hl hs]
    rintro ⟨-, k, hk⟩
    rw [moved_steady, show (2 : Int32).toInt.toNat = 2 by decide] at hk
    omega

/-- The function has returned right after call number `j`, with zero for a zero result `r`
and with a negative value for a negative one. -/
def StopsAt (run : ℕ → Io ℤ) (l : Link) (j : ℕ) (r : ℤ) : Prop :=
  ∃ fuel v l', run fuel l = .done v l' ∧ l'.calls = j + 1 ∧ (r = 0 → v = 0) ∧ (r < 0 → v < 0)

section Stops

variable {j : ℕ}

/-- Call number `j` is the first that returns no bytes, and comes before `n` bytes were
transferred. -/
structure Peer.Fails (peer : Peer) (n j : ℕ) : Prop where
  pos : ∀ k < j, 1 ≤ peer.result k
  short : moved peer.result j < n
  nonpos : peer.result j ≤ 0

/-- A result up to the failing one fits into what the calls before it have transferred. -/
theorem Peer.Fails.fit (h : peer.Fails n j) {k : ℕ} (hk : k < j + 1) :
    peer.result k ≤ n ∧ (peer.result k).toNat ≤ moved peer.result j - moved peer.result k := by
  have hshort := h.short
  have hnonpos := h.nonpos
  rcases Nat.lt_succ_iff_lt_or_eq.mp hk with hlt | rfl
  · have hmono := moved_mono peer.result (show k + 1 ≤ j from hlt)
    rw [moved_succ] at hmono
    omega
  · omega

/-- The failing result is a close, or the one error that wraps the counter to zero. -/
def Peer.SeenToFail (peer : Peer) (n j : ℕ) : Prop :=
  peer.result j = 0 ∨ ((n - moved peer.result j : ℕ) : ℤ) - peer.result j = 2 ^ 64

/-- A loop whose calls give the results of the peer stops at the failing one if it is seen. -/
theorem Peer.Fails.stops_iff {io : ℕ → Io ℤ} {I : ℕ → Link → Prop} {l : Link} (h : peer.Fails n j)
    (hn : n < 2 ^ 64)
    (hstep : ∀ k < j + 1, ∀ l, I k l →
      ∃ l', io (moved peer.result k) l = .done (peer.result k) l' ∧ I (k + 1) l')
    (hI : ∀ l, I (j + 1) l → l.calls = j + 1)
    (hcalls : ∀ offset l v l', io offset l = .done v l' → l'.calls = l.calls + 1) (h0 : I 0 l) :
    StopsAt (fixSizeLoop io n · 0 n) l j (peer.result j) ↔ peer.SeenToFail n j :=
  fixSizeLoop_stops_iff hn Link.calls hstep hI hcalls h.pos h.short (peer.result_ge j) h.nonpos h0

/-- Transfers of a caller's buffer: every call returns. -/
theorem Peer.Fails.buffer_stops_iff {io : ℕ → Io ℤ} (h : peer.Fails n j) (hn : n < 2 ^ 64)
    (hio : ∀ offset l, ∃ l', io offset l = .done (peer.result l.calls) l' ∧
      l'.calls = l.calls + 1) :
    StopsAt (fixSizeLoop io n · 0 n) (Link.start mem ba) j (peer.result j) ↔
      peer.SeenToFail n j := by
  apply h.stops_iff (I := fun k l => l.calls = k) hn
  · rintro k - l rfl
    exact hio _ l
  · exact fun l hl => hl
  · intro offset l v l' hrun
    obtain ⟨l₁, hdone, hcount⟩ := hio offset l
    rw [hdone] at hrun
    cases hrun
    exact hcount
  · rfl

theorem readFixSize_stops_iff (hn : n < 2 ^ 64) (h : peer.Fails n j) :
    StopsAt (readFixSize peer · n) (Link.start mem ba) j (peer.result j) ↔
      peer.SeenToFail n j :=
  h.buffer_stops_iff hn fun _ _ => ⟨_, rfl, rfl⟩

theorem writeFixSize_stops_iff (hn : n < 2 ^ 64) (h : peer.Fails n j) :
    StopsAt (writeFixSize peer · n) (Link.start mem ba) j (peer.result j) ↔
      peer.SeenToFail n j :=
  h.buffer_stops_iff hn fun _ _ => ⟨_, rfl, rfl⟩

theorem readFixSizeArray_stops_iff (hn : n < 2 ^ 64) (h : peer.Fails n j) (hl : Layout b ba as) :
    StopsAt (readFixSizeArray peer · n) (Link.start mem ba) j (peer.result j) ↔
      peer.SeenToFail n j := by
  have hbase := hl.base
  subst hbase
  apply h.stops_iff (I := Received peer ba as) hn
  · intro k hk l hr
    exact hr.step hl (h.fit hk).1
  · exact fun l hr => hr.calls
  · exact fun _ _ _ _ hrun => readArray_calls hrun
  · exact received_start hl

theorem writeFixSizeArray_stops_iff (hn : n < 2 ^ 64) (h : peer.Fails n j) (hl : Layout b ba as)
    (hsend : moved peer.result j ≤ ba.size - ba.position) :
    StopsAt (writeFixSizeArray peer · n) (Link.start mem ba) j (peer.result j) ↔
      peer.SeenToFail n j := by
  have hbase := hl.base
  subst hbase
  apply h.stops_iff (I := Delivered peer ba as) hn
  · intro k hk l hd
    have hfit := h.fit hk
    exact hd.step (by omega)
  · exact fun l hd => hd.calls
  · exact fun _ _ _ _ hrun => writeArray_calls hrun
  · exact delivered_start hl

/-- Each of the four functions stops at the first result that is not positive exactly when that
result is zero, but for the one negative value that makes the wrapped counter zero. -/
theorem fixSize_stops_iff (peer : Peer) (mem : ℕ → Cell) (hn : n < 2 ^ 64)
    (h : peer.Fails n j) (hl : Layout b ba as) :
    (StopsAt (readFixSize peer · n) (Link.start mem ba) j (peer.result j) ↔
      peer.SeenToFail n j) ∧
    (StopsAt (readFixSizeArray peer · n) (Link.start mem ba) j (peer.result j) ↔
      peer.SeenToFail n j) ∧
    (StopsAt (writeFixSize peer · n) (Link.start mem ba) j (peer.result j) ↔
      peer.SeenToFail n j) ∧
    (moved peer.result j ≤ ba.size - ba.position →
      (StopsAt (writeFixSizeArray peer · n) (Link.start mem ba) j (peer.result j) ↔
        peer.SeenToFail n j)) :=
  ⟨readFixSize_stops_iff hn h, readFixSizeArray_stops_iff hn h hl, writeFixSize_stops_iff hn h,
    writeFixSizeArray_stops_iff hn h hl⟩

theorem fixSize_stops_at_close :
    (steady 0).Fails 5 0 ∧
      StopsAt (readFixSize (steady 0) · 5) (Link.start (fun _ => none) (new 4)) 0 0 ∧
      StopsAt (readFixSizeArray (steady 0) · 5) (Link.start (fun _ => none) (new 4)) 0 0 ∧
      StopsAt (writeFixSize (steady 0) · 5) (Link.start (fun _ => none) (new 4)) 0 0 ∧
      StopsAt (writeFixSizeArray (steady 0) · 5) (Link.start (fun _ => none) (new 4)) 0 0 := by
  have hf : (steady 0).Fails 5 0 :=
    ⟨fun k hk => absurd hk (Nat.not_lt_zero k), by decide, by decide⟩
  have h := fixSize_stops_iff (steady 0) (fun _ => none) (by decide) hf
    (new_layout (b := 4) (by decide))
  exact ⟨hf, h.1.mpr (.inl rfl), h.2.1.mpr (.inl rfl), h.2.2.1.mpr (.inl rfl),
    (h.2.2.2 (Nat.zero_le _)).mpr (.inl rfl)⟩

/-- An error in the first call is not noticed by any of the four functions. -/
theorem error_goes_unseen :
    (steady (-1)).Fails 5 0 ∧
      ¬StopsAt (readFixSize (steady (-1)) · 5) (Link.start (fun _ => none) (new 4)) 0 (-1) ∧
      ¬StopsAt (readFixSizeArray (steady (-1)) · 5) (Link.start (fun _ => none) (new 4)) 0 (-1) ∧
      ¬StopsAt (writeFixSize (steady (-1)) · 5) (Link.start (fun _ => none) (new 4)) 0 (-1) ∧
      ¬StopsAt (writeFixSizeArray (steady (-1)) · 5) (Link.start (fun _ => none) (new 4)) 0 (-1) := by
  have hf : (steady (-1)).Fails 5 0 :=
    ⟨fun k hk => absurd hk (Nat.not_lt_zero k), by decide, by decide⟩
  have hl := new_layout (b := 4) (by decide)
  have hseen : ¬(steady (-1)).SeenToFail 5 0 := by
    rintro (h | h) <;> exact absurd h (by decide)
  exact ⟨hf, fun h => hseen ((readFixSize_stops_iff (by decide) hf).mp h),
    fun h => hseen ((readFixSizeArray_stops_iff (by decide) hf hl).mp h),
    fun h => hseen ((writeFixSize_stops_iff (by decide) hf).mp h),
    fun h => hseen ((writeFixSizeArray_stops_iff (by decide) hf hl (Nat.zero_le _)).mp h)⟩

end Stops

end Sylar.Stream
