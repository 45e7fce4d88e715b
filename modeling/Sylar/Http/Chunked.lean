import Sylar.Http.ChunkHead
import Sylar.Http.KeepAlive

/-! # Chunked responses

The loop over the chunks has three sources of bytes: what is left in the buffer, `read` into the
buffer, and `readFixSize` past it. They agree on where the stream is as long as the read that
brings the head of a chunk brings all of it and nothing behind the data of the chunk.
-/
namespace Sylar.Http
open Memory Ragel
open Sylar.Stream (toInt toSize toInt_eq_self_iff toSize_of_nonneg)

section Bytes

def pending (arrivals : List Arrival) : List UInt8 :=
  arrivals.flatMap fun a => match a with
    | .data bs => bs
    | .failure => []

/-- The next `n` bytes, and what is left; `none` at the end of the stream or at a failure. -/
def takeBytes : ℕ → List Arrival → Option (List UInt8 × List Arrival)
  | 0, arrivals => some ([], arrivals)
  | _ + 1, [] => none
  | _ + 1, .failure :: _ => none
  | n + 1, .data bs :: rest =>
    if bs = [] then none
    else if n + 1 < bs.length then some (bs.take (n + 1), .data (bs.drop (n + 1)) :: rest)
    else (takeBytes (n + 1 - bs.length) rest).map fun r => (bs ++ r.1, r.2)

variable {n k : ℕ} {arrivals rest : List Arrival} {bs : List UInt8}

theorem takeBytes_data {x : List UInt8} (hx : x ≠ []) (hn : 0 < n) :
    takeBytes n (.data x :: arrivals) =
      if n < x.length then some (x.take n, .data (x.drop n) :: arrivals)
      else (takeBytes (n - x.length) arrivals).map fun r => (x ++ r.1, r.2) := by
  obtain ⟨n, rfl⟩ : ∃ k, n = k + 1 := ⟨n - 1, by omega⟩
  rw [takeBytes, if_neg hx]

theorem takeBytes_zero (arrivals : List Arrival) : takeBytes 0 arrivals = some ([], arrivals) := by
  cases arrivals with
  | nil => rfl
  | cons a arrivals => cases a <;> rfl

/-- Nothing is taken, or a part of an arrival, or an arrival and what follows. -/
theorem takeBytes_cases (h : takeBytes n arrivals = some (bs, rest)) :
    (n = 0 ∧ bs = [] ∧ rest = arrivals) ∨
      ∃ x more, arrivals = .data x :: more ∧ 0 < n ∧ x ≠ [] ∧
        ((n < x.length ∧ bs = x.take n ∧ rest = .data (x.drop n) :: more) ∨
          (x.length ≤ n ∧ ∃ bs', takeBytes (n - x.length) more = some (bs', rest) ∧
            bs = x ++ bs')) := by
  rcases Nat.eq_zero_or_pos n with rfl | hn
  · rw [takeBytes_zero] at h
    cases h
    exact .inl ⟨rfl, rfl, rfl⟩
  · right
    obtain ⟨n, rfl⟩ : ∃ k, n = k + 1 := ⟨n - 1, by omega⟩
    match arrivals with
    | [] => cases h
    | .failure :: more => cases h
    | .data x :: more =>
      by_cases hx : x = []
      · rw [hx] at h
        cases h
      · rw [takeBytes_data hx hn] at h
        refine ⟨x, more, rfl, hn, hx, ?_⟩
        by_cases hlt : n + 1 < x.length
        · rw [if_pos hlt] at h
          cases h
          exact .inl ⟨hlt, rfl, rfl⟩
        · rw [if_neg hlt] at h
          obtain ⟨r, hr, heq⟩ := Option.map_eq_some_iff.mp h
          cases heq
          exact .inr ⟨by omega, r.1, hr, rfl⟩

theorem takeBytes_length (h : takeBytes n arrivals = some (bs, rest)) : bs.length = n := by
  induction arrivals generalizing n bs with
  | nil =>
    rcases takeBytes_cases h with ⟨rfl, rfl, -⟩ | ⟨x, more, harr, -⟩
    · rfl
    · cases harr
  | cons a arrivals ih =>
    rcases takeBytes_cases h with ⟨rfl, rfl, -⟩ | ⟨x, more, harr, -, -, hpart | ⟨hle, bs', hrest, rfl⟩⟩
    · rfl
    · rw [hpart.2.1, List.length_take, min_eq_left hpart.1.le]
    · cases harr
      rw [List.length_append, ih hrest]
      omega

theorem takeBytes_pending (h : takeBytes n arrivals = some (bs, rest)) :
    pending arrivals = bs ++ pending rest := by
  induction arrivals generalizing n bs with
  | nil =>
    rcases takeBytes_cases h with ⟨-, rfl, rfl⟩ | ⟨x, more, harr, -⟩
    · rfl
    · cases harr
  | cons a arrivals ih =>
    rcases takeBytes_cases h with ⟨-, rfl, rfl⟩ | ⟨x, more, harr, -, -, ⟨-, rfl, rfl⟩ | ⟨-, bs', hrest, rfl⟩⟩
    · rfl
    · rw [harr, pending, pending, List.flatMap_cons, List.flatMap_cons, ← List.append_assoc,
        List.take_append_drop]
    · cases harr
      rw [pending, List.flatMap_cons, List.append_assoc]
      exact congrArg (x ++ ·) (ih hrest)

theorem takeBytes_backlog (h : takeBytes n arrivals = some (bs, rest)) :
    backlog rest ≤ backlog arrivals := by
  induction arrivals generalizing n bs with
  | nil =>
    rcases takeBytes_cases h with ⟨-, -, rfl⟩ | ⟨x, more, harr, -⟩
    · exact le_rfl
    · cases harr
  | cons a arrivals ih =>
    rcases takeBytes_cases h with ⟨-, -, rfl⟩ | ⟨x, more, harr, -, -, ⟨-, -, rfl⟩ | ⟨-, bs', hrest, -⟩⟩
    · exact le_rfl
    · rw [harr]
      simp only [backlog, List.map_cons, List.sum_cons, List.length_drop]
      omega
    · cases harr
      have := ih hrest
      simp only [backlog, List.map_cons, List.sum_cons] at this ⊢
      omega

/-- Two reads take what one read of the sum takes. -/
theorem takeBytes_add (h : takeBytes (n + k) arrivals = some (bs, rest)) :
    ∃ rest', takeBytes n arrivals = some (bs.take n, rest') ∧
      takeBytes k rest' = some (bs.drop n, rest) := by
  induction arrivals generalizing n bs with
  | nil =>
    rcases takeBytes_cases h with ⟨hzero, rfl, rfl⟩ | ⟨x, more, harr, -⟩
    · obtain ⟨rfl, rfl⟩ : n = 0 ∧ k = 0 := by omega
      exact ⟨[], rfl, rfl⟩
    · cases harr
  | cons a arrivals ih =>
    rcases Nat.eq_zero_or_pos n with rfl | hn
    · rw [Nat.zero_add] at h
      exact ⟨_, takeBytes_zero _, h⟩
    rcases takeBytes_cases h with ⟨hzero, -, -⟩ |
      ⟨x, more, harr, -, hx, ⟨hlt, rfl, rfl⟩ | ⟨hle, bs', hrest, rfl⟩⟩
    · omega
    · cases harr
      refine ⟨.data (x.drop n) :: arrivals, ?_, ?_⟩
      · rw [takeBytes_data hx hn, if_pos (by omega), List.take_take, min_eq_left (by omega)]
      · rcases Nat.eq_zero_or_pos k with rfl | hk
        · have hnil : (x.take n).drop n = [] :=
            List.drop_eq_nil_of_le (by rw [List.length_take]; omega)
          rw [takeBytes_zero, Nat.add_zero, hnil]
        · rw [takeBytes_data (List.ne_nil_of_length_pos (by rw [List.length_drop]; omega)) hk,
            if_pos (by rw [List.length_drop]; omega), List.drop_drop, List.drop_take,
            Nat.add_sub_cancel_left]
    · cases harr
      by_cases hlt : n < x.length
      · refine ⟨.data (x.drop n) :: arrivals, ?_, ?_⟩
        · rw [takeBytes_data hx hn, if_pos hlt, List.take_append_of_le_length hlt.le]
        · rw [takeBytes_data (List.ne_nil_of_length_pos (by rw [List.length_drop]; omega)) (by omega),
            if_neg (by rw [List.length_drop]; omega), List.length_drop,
            show k - (x.length - n) = n + k - x.length by omega, hrest,
            List.drop_append_of_le_length hlt.le]
          rfl
      · have hsum : n - x.length + k = n + k - x.length := by omega
        rw [← hsum] at hrest
        obtain ⟨rest', h₁, h₂⟩ := ih hrest
        refine ⟨rest', ?_, ?_⟩
        · have hall : x.take n = x := List.take_of_length_le (by omega)
          rw [takeBytes_data hx hn, if_neg hlt, h₁, List.take_append, hall]
          rfl
        · have hnil : x.drop n = [] := List.drop_eq_nil_of_le (by omega)
          rw [h₂, List.drop_append, hnil, List.nil_append]

end Bytes

/-- A chunk: its head, and as many bytes of data as the head says. -/
structure Chunk where
  head : ChunkHead
  data : List UInt8
  size_eq : head.size = data.length
  ne_nil : data ≠ []

def crlf : List UInt8 := [byte '\r', byte '\n']

def Chunk.encode (c : Chunk) : List UInt8 := c.head.line ++ c.data ++ crlf

/-- What the head of a chunk does to the response. -/
def ChunkHead.apply (c : ChunkHead) (r : HttpResponse) : HttpResponse :=
  (c.exts.foldl (fun r x => x.store r) r).setClose false

section Contract

variable {P : Type}

/-- The contract of `readFixSize`, for a call that has room for the bytes: it stores all of them, or
its result is not positive. -/
def Delivers (fix : ℕ → ℕ → Streaming P ℤ) : Prop :=
  ∀ (u : SocketStream P) (old n : ℕ), u.connected = true → 0 < n → old + n ≤ u.body.length →
    match takeBytes n u.arrivals with
    | some (bs, rest) => ∃ r > 0,
        fix old n u = .done r ((u.putArrivals rest).putBody (splice u.body old bs))
    | none => ∃ r ≤ 0, ∃ rest b, fix old n u = .done r ((u.putArrivals rest).putBody b)

/-- A `readFixSize` that keeps the contract. -/
def deliver (old n : ℕ) : Streaming P ℤ := do
  let s ← Command.state
  match takeBytes n s.arrivals with
  | none => pure 0
  | some (bs, rest) => do
    Command.modify fun s => (s.putArrivals rest).putBody (splice s.body old bs)
    pure n

theorem deliver_delivers : Delivers (deliver (P := P)) := by
  intro u old n _ hn _
  cases htake : takeBytes n u.arrivals with
  | none =>
    refine ⟨0, le_rfl, u.arrivals, u.body, ?_⟩
    rw [deliver, Command.state_bind_apply, htake]
    rfl
  | some r =>
    refine ⟨n, Int.natCast_pos.mpr hn, ?_⟩
    rw [deliver, Command.state_bind_apply, htake]
    rfl

/-- A `readFixSize` that delivers what there is. -/
def Exact (fix : ℕ → ℕ → Streaming P ℤ) : Prop :=
  ∀ (u : SocketStream P) (old n : ℕ) (bs : List UInt8) (rest : List Arrival),
    u.connected = true → 0 < n → n < 2 ^ 31 → takeBytes n u.arrivals = some (bs, rest) →
    old + n ≤ u.body.length →
    ∃ r > 0, fix old n u = .done r ((u.putArrivals rest).putBody (splice u.body old bs))

theorem Delivers.exact {fix : ℕ → ℕ → Streaming P ℤ} (h : Delivers fix) : Exact fix := by
  intro u old n bs rest hcon hn _ htake hroom
  have hcall := h u old n hcon hn hroom
  rw [htake] at hcall
  exact hcall

end Contract

section Data

variable {fix : ℕ → ℕ → ClientRecv ℤ} {u : Connection} {rest : List Arrival}

theorem readArray_exact (hfix : Exact fix) (hcon : u.connected = true) (bs : List UInt8)
    (hpos : 0 < bs.length) (hlt : bs.length < 2 ^ 31)
    (htake : takeBytes bs.length u.arrivals = some (bs, rest)) :
    readArray fix bs.length u = .done (some bs) ((u.putArrivals rest).putBody bs) := by
  have hread : ∃ r > 0, fix 0 bs.length (u.putBody (List.replicate bs.length 0)) = .done r
      ((u.putArrivals rest).putBody bs) := by
    obtain ⟨r, hr, hrun⟩ := hfix (u.putBody (List.replicate bs.length 0)) 0 _ _ _ hcon hpos hlt
      htake (by rw [Nat.zero_add]; exact List.length_replicate.ge)
    have hsplice : splice (List.replicate bs.length 0) 0 bs = bs := by
      rw [splice_zero, List.drop_eq_nil_of_le List.length_replicate.le, List.append_nil]
    refine ⟨r, hr, hrun.trans ?_⟩
    change Outcome.done _ ((u.putArrivals rest).putBody (splice (List.replicate bs.length 0) 0 bs)) = _
    rw [hsplice]
  obtain ⟨r, hr, hread⟩ := hread
  rw [readArray, Command.modify_bind_apply, Command.bind_done hread, Command.state_bind_apply,
    Command.ite_apply, if_neg (by omega)]
  rfl

theorem bufferedData_front {front back : List UInt8} (hlt : (front ++ back).length < 2 ^ 31)
    (hbuf : u.buffer.take front.length = front) :
    bufferedData ((front ++ back).length : ℤ) (front.length : ℤ) u =
      .done (front, (back.length : ℤ), 0) u := by
  rw [List.length_append] at hlt ⊢
  rw [bufferedData, Command.ite_apply]
  by_cases hfront : front = []
  · rw [hfront, if_neg (by simp), List.length_nil, Nat.zero_add]
    rfl
  · have hpos := List.length_pos_iff.mpr hfront
    have hle : front.length ≤ u.buffer.length := by
      have := congrArg List.length hbuf
      rw [List.length_take] at this
      omega
    have hsize : toSize ((front.length + back.length : ℕ) : ℤ) = front.length + back.length :=
      toSize_of_nonneg (by omega) (by omega)
    have hunparsed : toSize (front.length : ℤ) = front.length := toSize_of_nonneg (by omega) (by omega)
    have hshift : shiftBuffer front.length front.length u = .done front u := by
      rw [shiftBuffer, Command.state_bind_apply, Command.ite_apply, if_neg (by omega),
        if_neg (lt_irrefl _), Command.modify_bind_apply, hbuf]
      rfl
    have hneed : toInt64 ((front.length + back.length + 2 ^ 64 - front.length) % 2 ^ 64) =
        back.length := by
      rw [show front.length + back.length + 2 ^ 64 - front.length = back.length + 2 ^ 64 by omega,
        Nat.add_mod_right, Nat.mod_eq_of_lt (by omega), toInt64_of_lt (by omega)]
    have hleft : toInt ((front.length + 2 ^ 64 - front.length) % 2 ^ 64) = 0 := by
      rw [Nat.add_sub_cancel_left, Nat.mod_self]
      rfl
    rw [if_pos (by omega), hsize, hunparsed, min_eq_left (by omega), Command.bind_done hshift, hneed, hleft]
    rfl

/-- The data of a chunk, `front` of it in the buffer and `back` on its way. -/
theorem recvChunk_exact (hfix : Exact fix) (hcon : u.connected = true) (front back : List UInt8)
    (hlt : (front ++ back).length < 2 ^ 31) (hbuf : u.buffer.take front.length = front)
    (htake : takeBytes (back ++ crlf).length u.arrivals = some (back ++ crlf, rest)) :
    ∃ b, recvChunk fix ((front ++ back).length : ℤ) (front.length : ℤ) u =
      .done (some (front ++ back, 0)) ((u.putArrivals rest).putBody b) := by
  rw [List.length_append] at htake
  obtain ⟨rest', hback, hcrlf⟩ := takeBytes_add htake
  rw [List.take_left] at hback
  rw [List.drop_left] at hcrlf
  have hmissing : ∃ b, missingData fix (back.length : ℤ) u =
      .done (some back) ((u.putArrivals rest').putBody b) := by
    rw [missingData, Command.ite_apply]
    by_cases hnil : back = []
    · rw [hnil, List.length_nil, takeBytes_zero, Option.some.injEq, Prod.mk.injEq] at hback
      rw [hnil, if_neg (by simp), ← hback.2]
      exact ⟨u.body, rfl⟩
    · have hpos := List.length_pos_iff.mpr hnil
      rw [List.length_append] at hlt
      rw [if_pos (by omega), Int.toNat_natCast]
      exact ⟨_, readArray_exact hfix hcon back hpos (by omega) hback⟩
  obtain ⟨b, hmissing⟩ := hmissing
  have hline : readArray fix 2 ((u.putArrivals rest').putBody b) = .done (some crlf) _ :=
    readArray_exact (u := (u.putArrivals rest').putBody b) hfix hcon crlf (by decide) (by decide) hcrlf
  refine ⟨crlf, ?_⟩
  rw [recvChunk, Command.bind_done (bufferedData_front hlt hbuf)]
  dsimp only
  rw [Command.bind_done hmissing]
  dsimp only
  rw [Command.bind_done hline]
  rfl

end Data

section Loop

/-- Every read that the loop makes for the head of a chunk completes the head, with `y` in the
buffer before the first one, and ends within the data of the chunk; the last one brings the last
chunk. -/
def Separated (size : ℕ) (last : ChunkHead) (tail : List Arrival) :
    List UInt8 → List Chunk → List Arrival → Prop
  | y, [], arrivals => ∃ x, x ≠ [] ∧ arrivals = .data x :: tail ∧ y ++ x = last.line ++ crlf ∧
      (y ++ x).length ≤ size
  | y, c :: cs, arrivals => ∃ x front back more rest, x ≠ [] ∧ arrivals = .data x :: more ∧
      y ++ x = c.head.line ++ front ∧ (y ++ x).length ≤ size ∧ c.data = front ++ back ∧
      takeBytes (back ++ crlf).length more = some (back ++ crlf, rest) ∧
      Separated size last tail [] cs rest

variable {size : ℕ} {last : ChunkHead} {tail : List Arrival}

theorem pending_data (x : List UInt8) (arrivals : List Arrival) :
    pending (.data x :: arrivals) = x ++ pending arrivals := rfl

theorem Separated.pending {y : List UInt8} {chunks : List Chunk} {arrivals : List Arrival}
    (h : Separated size last tail y chunks arrivals) :
    y ++ pending arrivals =
      chunks.flatMap Chunk.encode ++ (last.line ++ crlf) ++ pending tail := by
  induction chunks generalizing y arrivals with
  | nil =>
    obtain ⟨x, -, rfl, hline, -⟩ := h
    rw [pending_data, ← List.append_assoc, hline]
    rfl
  | cons c cs ih =>
    obtain ⟨x, front, back, more, rest, -, rfl, hline, -, hdata, htake, hrest⟩ := h
    have hih := ih hrest
    rw [List.nil_append] at hih
    rw [pending_data, ← List.append_assoc, hline, takeBytes_pending htake, hih, List.flatMap_cons,
      Chunk.encode, hdata]
    simp only [List.append_assoc]

theorem Separated.length_lt {y : List UInt8} {chunks : List Chunk} {arrivals : List Arrival}
    (h : Separated size last tail y chunks arrivals) : chunks.length < backlog arrivals := by
  induction chunks generalizing y arrivals with
  | nil =>
    obtain ⟨x, -, rfl, -⟩ := h
    simp [backlog]
  | cons c cs ih =>
    obtain ⟨x, front, back, more, rest, -, rfl, -, -, -, htake, hrest⟩ := h
    have hlt := ih hrest
    have hle := takeBytes_backlog htake
    rw [List.length_cons]
    simp only [backlog, List.map_cons, List.sum_cons] at hlt hle ⊢
    omega

variable {env : ClientEnv} {fix : ℕ → ℕ → ClientRecv ℤ} {u : Connection} {rest : List Arrival}
  {x y front : List UInt8}

theorem recvParsed_chunkHead (c : ChunkHead) (hsize : env.bufferSize < 2 ^ 31)
    (hcon : u.connected = true) (harr : u.arrivals = .data x :: rest) (hx : x ≠ [])
    (htake : u.buffer.take y.length = y) (hbuf : u.buffer.length = env.bufferSize + 1)
    (hfit : (y ++ x).length ≤ env.bufferSize) (hline : y ++ x = c.line ++ front)
    (herr : u.parser.error = 0) (fuel : ℕ) :
    ∃ w z, recvParsed env true (fuel + 1) (y.length : ℤ) u =
        .done (some (front.length : ℤ)) (u.advance rest w (front ++ z)) ∧
      ChunkRead c u.parser w ∧ (front ++ z).length = env.bufferSize + 1 := by
  have hlen : (y ++ x).length = c.line.length + front.length := by rw [hline, List.length_append]
  have hpos : 0 < c.line.length := by
    rw [ChunkHead.line, List.length_append]
    have := List.length_pos_iff.mpr c.ne_nil
    omega
  obtain ⟨w, hexec, hw⟩ : ∃ w, HttpResponseParser.execute true
      (c.line ++ front ++ 0 :: u.buffer.drop ((y ++ x).length + 1)) (c.line ++ front).length
        u.parser = .done (c.line.length, _) w ∧ ChunkRead c u.parser w :=
    execute_chunkHead c (by rw [← hline]; omega) _
  rw [memmove_append, ← hline] at hexec
  have hround := recvParsed_round hcon harr hx htake hbuf hsize hfit hexec hpos (by omega)
    (hw.finished herr).1 (hw.finished herr).2 fuel
  rw [hlen, Nat.add_sub_cancel_left] at hround
  refine ⟨w, _, hround, hw, ?_⟩
  rw [List.length_append, List.length_drop, List.length_append, List.length_cons, List.length_drop]
  omega

/-- The response after the heads of some chunks. -/
def applyAll (chunks : List Chunk) (r : HttpResponse) : HttpResponse :=
  chunks.foldl (fun r c => c.head.apply r) r

/-- The loop over the chunks: the data is put together, the last chunk ends it. -/
theorem recvChunks_exact (hfix : Exact fix) (hsize : env.bufferSize < 2 ^ 31) (hlast : last.size = 0)
    {chunks : List Chunk} (hsmall : ∀ c ∈ chunks, c.data.length < 2 ^ 31)
    (hsep : Separated env.bufferSize last tail y chunks u.arrivals) (hcon : u.connected = true)
    (htake : u.buffer.take y.length = y) (hbuf : u.buffer.length = env.bufferSize + 1)
    (herr : u.parser.error = 0) {fuel : ℕ} (hfuel : chunks.length < fuel) (body : List UInt8) :
    ∃ u', recvChunks env fix fuel body (y.length : ℤ) u =
        .done (some ((last.apply (applyAll chunks u.parser.data)).setBody
          (body ++ chunks.flatMap Chunk.data))) u' ∧ u'.connected = true ∧ u'.arrivals = tail := by
  induction chunks generalizing y u fuel body with
  | nil =>
    obtain ⟨fuel, rfl⟩ : ∃ k, fuel = k + 1 := ⟨fuel - 1, by rw [List.length_nil] at hfuel; omega⟩
    obtain ⟨x, hx, harr, hline, hfit⟩ := hsep
    obtain ⟨w, z, hparsed, hw, hlen⟩ := recvParsed_chunkHead last hsize hcon harr hx htake hbuf hfit
      hline herr (backlog u.arrivals)
    have hzero : w.parser.contentLen = 0 := by
      rw [hw.contentLen, hlast]
      exact toInt_size (by decide)
    have hshift : shiftBuffer (toSize ((crlf.length : ℕ) : ℤ)) 2 (u.advance tail w (crlf ++ z)) =
        .done crlf (u.advance tail w (crlf ++ z)) := by
      have hlong : ¬(crlf ++ z).length < 2 := by
        rw [List.length_append]
        exact Nat.not_lt.mpr (Nat.le_add_right 2 z.length)
      rw [shiftBuffer, Command.state_bind_apply, Command.ite_apply, if_neg (by exact hlong)]
      rfl
    rw [recvChunks, Command.state_bind_apply, Command.bind_done hparsed]
    dsimp only
    rw [Command.state_bind_apply, Command.ite_apply, if_pos (by exact hzero), Command.ite_apply,
      if_pos (by decide), Command.bind_done hshift]
    refine ⟨u.advance tail w (crlf ++ z), ?_, hcon, rfl⟩
    rw [List.flatMap_nil, List.append_nil]
    change Outcome.done (some (w.data.setBody body)) _ = _
    rw [hw.data]
    rfl
  | cons c cs ih =>
    rw [List.length_cons] at hfuel
    rw [List.forall_mem_cons] at hsmall
    obtain ⟨fuel, rfl⟩ : ∃ k, fuel = k + 1 := ⟨fuel - 1, by omega⟩
    obtain ⟨x, front, back, more, rest, hx, harr, hline, hfit, hdata, hback, hrest⟩ := hsep
    obtain ⟨w, z, hparsed, hw, hlen⟩ := recvParsed_chunkHead c.head hsize hcon harr hx htake hbuf
      hfit hline herr (backlog u.arrivals)
    have hpos := List.length_pos_iff.mpr c.ne_nil
    have hcontent : w.parser.contentLen = ((front ++ back).length : ℤ) := by
      rw [hw.contentLen, c.size_eq, toInt_size hsmall.1, hdata]
    have hgoes : w.parser.chunksDone = false := by
      rw [hw.chunksDone, hcontent, ← hdata]
      exact decide_eq_false (by omega)
    obtain ⟨b, hchunk⟩ := recvChunk_exact (u := u.advance more w (front ++ z)) hfix hcon front back
      (hdata ▸ hsmall.1) (List.take_left ..) hback
    have hless : cs.length < fuel := by omega
    obtain ⟨u', hloop, hdone⟩ := ih (y := [])
      (u := ((u.advance more w (front ++ z)).putArrivals rest).putBody b) hsmall.2 hrest hcon rfl hlen
      (hw.error.trans herr) hless (body ++ c.data)
    refine ⟨u', ?_, hdone⟩
    rw [recvChunks, Command.state_bind_apply, Command.bind_done hparsed]
    dsimp only
    rw [Command.state_bind_apply, Command.ite_apply,
      if_neg (by change w.parser.contentLen ≠ 0; rw [hcontent, ← hdata]; omega)]
    change ((recvChunk fix w.parser.contentLen _ >>= _ : ClientRecv _) _) = _
    rw [hcontent, Command.bind_done hchunk, Command.state_bind_apply]
    dsimp only
    rw [Command.ite_apply, if_neg (by change w.parser.chunksDone ≠ true; rw [hgoes]; decide), ← hdata]
    rw [List.flatMap_cons, ← List.append_assoc]
    have hfold : applyAll (c :: cs) u.parser.data = applyAll cs w.data := by
      rw [hw.data]
      rfl
    rw [hfold]
    exact hloop

end Loop

section Response

variable {env : ClientEnv} {fix : ℕ → ℕ → ClientRecv ℤ} {head y : List UInt8} {v : HttpResponseParser}
  {chunks : List Chunk} {last : ChunkHead} {arrivals tail : List Arrival} {u : Connection}

theorem responseHead_error (h : responseHead head = some v) : v.error = 0 := by
  obtain ⟨s, v₀, -, -, herror, rfl⟩ := responseHead_eq h
  exact herror

theorem recvResponseVia_separated (hfix : Exact fix) (hsize : env.bufferSize < 2 ^ 31)
    (hhead : responseHead head = some v) (hchunked : v.parser.chunked = true)
    (hlast : last.size = 0) (hsmall : ∀ c ∈ chunks, c.data.length < 2 ^ 31)
    (hsep : Separated env.bufferSize last tail y chunks arrivals) (hcon : u.connected = true)
    (harr : u.arrivals = .data (head ++ y) :: arrivals)
    (hfit : (head ++ y).length ≤ env.bufferSize) (junk : ℕ → UInt8) :
    ∃ u', recvResponseVia env fix junk u = .done (some ((last.apply (applyAll chunks v.data)).setBody
        (chunks.flatMap Chunk.data))) u' ∧ u'.connected = true ∧ u'.arrivals = tail := by
  obtain ⟨w, hround, hcon', rfl, rfl, hbuf, hlen⟩ :=
    recvResponseVia_head fix hsize hhead hcon harr hfit junk
  have hfuel : chunks.length < backlog w.arrivals + 1 := hsep.length_lt.trans (Nat.lt_succ_self _)
  obtain ⟨u', hloop, hdone⟩ := recvChunks_exact hfix hsize hlast hsmall hsep hcon' hbuf hlen
    (responseHead_error hhead) hfuel []
  refine ⟨u', ?_, hdone⟩
  rw [hround, afterResponseHead, Command.state_bind_apply, Command.ite_apply, if_pos hchunked]
  exact hloop

/-- The last chunk. -/
def ChunkHead.zero : ChunkHead where
  digits := bytes "0"
  ne_nil := by decide
  hex := by decide +kernel
  exts := []

/-- The chunk `5 CRLF hello CRLF`. -/
def Chunk.hello : Chunk where
  head := ⟨bytes "5", by decide, by decide +kernel, []⟩
  data := bytes "hello"
  size_eq := by decide
  ne_nil := by decide

section Fields

/-- The extensions of a chunk head, as headers. -/
def ChunkHead.fields (c : ChunkHead) : List (List UInt8 × List UInt8) :=
  c.exts.map fun x => (x.name.text, x.text)

def extensionFields (chunks : List Chunk) (last : ChunkHead) : List (List UInt8 × List UInt8) :=
  chunks.flatMap (fun c => c.head.fields) ++ last.fields

/-- A response without its body. -/
def HttpResponse.fields (r : HttpResponse) : ℤ × List UInt8 × UInt8 × MapType × Bool :=
  (r.status, r.reason, r.version, r.headers, r.close)

theorem store_fields (xs : List Extension) (r : HttpResponse) :
    (xs.foldl (fun r x => x.store r) r).fields =
      (r.status, r.reason, r.version,
        r.headers.setAll (xs.map fun x => (x.name.text, x.text)), r.close) := by
  induction xs generalizing r with
  | nil => rfl
  | cons x xs ih => exact ih (x.store r)

theorem apply_fields (c : ChunkHead) (r : HttpResponse) :
    (c.apply r).fields = (r.status, r.reason, r.version, r.headers.setAll c.fields, false) := by
  have h := store_fields c.exts r
  simp only [HttpResponse.fields, Prod.mk.injEq] at h
  obtain ⟨hstatus, hreason, hversion, hheaders, -⟩ := h
  rw [HttpResponse.fields, ChunkHead.apply, HttpResponse.setClose, hstatus, hreason, hversion,
    hheaders]
  rfl

theorem setAll_append (m : MapType) (l l' : List (List UInt8 × List UInt8)) :
    m.setAll (l ++ l') = (m.setAll l).setAll l' := List.foldl_append

/-- The heads of the chunks store their extensions and reset the close flag. -/
theorem applyAll_fields (chunks : List Chunk) (last : ChunkHead) (r : HttpResponse) :
    (last.apply (applyAll chunks r)).fields =
      (r.status, r.reason, r.version, r.headers.setAll (extensionFields chunks last), false) := by
  induction chunks generalizing r with
  | nil => exact apply_fields last r
  | cons c cs ih =>
    have h := apply_fields c.head r
    simp only [HttpResponse.fields, Prod.mk.injEq] at h
    obtain ⟨hstatus, hreason, hversion, hheaders, -⟩ := h
    have hrest := ih (c.head.apply r)
    rw [hstatus, hreason, hversion, hheaders, ← setAll_append] at hrest
    rw [extensionFields, List.flatMap_cons, List.append_assoc]
    exact hrest

end Fields

end Response
end Sylar.Http
