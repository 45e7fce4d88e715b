import Sylar.Http.Chunked

/-! # Bodies that are framed by their length

A body is taken from what the head left in the buffer and from `readFixSize`. `recvResponse` keeps
the length in an `int` on the way: it takes as many bytes as the length modulo `2 ^ 32` says, and
the string that it fills has the full length.
-/
namespace Sylar.Http
open Memory
open Sylar.Stream (toInt toSize toSize_of_nonneg)

/-- The next `n` bytes of a stream of which `y` is in the buffer; `none` if it ends early. -/
def following (n : ℕ) (y : List UInt8) (arrivals : List Arrival) : Option (List UInt8) :=
  if n ≤ y.length then some (y.take n) else (takeBytes (n - y.length) arrivals).map (y ++ ·.1)

theorem following_length {n : ℕ} {y bs : List UInt8} {arrivals : List Arrival}
    (h : following n y arrivals = some bs) : bs.length = n := by
  rw [following] at h
  split_ifs at h with hn
  · cases h
    rw [List.length_take, min_eq_left hn]
  · rcases Option.map_eq_some_iff.mp h with ⟨r, hr, rfl⟩
    rw [List.length_append, takeBytes_length hr]
    omega

section Contract

variable {P : Type} {fix : ℕ → ℕ → Streaming P ℤ} {u : SocketStream P} {y : List UInt8} {n : ℕ}

/-- A call for what is missing behind the bytes of the buffer: the place behind it stays. -/
theorem Delivers.fill (hfix : Delivers fix) (pad : ℕ) (hcon : u.connected = true)
    (hn : y.length < n) (hbody : u.body = y ++ List.replicate (n - y.length + pad) 0) :
    match following n y u.arrivals with
    | some bs => ∃ rest, (fix y.length (n - y.length) >>= fun r => pure (decide (0 < r))) u =
        .done true ((u.putArrivals rest).putBody (bs ++ List.replicate pad 0))
    | none => ∃ rest b, (fix y.length (n - y.length) >>= fun r => pure (decide (0 < r))) u =
        .done false ((u.putArrivals rest).putBody b) := by
  have hroom : y.length + (n - y.length) ≤ u.body.length := by
    rw [hbody, List.length_append, List.length_replicate]
    omega
  have hcall := hfix u y.length (n - y.length) hcon (by omega) hroom
  rw [following, if_neg (by omega)]
  cases htake : takeBytes (n - y.length) u.arrivals with
  | none =>
    rw [htake] at hcall
    rcases hcall with ⟨r, hr, rest, b, hrun⟩
    refine ⟨rest, b, ?_⟩
    rw [Command.bind_done hrun, decide_eq_false (not_lt.mpr hr)]
    rfl
  | some p =>
    rw [htake] at hcall
    rcases hcall with ⟨r, hr, hrun⟩
    have hsplice : splice u.body y.length p.1 = y ++ p.1 ++ List.replicate pad 0 := by
      rw [hbody, splice_append_right _ _ le_rfl, Nat.sub_self, splice_zero, List.drop_replicate,
        takeBytes_length htake, Nat.add_sub_cancel_left, List.append_assoc]
    refine ⟨p.2, ?_⟩
    rw [Command.bind_done hrun, decide_eq_true hr, ← hsplice]
    rfl

end Contract

section Responses

variable {env : ClientEnv} {fix : ℕ → ℕ → ClientRecv ℤ} {u : Connection} {y : List UInt8} {size m : ℕ}

/-- What becomes of a body: `m` bytes are taken, and the string has the length `size`. -/
def Framed (size m : ℕ) (y : List UInt8) (u : Connection)
    (out : Outcome Exception Connection (Option HttpResponse)) : Prop :=
  match following m y u.arrivals with
  | some bs => ∃ u', out =
      .done (some (u.parser.data.setBody (bs ++ List.replicate (size - m) 0))) u'
  | none => ∃ u', out = .done none u' ∧ u'.connected = false

theorem takeFramed_framed (hfix : Delivers fix) (hcon : u.connected = true)
    (hbuf : u.buffer.take y.length = y) (hm : m < 2 ^ 31) (hle : m ≤ size) :
    Framed size m y u
      (takeFramed fix size (min (m : ℤ) (y.length : ℤ)) (m - min (m : ℤ) (y.length : ℤ)) u) := by
  have hlen := (buffered hbuf le_rfl).1
  rw [Framed]
  rcases Nat.lt_or_ge y.length m with hlt | hge
  · have hpad : m - y.length + (size - m) = size - y.length := by omega
    have hfill := hfix.fill (u := u.putBody (y ++ List.replicate (size - y.length) 0)) (size - m)
      hcon hlt (by rw [hpad]; rfl)
    have hneed : toSize ((m : ℤ) - y.length) = m - y.length := by
      rw [toSize_of_nonneg (by omega) (by omega)]
      omega
    rw [min_eq_right (by omega), takeFramed, Command.state_bind_apply, Command.ite_apply,
      Int.toNat_natCast, if_neg (by omega), hbuf, Command.modify_bind_apply, hneed, fillFramed,
      if_pos (by omega)]
    change match following m y u.arrivals with | some _ => _ | none => _ at hfill
    cases hnext : following m y u.arrivals with
    | none =>
      rw [hnext] at hfill
      rcases hfill with ⟨rest, b, hrun⟩
      rw [Command.bind_done hrun]
      exact ⟨_, rfl, rfl⟩
    | some bs =>
      rw [hnext] at hfill
      rcases hfill with ⟨rest, hrun⟩
      rw [Command.bind_done hrun]
      exact ⟨_, rfl⟩
  · rw [following, if_pos hge, min_eq_left (by omega), Int.sub_self,
      takeFramed_buffered fix hbuf hge hle]
    exact ⟨_, rfl⟩

theorem recvFramed_framed (hfix : Delivers fix) (hcon : u.connected = true)
    (hbuf : u.buffer.take y.length = y) (hsize : u.parser.getContentLength env = size)
    (hmax : size ≤ maxSize) (hm : size % 2 ^ 32 < 2 ^ 31) :
    Framed size (size % 2 ^ 32) y u (recvFramed env fix (y.length : ℤ) u) := by
  rcases Nat.eq_zero_or_pos size with rfl | hpos
  · rw [recvFramed, Command.state_bind_apply, hsize, Command.ite_apply, if_neg (by decide),
      Command.ite_apply, if_pos (by decide), Framed, Nat.zero_mod, following,
      if_pos (Nat.zero_le _)]
    exact ⟨u, rfl⟩
  · rw [recvFramed_eq fix hsize hpos hmax hm]
    exact takeFramed_framed hfix hcon hbuf hm (Nat.mod_le _ _)

/-- A length that is negative as an `int`. -/
theorem recvFramed_negative (hsize : u.parser.getContentLength env = size) (hmax : size ≤ maxSize)
    (hm : 2 ^ 31 ≤ size % 2 ^ 32) :
    recvFramed env fix (y.length : ℤ) u = .fault .outOfBounds := by
  have hlt : size < 2 ^ 63 := hmax.trans_lt (by decide)
  have hpos : 0 < size := by omega
  have hneg : toInt (toSize (size : ℤ)) < 0 := by
    rw [toSize_of_nonneg (by omega) (by omega), Int.toNat_natCast, toInt, if_neg (by omega)]
    omega
  rw [recvFramed, Command.state_bind_apply, hsize, toInt64_of_lt hlt, Command.ite_apply,
    if_pos (by omega), Command.ite_apply, if_neg (by omega), takeFramed, Command.state_bind_apply,
    Command.ite_apply, if_pos (.inl (min_lt_of_left_lt hneg))]
  rfl

/-- The body of a response is the `size` bytes behind its head, or the connection is closed. -/
def RightBody (size : ℕ) (y : List UInt8) (arrivals : List Arrival) :
    Outcome Exception Connection (Option HttpResponse) → Prop
  | .done (some r) _ => following size y arrivals = some r.body
  | .done none u' => u'.connected = false
  | _ => False

theorem Framed.rightBody_iff {out : Outcome Exception Connection (Option HttpResponse)}
    (h : Framed size m y u out) : RightBody size y u.arrivals out ↔
      ∀ bs, following m y u.arrivals = some bs →
        following size y u.arrivals = some (bs ++ List.replicate (size - m) 0) := by
  rw [Framed] at h
  cases hnext : following m y u.arrivals with
  | none =>
    rw [hnext] at h
    rcases h with ⟨u', rfl, hclosed⟩
    exact ⟨fun _ _ => nofun, fun _ => hclosed⟩
  | some bs =>
    rw [hnext] at h
    rcases h with ⟨u', rfl⟩
    constructor
    · rintro hright _ ⟨⟩
      exact hright
    · intro hzero
      exact hzero bs rfl

end Responses

end Sylar.Http
