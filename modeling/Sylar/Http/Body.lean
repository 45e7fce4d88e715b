import Sylar.Http.Segments

/-! # The end of a call, and the body

Every `recv` that does not find the end of the stream uses up some of the backlog, so a call of
`recvRequest` ends. The body is read from what the head left in the buffer and from the pieces
that follow it; what the parser and the buffer hold otherwise does not matter.
-/
namespace Sylar.Http
open Memory Ragel
open Sylar.Stream (toInt toSize toInt_eq_self_iff toSize_of_nonneg fixSizeLoop fixSizeLoop_ends
  fixSizeLoop_agree fixSizeLoop_stop fixSizeLoop_advance)

section Ends

variable {u : Session} {n : ℕ}

theorem receive_progress (u : Session) (n : ℕ) :
    ∃ r bs rest, receive n u = .done (r, bs) (u.putArrivals rest) ∧
      (0 < r → u.connected = true) ∧
      (u.connected = true → r ≠ 0 → backlog rest < backlog u.arrivals) := by
  rw [receive, Command.state_bind_apply, Command.ite_apply]
  by_cases hcon : u.connected = true
  · rw [if_pos hcon]
    cases harr : u.arrivals with
    | nil =>
      refine ⟨0, [], u.arrivals, rfl, fun _ => hcon, fun _ h => absurd rfl h⟩
    | cons a rest =>
      cases a with
      | failure =>
        refine ⟨-1, [], rest, rfl, fun _ => hcon, fun _ _ => ?_⟩
        simp [backlog]
      | data bs =>
        refine ⟨toInt (bs.take n).length, bs.take n, _, rfl, fun _ => hcon, fun _ hr => ?_⟩
        have hpos : 0 < (bs.take n).length := by
          apply Nat.pos_of_ne_zero
          intro h
          rw [h] at hr
          exact hr rfl
        rw [List.length_take] at hpos
        split_ifs
        · simp [backlog]
        · simp only [backlog, List.map_cons, List.sum_cons, List.length_drop]
          omega
  · rw [if_neg hcon]
    exact ⟨-1, [], u.arrivals, rfl, fun h => absurd h (by decide), fun h => absurd h hcon⟩

theorem readBuffer_progress (u : Session) (start n : ℕ) :
    readBuffer start n u = .fault .outOfBounds ∨
      ∃ r bs rest, readBuffer start n u = .done r ((u.putArrivals rest).putBuffer bs) ∧
        (0 < r → u.connected = true) ∧
        (u.connected = true → r ≠ 0 → backlog rest < backlog u.arrivals) := by
  obtain ⟨r, bs, rest, hrun, hprog⟩ := receive_progress u n
  rw [readBuffer, Command.bind_done hrun]
  dsimp only
  rw [Command.state_bind_apply, Command.ite_apply]
  split_ifs
  · exact .inr ⟨r, _, rest, rfl, hprog⟩
  · exact .inl rfl

theorem readBody_progress (u : Session) (old n offset : ℕ) :
    readBody old n offset u = .fault .outOfBounds ∨
      ∃ r bs rest, readBody old n offset u = .done r ((u.putArrivals rest).putBody bs) ∧
        (u.connected = true → r ≠ 0 → backlog rest < backlog u.arrivals) := by
  obtain ⟨r, bs, rest, hrun, -, hprog⟩ := receive_progress u n
  rw [readBody, Command.bind_done hrun]
  dsimp only
  rw [Command.state_bind_apply, Command.ite_apply]
  split_ifs
  · exact .inr ⟨r, _, rest, rfl, hprog⟩
  · exact .inl rfl

theorem stdString_spares {σ : Type} (memory : List UInt8) (start length : ℕ) :
    Command.Spares .fuelExhausted (stdString memory start length : Command Exception σ _) :=
  .ite (.raise _) (.ite (.pure _) (.abort (by decide)))

theorem action_spares (memory : List UInt8) (a : Action) (p : ℕ) :
    Command.Spares .fuelExhausted (action memory a p) := by
  apply Command.Spares.state.bind
  intro v
  cases a with
  | writeValue =>
    apply Command.Spares.ite (.pure _)
    apply (stdString_spares _ _ _).bind
    intro key
    exact (stdString_spares _ _ _).bind fun _ => .modify _
  | requestMethod =>
    dsimp only [onRequestMethod]
    rcases charsToHttpMethod _ with _ | _ | m
    · exact .abort (by decide)
    · exact .modify _
    · exact .modify _
  | fragment => exact (stdString_spares _ _ _).bind fun _ => .modify _
  | requestPath => exact (stdString_spares _ _ _).bind fun _ => .modify _
  | queryString =>
    dsimp only
    cases v.parser.queryStart with
    | none => exact .abort (by decide)
    | some q => exact (stdString_spares _ _ _).bind fun _ => .modify _
  | httpVersion =>
    dsimp only
    rw [onRequestVersion_eq]
    rcases readVersion _ _ with _ | _ | version
    · exact .abort (by decide)
    · exact .modify _
    · exact .modify _
  | done => exact .ite (.modify _) ((Command.Spares.modify _).bind fun _ => .modify _)
  | requestUri => exact .pure _
  | _ => exact .modify _

theorem assert_spares {σ : Type} (p : Prop) [Decidable p] :
    Command.Spares .fuelExhausted (assert p : Command Exception σ Unit) :=
  .ite (.pure _) (.raise _)

theorem httpParserExecute_spares (memory : List UInt8) (len off : ℕ) :
    Command.Spares .fuelExhausted (httpParserExecute memory len off) := by
  have hexec : Command.Spares .fuelExhausted (writeExec memory len off) := by
    apply Command.Spares.state.bind
    intro v
    cases v.parser.cs with
    | none => exact .pure _
    | some s => exact exec_spares (action_spares memory) _ _ _
  have hinside : Command.Spares .fuelExhausted (assertInside len) :=
    Command.Spares.state.bind fun _ => (assert_spares _).bind fun _ => (assert_spares _).bind
      fun _ => (assert_spares _).bind fun _ => (assert_spares _).bind fun _ => assert_spares _
  exact .ite (.pure _) ((Command.Spares.modify _).bind fun _ => (assert_spares _).bind fun _ =>
    (assert_spares _).bind fun _ => hexec.bind fun _ => (assert_spares _).bind fun _ =>
      (Command.Spares.modify _).bind fun _ => hinside.bind fun _ =>
        Command.Spares.state.bind fun _ => .pure _)

theorem executeBuffer_spares (len : ℕ) : Command.Spares .fuelExhausted (executeBuffer len) := by
  apply Command.Spares.state.bind
  intro s
  have hexec : Command.Spares .fuelExhausted (HttpRequestParser.execute s.buffer len) :=
    (httpParserExecute_spares _ _ _).bind fun _ => .pure _
  exact hexec.focus.bind fun _ => (Command.Spares.modify _).bind fun _ => .pure _

theorem executeBuffer_frame {u u' : Session} {len n : ℕ} (h : executeBuffer len u = .done n u') :
    u'.arrivals = u.arrivals ∧ u'.connected = u.connected := by
  rw [executeBuffer, runParser, Command.state_bind_apply] at h
  obtain ⟨r, s₁, hfocus, h⟩ := Command.bind_eq_done.mp h
  obtain ⟨v, -, rfl⟩ := Command.focus_eq_done.mp hfocus
  cases h
  exact ⟨rfl, rfl⟩

theorem giveUp_spares {α : Type} : Command.Spares .fuelExhausted (giveUp : Recv (Option α)) :=
  (Command.Spares.modify _).bind fun _ => .pure _

variable (env : Env)

/-- The loop over the head is over, and if it read one the session is still connected. -/
def Over : Outcome Exception Session (Option ℤ) → Prop
  | .done (some _) u => u.connected = true
  | .done none _ => True
  | .raised _ _ => True
  | .fault f => f ≠ .fuelExhausted

theorem recvHead_over {fuel : ℕ} {unparsed : ℤ} {u : Session} (hfuel : backlog u.arrivals < fuel) :
    Over (recvHead env fuel unparsed u) := by
  induction fuel generalizing unparsed u with
  | zero => omega
  | succ fuel ih =>
    rw [recvHead]
    rcases readBuffer_progress u (toSize unparsed)
      ((env.bufferSize + 2 ^ 64 - toSize unparsed) % 2 ^ 64) with hrun | ⟨r, bs, rest, hrun, hcon, hdec⟩
    · rw [Command.bind_fault hrun]
      exact Fault.noConfusion
    · rw [Command.bind_done hrun, Command.ite_apply]
      split_ifs with hr
      · exact trivial
      · have hpos : 0 < r := by omega
        cases hexec : executeBuffer (toSize (r + unparsed)) ((u.putArrivals rest).putBuffer bs) with
        | fault f =>
          rw [Command.bind_fault hexec]
          rintro rfl
          exact executeBuffer_spares _ _ hexec
        | raised e u' =>
          rw [Command.bind_raised hexec]
          exact trivial
        | done m u' =>
          obtain ⟨harr, hcon'⟩ := executeBuffer_frame hexec
          have hless : backlog rest < backlog u.arrivals := hdec (hcon hpos) (by omega)
          have hlt : backlog u'.arrivals < fuel := by
            rw [harr]
            change backlog rest < fuel
            omega
          rw [Command.bind_done hexec, Command.state_bind_apply]
          dsimp only
          split_ifs
          · exact trivial
          · exact trivial
          · exact hcon'.trans (hcon hpos)
          · exact ih hlt

theorem readFixSize_ends {u : Session} (hcon : u.connected = true) (old n : ℕ) :
    readFixSize old n u ≠ .fault .fuelExhausted := by
  rw [readFixSize, Command.state_bind_apply]
  apply fixSizeLoop_ends (P := fun s : Session => s.connected = true) (fun s => backlog s.arrivals) _ _
    hcon (by omega)
  · intro offset s _
    rcases readBody_progress s old n offset with h | ⟨r, bs, rest, h, -⟩
    · rw [h]
      simp
    · rw [h]
      nofun
  · intro offset s v s' hs h
    rcases readBody_progress s old n offset with h' | ⟨r, bs, rest, h', hdec⟩
    · rw [h'] at h
      cases h
    · rw [h'] at h
      cases h
      refine ⟨hs, fun hv => hdec hs ?_⟩
      rintro rfl
      exact hv rfl

theorem takeBody_ends {u : Session} (hcon : u.connected = true) (size old : ℕ) :
    takeBody readFixSize size old u ≠ .fault .fuelExhausted := by
  rw [takeBody, Command.state_bind_apply]
  apply Command.ite_ne_fault
  · intro _
    exact Command.Spares.abort (by decide) u
  · intro _
    rw [Command.modify_bind_apply]
    apply Command.bind_ne_fault
    · apply Command.ite_ne_fault
      · intro _
        apply Command.bind_ne_fault (readFixSize_ends (by exact hcon) _ _)
        intro r u' _
        exact Command.Spares.pure _ u'
      · intro _
        exact Command.Spares.pure _ _
    · intro complete u' _
      exact Command.Spares.state.bind (fun _ => .ite (.pure _) giveUp_spares) u'

theorem recvBody_ends {u : Session} (hcon : u.connected = true) (unparsed : ℤ) :
    recvBody env readFixSize unparsed u ≠ .fault .fuelExhausted := by
  rw [recvBody, Command.state_bind_apply]
  apply Command.ite_ne_fault
  · intro _
    apply Command.ite_ne_fault
    · intro _
      exact Command.Spares.raise _ u
    · intro _
      apply Command.ite_ne_fault
      · intro _
        exact Command.Spares.raise _ u
      · intro _
        exact takeBody_ends hcon _ _
  · intro _
    exact Command.Spares.pure _ u

/-- A call of `recvRequest` ends. -/
theorem recvRequest_ends (junk : ℕ → UInt8) (u : Session) :
    recvRequest env junk u ≠ .fault .fuelExhausted := by
  rw [recvRequest, recvRequestVia, Command.state_bind_apply, Command.modify_bind_apply,
    Command.modify_bind_apply]
  have hover : Over (recvHead env (backlog u.arrivals + 1) 0 ((u.putParser (.fresh env.relaxed)).putBuffer
      ((List.range env.bufferSize).map junk))) := recvHead_over env (Nat.lt_succ_self _)
  apply Command.bind_ne_fault
  · intro h
    rw [h] at hover
    exact hover rfl
  · intro n u' h
    rw [h] at hover
    cases n with
    | none => exact Command.Spares.pure _ u'
    | some n => exact recvBody_ends env hover n

end Ends

section Body

variable {u u' : Session} {rest tail : List Arrival} {x : List UInt8} {n : ℕ}

theorem readBody_whole (hcon : u.connected = true) (harr : u.arrivals = .data x :: rest)
    (hx : x.length < 2 ^ 31) (hn : x.length ≤ n) {old offset : ℕ} (hlt : old + offset < 2 ^ 64)
    (hbody : old + offset + x.length ≤ u.body.length) :
    readBody old n offset u = .done (x.length : ℤ)
      ((u.putArrivals rest).putBody (splice u.body (old + offset) x)) := by
  rw [readBody, Command.bind_done (receive_whole hcon harr hx hn)]
  dsimp only
  rw [Command.state_bind_apply, Nat.mod_eq_of_lt hlt, Command.ite_apply, if_pos (by exact hbody),
    Command.modify_bind_apply]
  rfl

/-- The loop of `readFixSize` over pieces that are exactly what is missing. -/
theorem readFixSize_pieces {pieces : List (List UInt8)} {old offset fuel : ℕ} {d : List UInt8}
    (hne : ∀ x ∈ pieces, x ≠ []) (hcon : u.connected = true)
    (harr : u.arrivals = pieces.map .data ++ tail) (hn : offset + pieces.flatten.length = n)
    (hlt : old + n < 2 ^ 31) (hd : d.length = old + offset)
    (hbody : u.body = d ++ List.replicate pieces.flatten.length 0) (hfuel : pieces.length < fuel) :
    ∃ u', fixSizeLoop (readBody old n) n fuel offset pieces.flatten.length u = .done (n : ℤ) u' ∧
      u'.body = d ++ pieces.flatten ∧ u'.parser = u.parser := by
  induction pieces generalizing offset fuel d u with
  | nil =>
    obtain ⟨fuel, rfl⟩ : ∃ k, fuel = k + 1 := ⟨fuel - 1, by omega⟩
    refine ⟨u, ?_, hbody, rfl⟩
    rw [List.flatten_nil, List.length_nil, fixSizeLoop_stop, toInt_eq_self_iff.mpr (by omega)]
  | cons x pieces ih =>
    rw [List.forall_mem_cons] at hne
    rw [List.length_cons] at hfuel
    rw [List.flatten_cons, List.length_append] at hn hbody ⊢
    have hpos : x.length ≠ 0 := fun h => hne.1 (List.length_eq_zero_iff.mp h)
    have hlen : u.body.length = old + n := by
      rw [hbody, List.length_append, List.length_replicate]
      omega
    have hread : readBody old n offset u = _ :=
      readBody_whole hcon harr (by omega) (by omega) (by omega) (by omega)
    obtain ⟨fuel, rfl⟩ : ∃ k, fuel = k + 1 := ⟨fuel - 1, by omega⟩
    have hsplice : splice u.body (old + offset) x =
        d ++ x ++ List.replicate pieces.flatten.length 0 := by
      rw [hbody, splice_append_right _ _ hd.le, hd, Nat.sub_self, splice_zero, List.drop_replicate,
        Nat.add_sub_cancel_left, List.append_assoc]
    have hnext : x.length + pieces.flatten.length - (x.length : ℤ).toNat = pieces.flatten.length := by
      rw [Int.toNat_natCast, Nat.add_sub_cancel_left]
    rw [fixSizeLoop_advance hread (by omega) (by omega) (by omega), hnext, Int.toNat_natCast,
      ← List.append_assoc]
    exact ih hne.2 (by exact hcon) (by rfl) (by omega) (by rw [List.length_append]; omega)
      (by exact hsplice) (by omega)

theorem length_le_backlog (arrivals : List Arrival) : arrivals.length ≤ backlog arrivals := by
  induction arrivals with
  | nil => exact Nat.zero_le _
  | cons a rest ih =>
    rw [backlog, List.map_cons, List.sum_cons, List.length_cons]
    rw [backlog] at ih
    cases a <;> dsimp only <;> omega

theorem toInt64_of_lt {n : ℕ} (h : n < 2 ^ 63) : toInt64 n = n := by
  rw [toInt64, Nat.mod_eq_of_lt (by omega), if_pos h]

/-- What fits the buffer can be a body. -/
theorem Env.le_longest (env : Env) {n : ℕ} (hlt : n < 2 ^ 31) (hfit : n ≤ env.bufferSize) :
    n ≤ env.longest := by
  have hmax : 2 ^ 31 ≤ maxSize := by decide
  exact le_min (by omega) (hfit.trans env.fits)

/-- A length that a body can have: as much as possible of the body is taken from the buffer. -/
theorem recvBody_eq {env : Env} (fix : ℕ → ℕ → Recv ℤ) {y : List UInt8} {size : ℕ}
    (hsize : getContentLength env u.parser.data = size) (hpos : 0 < size)
    (hmax : size ≤ env.longest) (hy : y.length < 2 ^ 31) :
    recvBody env fix (y.length : ℤ) u = takeBody fix size (min y.length size) u := by
  rw [Env.longest, le_min_iff] at hmax
  have hlt : size < 2 ^ 63 := hmax.1.trans_lt (by decide)
  have hold : (if 0 < (y.length : ℤ) then min (toSize (y.length : ℤ)) size else 0) =
      min y.length size := by
    rw [toSize_of_nonneg (by omega) (by omega), Int.toNat_natCast]
    split_ifs <;> omega
  rw [recvBody, Command.state_bind_apply, hsize, toInt64_of_lt hlt, Command.ite_apply,
    if_pos (by omega), Command.ite_apply, if_neg (by omega), Command.ite_apply, if_neg (by omega),
    Int.toNat_natCast, hold]

theorem takeBody_buffered (fix : ℕ → ℕ → Recv ℤ) {y : List UInt8} {size : ℕ}
    (hbuf : u.buffer.take y.length = y) (hle : size ≤ y.length) :
    takeBody fix size size u =
      .done (some (u.parser.data.setBody (y.take size))) (u.putBody (y.take size)) := by
  obtain ⟨hlen, htake⟩ := buffered hbuf hle
  rw [takeBody, Command.state_bind_apply, Command.ite_apply, if_neg (by omega), htake,
    Nat.sub_self, List.replicate_zero, List.append_nil, Command.modify_bind_apply, fillBody,
    if_neg (by decide)]
  rfl

/-- A body that is what the head left and the pieces that follow. -/
theorem takeBody_pieces {y body : List UInt8} {pieces : List (List UInt8)}
    (hbody : y ++ pieces.flatten = body) (hlt : body.length < 2 ^ 31) (hne : ∀ x ∈ pieces, x ≠ [])
    (hcon : u.connected = true) (harr : u.arrivals = pieces.map .data ++ tail)
    (htake : u.buffer.take y.length = y) :
    ∃ u', takeBody readFixSize body.length y.length u =
      .done (some (u.parser.data.setBody body)) u' := by
  have hlen := congrArg List.length hbody
  rw [List.length_append] at hlen
  by_cases hzero : pieces.flatten.length = 0
  · have hy : y = body := by rw [← hbody, List.length_eq_zero_iff.mp hzero, List.append_nil]
    have hrun := takeBody_buffered readFixSize htake le_rfl
    rw [List.take_length] at hrun
    rw [← hy]
    exact ⟨_, hrun⟩
  · have hneed : body.length - y.length = pieces.flatten.length := by omega
    have hbuf := (buffered htake le_rfl).1
    have hfuel : pieces.length < backlog u.arrivals + 2 := by
      have := length_le_backlog u.arrivals
      rw [harr, List.length_append, List.length_map] at this
      rw [harr]
      omega
    obtain ⟨u', hloop, hb, hp⟩ := readFixSize_pieces
      (u := u.putBody (y ++ List.replicate pieces.flatten.length 0)) hne hcon harr
      (Nat.zero_add _) (by omega) rfl rfl hfuel
    have hfill : fillBody readFixSize y.length pieces.flatten.length
        (u.putBody (y ++ List.replicate pieces.flatten.length 0)) = .done true u' := by
      rw [fillBody, if_pos (by omega), Command.bind_done (by exact hloop), Command.pure_apply,
        decide_eq_true (by omega)]
    rw [takeBody, Command.state_bind_apply, Command.ite_apply, if_neg (by omega), htake, hneed,
      Command.modify_bind_apply, Command.bind_done hfill, Command.state_bind_apply, hb, hp, hbody]
    exact ⟨u', rfl⟩

theorem recvBody_pieces (env : Env) {y body : List UInt8} {pieces : List (List UInt8)}
    (hsize : getContentLength env u.parser.data = body.length) (hnil : body ≠ [])
    (hbody : y ++ pieces.flatten = body) (hlt : body.length < 2 ^ 31)
    (hfit : body.length ≤ env.bufferSize) (hne : ∀ x ∈ pieces, x ≠ [])
    (hcon : u.connected = true) (harr : u.arrivals = pieces.map .data ++ tail)
    (htake : u.buffer.take y.length = y) :
    ∃ u', recvBody env readFixSize (y.length : ℤ) u =
      .done (some (u.parser.data.setBody body)) u' := by
  have hlen := congrArg List.length hbody
  rw [List.length_append] at hlen
  rw [recvBody_eq readFixSize hsize (List.length_pos_iff.mpr hnil)
    (env.le_longest hlt hfit) (by omega), min_eq_left (by omega)]
  exact takeBody_pieces hbody hlt hne hcon harr htake

end Body

section Alike

/-- Sessions that the rest of a call does not tell apart. -/
structure Alike (u u' : Session) : Prop where
  arrivals : u.arrivals = u'.arrivals
  connected : u.connected = u'.connected
  data : u.parser.data = u'.parser.data
  body : u.body = u'.body

variable {u u' : Session}

theorem receive_agree (h : Alike u u') (n : ℕ) :
    Command.Agree Alike (receive n u) (receive n u') := by
  have hput (l : List Arrival) : Alike (u.putArrivals l) (u'.putArrivals l) :=
    ⟨rfl, h.connected, h.data, h.body⟩
  rw [receive, Command.state_bind_apply, Command.state_bind_apply, h.connected, h.arrivals]
  apply Command.Agree.ite
  · intro _
    cases u'.arrivals with
    | nil => exact ⟨rfl, h⟩
    | cons a rest =>
      cases a with
      | failure => exact ⟨rfl, hput _⟩
      | data bs => exact ⟨rfl, hput _⟩
  · intro _
    exact ⟨rfl, h⟩

theorem readBody_agree (h : Alike u u') (old n offset : ℕ) :
    Command.Agree Alike (readBody old n offset u) (readBody old n offset u') := by
  apply (receive_agree h n).bind
  intro r s t hst
  dsimp only
  rw [Command.state_bind_apply, Command.state_bind_apply, hst.body]
  apply Command.Agree.ite
  · intro _
    exact ⟨rfl, hst.arrivals, hst.connected, hst.data, rfl⟩
  · intro _
    rfl

theorem fillBody_agree (h : Alike u u') (old need : ℕ) :
    Command.Agree Alike (fillBody readFixSize old need u) (fillBody readFixSize old need u') := by
  apply Command.Agree.ite
  · intro _
    have hread : Command.Agree Alike (readFixSize old need u) (readFixSize old need u') := by
      rw [readFixSize, Command.state_bind_apply, Command.state_bind_apply, h.arrivals]
      exact fixSizeLoop_agree (fun offset s t hst => readBody_agree hst old need offset) _ _ _ h
    exact hread.bind fun r s t hst => ⟨rfl, hst⟩
  · intro _
    exact ⟨rfl, h⟩

/-- With nothing left in the buffer, the answer depends on what arrives and on the head. -/
theorem recvBody_agree (env : Env) (harr : u.arrivals = u'.arrivals)
    (hcon : u.connected = u'.connected) (hdata : u.parser.data = u'.parser.data) :
    (recvBody env readFixSize 0 u).answer = (recvBody env readFixSize 0 u').answer := by
  rw [recvBody, Command.state_bind_apply, Command.state_bind_apply, hdata, Command.ite_apply,
    Command.ite_apply]
  by_cases hpos : 0 < toInt64 (getContentLength env u'.parser.data)
  · rw [if_pos hpos, if_pos hpos]
    by_cases hmax : (maxSize : ℤ) < toInt64 (getContentLength env u'.parser.data)
    · rw [if_pos hmax, if_pos hmax]
      rfl
    · rw [if_neg hmax, if_neg hmax, Command.ite_apply, Command.ite_apply]
      split_ifs with halloc hzero
      · rfl
      · exact absurd hzero (lt_irrefl 0)
      rw [takeBody, Command.state_bind_apply, Command.state_bind_apply,
        Command.ite_apply, Command.ite_apply, if_neg (Nat.not_lt_zero _),
        if_neg (Nat.not_lt_zero _), Command.modify_bind_apply, Command.modify_bind_apply]
      have hput (b : List UInt8) : Alike (u.putBody b) (u'.putBody b) := ⟨harr, hcon, hdata, rfl⟩
      apply Command.Agree.answer_eq (R := Alike)
      apply (fillBody_agree (by exact hput _) _ _).bind
      intro complete s t hst
      rw [Command.state_bind_apply, Command.state_bind_apply, hst.data, hst.body]
      apply Command.Agree.ite
      · intro _
        exact ⟨rfl, hst⟩
      · intro _
        exact ⟨rfl, hst.arrivals, rfl, hst.data, hst.body⟩
  · rw [if_neg hpos, if_neg hpos]
    rfl

end Alike
end Sylar.Http
