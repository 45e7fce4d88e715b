import Sylar.Http.Pieces
import Sylar.Http.Session

/-! # A request in pieces

`recvRequest` when the bytes of a request are delivered by several reads. If no token
extends over the end of a piece, every piece is reported as it stands in the request, and the
outcome is a function of the request and of what follows it.
-/
namespace Sylar.Http
open Memory Ragel
open Sylar.Stream (toInt toSize toInt_eq_self_iff toSize_of_nonneg fixSizeLoop)

variable {relaxed : Bool} {head body pre x post : List UInt8} {s : State Action}

section Head

theorem trace_append_of_stop (h : (trace relaxed pre).2.cs = none ∨ (trace relaxed pre).2.broke = true)
    (post : List UInt8) : trace relaxed (pre ++ post) = trace relaxed pre :=
  sweep_append_of_stop h

theorem tokens_of_stop (h : (trace relaxed pre).2.cs = none ∨ (trace relaxed pre).2.broke = true)
    (post : List UInt8) : tokens relaxed (pre ++ post) = tokens relaxed pre := by
  rw [tokens, trace_append_of_stop h]
  rfl

theorem stop_or_going (relaxed : Bool) (pre : List UInt8) :
    ((trace relaxed pre).2.cs = none ∨ (trace relaxed pre).2.broke = true) ∨
      ∃ s, Going relaxed pre s := by
  have hplace := (sweep_place breaks (start (Grammar.main relaxed)) 0 pre).2.2
  cases hcs : (trace relaxed pre).2.cs with
  | none => exact .inl (.inl rfl)
  | some s =>
    cases hb : (trace relaxed pre).2.broke with
    | true => exact .inl (.inr rfl)
    | false =>
      refine .inr ⟨s, ?_⟩
      have hp : (trace relaxed pre).2.p = pre.length := by
        rw [← Nat.zero_add pre.length]
        exact hplace (by rw [← trace, hcs]; simp) hb
      rw [Going, ← hcs, ← hb, ← hp]

theorem tokens_subset (relaxed : Bool) (pre post : List UInt8) :
    tokens relaxed pre ⊆ tokens relaxed (pre ++ post) := by
  rcases stop_or_going relaxed pre with h | ⟨s, h⟩
  · rw [tokens_of_stop h]
    exact List.Subset.refl _
  · rw [tokens_append h]
    exact List.subset_append_left _ _

/-- A head is not complete before its last byte. -/
theorem IsHead.going (h : IsHead relaxed (pre ++ x)) (hx : x ≠ []) : ∃ s, Going relaxed pre s := by
  rcases stop_or_going relaxed pre with hstop | hgo
  · have hlen : (trace relaxed (pre ++ x)).2.p = (pre ++ x).length := h.2
    have hplace := (sweep_place breaks (start (Grammar.main relaxed)) 0 pre).2.1
    rw [trace_append_of_stop hstop, List.length_append, trace] at hlen
    have : x.length ≠ 0 := fun h => hx (List.length_eq_zero_iff.mp h)
    omega
  · exact hgo

theorem Going.not_final (h : Going relaxed pre s) (hpre : pre ≠ []) : final s = false := by
  have hcs : (trace relaxed pre).2.cs = some s := by rw [h]
  have hiff := (start_ending relaxed).sweep breaks_iff (p := 0) hpre hcs
  have hbroke : (trace relaxed pre).2.broke = false := by rw [h]
  rw [trace] at hbroke
  rw [hbroke] at hiff
  simpa using hiff

/-- The call that reads the last byte of a head stops there, in a final state. -/
theorem IsHead.last (h : IsHead relaxed (pre ++ x)) (hgo : Going relaxed pre s) (hx : x ≠ [])
    (y : List UInt8) : ∃ s', final s' = true ∧
      (sweep breaks s 0 (x ++ y)).2 = ⟨some s', x.length, true⟩ := by
  obtain ⟨hbroke, hp⟩ := h
  have hne : pre ++ x ≠ [] := by simp [hx]
  cases hcs : (trace relaxed (pre ++ x)).2.cs with
  | none => exact absurd hbroke (by rw [trace, sweep_error hcs]; simp)
  | some s' =>
    have hfinal := ((start_ending relaxed).sweep breaks_iff (p := 0) hne hcs).mp hbroke
    refine ⟨s', hfinal, ?_⟩
    rw [trace_append hgo] at hbroke hp hcs
    rw [List.length_append] at hp
    dsimp only at hbroke hp hcs
    rw [sweep_append_of_stop (.inr hbroke)]
    apply Halt.ext
    · exact hcs
    · dsimp only
      omega
    · exact hbroke

end Head

section Round

variable {env : Env} {u : Session} {rest : List Arrival} {v : HttpRequestParser} {n : ℕ}

/-- A round that is delivered the bytes `x`. -/
theorem recvHead_round (hcon : u.connected = true) (harr : u.arrivals = .data x :: rest)
    (hbuf : u.buffer.length = env.bufferSize) (hsize : env.bufferSize < 2 ^ 31) (hx : x ≠ [])
    (hfit : x.length ≤ env.bufferSize) {memory : List UInt8}
    (hexec : HttpRequestParser.execute (x ++ u.buffer.drop x.length) x.length u.parser =
      .done (n, memory) v) (hn : 0 < n) (hnx : n ≤ x.length) (fuel : ℕ) :
    recvHead env (fuel + 1) 0 u =
      if v.hasError then .done none (u.advance rest v memory).close
      else if v.isFinished then .done (some ((x.length - n : ℕ) : ℤ)) (u.advance rest v memory)
      else recvHead env fuel ((x.length - n : ℕ) : ℤ) (u.advance rest v memory) := by
  have hpos : x.length ≠ 0 := fun h => hx (List.length_eq_zero_iff.mp h)
  have hread : readBuffer (toSize 0) ((env.bufferSize + 2 ^ 64 - toSize 0) % 2 ^ 64) u = _ :=
    readBuffer_whole (y := []) hcon harr (by omega) (by rw [show toSize 0 = 0 from rfl]; omega) rfl
      (by rw [List.length_nil]; omega)
  rw [List.nil_append, List.length_nil, Nat.zero_add] at hread
  have htoSize : toSize ((x.length : ℤ) + 0) = x.length := by
    rw [toSize_of_nonneg (by omega) (by omega)]
    omega
  have hexecute : executeBuffer (toSize ((x.length : ℤ) + 0))
      ((u.putArrivals rest).putBuffer (x ++ u.buffer.drop x.length)) =
        .done n (u.advance rest v memory) := by
    rw [htoSize, executeBuffer, runParser, Command.state_bind_apply,
      Command.bind_done (Command.focus_done (by exact hexec))]
    rfl
  have hleft : toInt ((toSize ((x.length : ℤ) + 0) + 2 ^ 64 - n) % 2 ^ 64) =
      ((x.length - n : ℕ) : ℤ) := by
    rw [htoSize, show x.length + 2 ^ 64 - n = x.length - n + 2 ^ 64 by omega, Nat.add_mod_right,
      Nat.mod_eq_of_lt (by omega), toInt_eq_self_iff]
    omega
  rw [recvHead, Command.bind_done hread, Command.ite_apply, if_neg (by omega),
    Command.bind_done hexecute, Command.state_bind_apply, hleft, toInt_eq_self_iff.mpr hsize,
    Command.ite_apply]
  by_cases herr : v.hasError = true
  · rw [if_pos (by exact herr), if_pos herr]
    rfl
  · rw [if_neg (by exact herr), if_neg herr, Command.ite_apply, if_neg (by omega),
      Command.ite_apply]
    rfl

end Round

section Pieces

/-- The places where pieces end, the first one starting at place `c`. -/
def ends : ℕ → List (List UInt8) → List ℕ
  | _, [] => []
  | c, x :: pieces => (c + x.length) :: ends (c + x.length) pieces

/-- No token of `bs` extends over the end of a piece, and where a piece ends after a method has
been reported, the bytes up to there settle which method it is. -/
structure Kept (relaxed : Bool) (bs : List UInt8) (c : ℕ) (pieces : List (List UInt8)) : Prop where
  clear : ∀ e ∈ ends c pieces, Clear (tokens relaxed bs) e
  settled : ∀ i p, .method i p ∈ tokens relaxed bs → ∀ e ∈ ends c pieces, p < e →
    ¬Open (slice bs i e)

/-- The bytes up to `e` settle the method that is reported before `e`. -/
def Token.SettledAt (bs : List UInt8) (e : ℕ) : Token → Prop
  | .method i p => p < e → ¬Open (slice bs i e)
  | _ => True

instance (bs : List UInt8) (e : ℕ) : DecidablePred (Token.SettledAt bs e) := fun t =>
  match t with
  | .method i p => inferInstanceAs (Decidable (p < e → ¬Open (slice bs i e)))
  | .version _ _ | .text _ _ _ | .field _ _ _ _ _ | .headerDone _ => .isTrue trivial

theorem kept_iff {bs : List UInt8} {c : ℕ} {pieces : List (List UInt8)} : Kept relaxed bs c pieces ↔
    ∀ e ∈ ends c pieces, ∀ t ∈ tokens relaxed bs,
      ¬(t.start < e ∧ e < t.reach) ∧ t.SettledAt bs e := by
  constructor
  · intro h e he t ht
    refine ⟨h.clear e he t ht, ?_⟩
    cases t with
    | method i p => exact h.settled i p ht e he
    | _ => exact trivial
  · intro h
    exact ⟨fun e he t ht => (h e he t ht).1, fun i p ht e he => (h e he _ ht).2⟩

instance (bs : List UInt8) (c : ℕ) (pieces : List (List UInt8)) :
    Decidable (Kept relaxed bs c pieces) := decidable_of_iff _ kept_iff.symm

variable {pieces : List (List UInt8)} {c : ℕ} {v : HttpRequestParser}

theorem Kept.tail {bs : List UInt8} (h : Kept relaxed bs c (x :: pieces)) :
    Kept relaxed bs (c + x.length) pieces :=
  ⟨fun e he => h.clear e (List.mem_cons_of_mem _ he),
    fun i p ht e he => h.settled i p ht e (List.mem_cons_of_mem _ he)⟩

theorem stop_lt_of_mem_tokens {t : Token} (h : t ∈ tokens relaxed pre) : t.stop < pre.length := by
  obtain ⟨a, ha⟩ := Marks.exists_of_mem_tokens h
  exact trace_place ha

theorem Kept.execute (h : Kept relaxed (pre ++ x ++ post) pre.length (x :: pieces))
    (hclear : Clear (tokens relaxed (pre ++ x ++ post)) pre.length) (hgo : Going relaxed pre s)
    (hv : Parsed relaxed (pre ++ x ++ post) pre v) (hx : x ≠ []) (hlen : x.length < 2 ^ 31)
    (junk : List UInt8) :
    ∃ v', HttpRequestParser.execute (x ++ junk) x.length v =
        .done ((sweep breaks s 0 x).2.p,
          memmove (x ++ junk) x.length (sweep breaks s 0 x).2.p) v' ∧
      Parsed relaxed (pre ++ x ++ post) (pre ++ x) v' := by
  have hsub := tokens_subset relaxed (pre ++ x) post
  refine execute_piece hgo hv hx hlen (fun t ht => hclear t (hsub ht))
    (fun t ht => h.clear _ List.mem_cons_self t (hsub ht)) fun i p ht hp => ?_
  have hstop : p < (pre ++ x).length := stop_lt_of_mem_tokens ht
  have hopen := h.settled i p (hsub ht) _ List.mem_cons_self (by rwa [List.length_append] at hstop)
  rwa [slice, ← List.length_append, ← List.drop_take, List.take_left] at hopen

/-- What the loop leaves behind: nothing if the request is erroneous, otherwise the parsed request
and the bytes after the head. -/
def HeadRead (env : Env) (bs body : List UInt8) (tail : List Arrival)
    (o : Outcome Exception Session (Option ℤ)) : Prop :=
  (∃ u, o = .done none u ∧ (denotes env.relaxed bs).2 ≠ 0) ∨
    ∃ (u : Session) (y : List UInt8) (ps : List (List UInt8)),
      o = .done (some (y.length : ℤ)) u ∧ (denotes env.relaxed bs).2 = 0 ∧
      u.parser.data = (denotes env.relaxed bs).1 ∧ u.connected = true ∧
      u.arrivals = ps.map .data ++ tail ∧ y ++ ps.flatten = body ∧ (∀ x ∈ ps, x ≠ []) ∧
      u.buffer.take y.length = y ∧ y.length ≤ u.buffer.length

theorem hasError_iff {v : HttpRequestParser} (hcs : v.parser.cs = some s) :
    v.hasError = true ↔ v.error ≠ 0 := by
  simp [HttpRequestParser.hasError, hcs]

theorem isFinished_eq {v : HttpRequestParser} (hcs : v.parser.cs = some s) :
    v.isFinished = final s := by
  rw [HttpRequestParser.isFinished, hcs]

variable {env : Env} {tail : List Arrival}

/-- An error that is reported in a part of the request stays. -/
theorem denotes_error {bs : List UInt8} (h : ((tokens relaxed pre).foldl (report bs) (.fresh, 0)).2 ≠ 0)
    (hpre : pre <+: bs) : (denotes relaxed bs).2 ≠ 0 := by
  obtain ⟨post, rfl⟩ := hpre
  rcases stop_or_going relaxed pre with hstop | ⟨s, hgo⟩
  · rw [denotes, tokens_of_stop hstop]
    exact h
  · rw [denotes, tokens_append hgo, List.foldl_append]
    exact foldl_report_error h _

theorem memmove_append {x y : List UInt8} (z : List UInt8) :
    memmove (x ++ y ++ z) (x ++ y).length x.length = y ++ (x ++ y ++ z).drop y.length := by
  have hlen : (x ++ y).length - x.length = y.length := by
    rw [List.length_append]
    omega
  rw [memmove, hlen, List.append_assoc, List.drop_left, List.take_left]

section Step

variable {u : Session} {rest : List Arrival} (hcon : u.connected = true)
  (harr : u.arrivals = .data x :: rest) (hbuf : u.buffer.length = env.bufferSize)
  (hsize : env.bufferSize < 2 ^ 31) (hfit : x.length ≤ env.bufferSize)

include hcon harr hbuf hsize hfit

/-- A piece that ends inside the head. -/
theorem recvHead_inside {s' : State Action} (hgo : Going relaxed pre s)
    (hgo' : Going relaxed (pre ++ x) s') (hx : x ≠ [])
    (hexec : HttpRequestParser.execute (x ++ u.buffer.drop x.length) x.length u.parser =
      .done ((sweep breaks s 0 x).2.p,
        memmove (x ++ u.buffer.drop x.length) x.length (sweep breaks s 0 x).2.p) v)
    (hv : Parsed relaxed (pre ++ x ++ post) (pre ++ x) v) (fuel : ℕ) :
    recvHead env (fuel + 1) 0 u =
      if v.error ≠ 0 then .done none (u.advance rest v (x ++ u.buffer.drop x.length)).close
      else recvHead env fuel 0 (u.advance rest v (x ++ u.buffer.drop x.length)) := by
  have hpos : x.length ≠ 0 := fun h => hx (List.length_eq_zero_iff.mp h)
  have hhalt : (trace relaxed (pre ++ x)).2 = ⟨some s', (pre ++ x).length, false⟩ := hgo'
  rw [trace_append hgo, Halt.mk.injEq, List.length_append] at hhalt
  have hp : (sweep breaks s 0 x).2.p = x.length := by omega
  have hcs : v.parser.cs = some s' := by rw [hv.cs, hgo']
  have hmem : memmove (x ++ u.buffer.drop x.length) x.length x.length =
      x ++ u.buffer.drop x.length := by
    rw [memmove, Nat.sub_self, List.take_zero, List.drop_zero, List.nil_append]
  rw [hp, hmem] at hexec
  rw [recvHead_round hcon harr hbuf hsize hx hfit hexec (by omega) le_rfl, Nat.sub_self,
    isFinished_eq hcs, hgo'.not_final (by simp [hx])]
  by_cases herr : v.error ≠ 0
  · rw [if_pos ((hasError_iff hcs).mpr herr), if_pos herr]
  · rw [if_neg (mt (hasError_iff hcs).mp herr), if_neg herr]
    rfl

/-- The piece that holds the last byte of the head. -/
theorem recvHead_last {x₁ y : List UInt8} (hhead : IsHead relaxed (pre ++ x₁))
    (hgo : Going relaxed pre s) (hx₁ : x₁ ≠ []) (hxy : x = x₁ ++ y)
    (hexec : HttpRequestParser.execute (x ++ u.buffer.drop x.length) x.length u.parser =
      .done ((sweep breaks s 0 x).2.p,
        memmove (x ++ u.buffer.drop x.length) x.length (sweep breaks s 0 x).2.p) v)
    (hv : Parsed relaxed (pre ++ x ++ post) (pre ++ x) v) (fuel : ℕ) :
    recvHead env (fuel + 1) 0 u =
      if v.error ≠ 0 then
        .done none (u.advance rest v (memmove (x ++ u.buffer.drop x.length) x.length x₁.length)).close
      else .done (some (y.length : ℤ))
        (u.advance rest v (memmove (x ++ u.buffer.drop x.length) x.length x₁.length)) := by
  obtain ⟨s', hfinal, hhalt⟩ := hhead.last hgo hx₁ y
  rw [← hxy] at hhalt
  have hpos : x₁.length ≠ 0 := fun h => hx₁ (List.length_eq_zero_iff.mp h)
  have hlen : x.length = x₁.length + y.length := by rw [hxy, List.length_append]
  have hcs : v.parser.cs = some s' := by rw [hv.cs, trace_append hgo, hhalt]
  rw [hhalt] at hexec
  rw [recvHead_round hcon harr hbuf hsize (by rw [hxy]; simp [hx₁]) hfit hexec (by dsimp only; omega)
    (by dsimp only; omega), isFinished_eq hcs, hfinal, if_pos rfl,
    show x.length - x₁.length = y.length by omega]
  by_cases herr : v.error ≠ 0
  · rw [if_pos ((hasError_iff hcs).mpr herr), if_pos herr]
  · rw [if_neg (mt (hasError_iff hcs).mp herr), if_neg herr]

end Step

/-- The loop over the pieces of a request, from a place inside the head. -/
theorem recvHead_pieces (hhead : IsHead env.relaxed head)
    (hfit : (head ++ body).length ≤ env.bufferSize) (hsize : env.bufferSize < 2 ^ 31)
    {u : Session} {fuel : ℕ} (hfuel : pieces.length ≤ fuel)
    (hgo : Going env.relaxed pre s) (hv : Parsed env.relaxed (head ++ body) pre u.parser)
    (hclear : Clear (tokens env.relaxed (head ++ body)) pre.length)
    (hk : Kept env.relaxed (head ++ body) pre.length pieces)
    (hflat : pre ++ pieces.flatten = head ++ body) (hlt : pre.length < head.length)
    (hne : ∀ x ∈ pieces, x ≠ []) (hcon : u.connected = true)
    (harr : u.arrivals = pieces.map .data ++ tail) (hbuf : u.buffer.length = env.bufferSize) :
    HeadRead env (head ++ body) body tail (recvHead env fuel 0 u) := by
  induction pieces generalizing pre s u fuel with
  | nil =>
    have := congrArg List.length hflat
    simp only [List.flatten_nil, List.append_nil, List.length_append] at this
    omega
  | cons x pieces ih =>
    rw [List.forall_mem_cons] at hne
    rw [List.flatten_cons, ← List.append_assoc] at hflat
    rw [List.map_cons, List.cons_append] at harr
    have hlen := congrArg List.length hflat
    have hprefix : pre ++ x <+: head ++ body := ⟨_, hflat⟩
    simp only [List.length_append] at hlen hfit
    have hxfit : x.length ≤ env.bufferSize := by omega
    have hpos : x.length ≠ 0 := fun h => hne.1 (List.length_eq_zero_iff.mp h)
    obtain ⟨fuel, rfl⟩ : ∃ k, fuel = k + 1 := ⟨fuel - 1, by rw [List.length_cons] at hfuel; omega⟩
    obtain ⟨v, hexec, hv'⟩ := Kept.execute (hflat.symm ▸ hk) (hflat.symm ▸ hclear) hgo
      (hflat.symm ▸ hv) hne.1 (by omega) (u.buffer.drop x.length)
    have herror : v.error ≠ 0 → (denotes env.relaxed (head ++ body)).2 ≠ 0 := by
      intro h
      refine denotes_error ?_ hprefix
      rw [← hflat, ← hv'.result]
      exact h
    -- the piece holds the last byte of the head
    have hlast {y : List UInt8} (hy : pre ++ x = head ++ y) (hbody : body = y ++ pieces.flatten) :
        HeadRead env (head ++ body) body tail (recvHead env (fuel + 1) 0 u) := by
      rcases List.append_eq_append_iff.mp hy with ⟨x₁, hx₁, hxy⟩ | ⟨b, hb, -⟩
      · have hne₁ : x₁ ≠ [] := by
          rintro rfl
          rw [List.append_nil] at hx₁
          rw [hx₁] at hlt
          omega
        rw [recvHead_last hcon harr hbuf hsize hxfit (hx₁ ▸ hhead) hgo hne₁ hxy hexec hv']
        by_cases herr : v.error ≠ 0
        · rw [if_pos herr]
          exact .inl ⟨_, rfl, herror herr⟩
        · have hstop : (trace env.relaxed (pre ++ x)).2.broke = true := by
            obtain ⟨s', -, hhalt⟩ := (hx₁ ▸ hhead).last hgo hne₁ y
            rw [trace_append hgo, hxy, hhalt]
          have hden : denotes env.relaxed (head ++ body) = v.result := by
            rw [denotes, ← hflat, tokens_of_stop (.inr hstop), hv'.result]
          rw [if_neg herr]
          refine .inr ⟨_, y, pieces, rfl, ?_, ?_, hcon, rfl, hbody.symm, hne.2, ?_, ?_⟩
          · rw [hden]
            exact not_not.mp herr
          · rw [hden]
            rfl
          · change (memmove _ _ _).take _ = _
            rw [hxy, memmove_append, List.take_left]
          · change _ ≤ (memmove _ _ _).length
            rw [hxy, memmove_append, List.length_append]
            exact Nat.le_add_right _ _
      · rw [hb, List.length_append] at hlt
        omega
    rcases List.append_eq_append_iff.mp hflat with ⟨z, hz, hrest⟩ | ⟨y, hy, hbody⟩
    · by_cases hznil : z = []
      · rw [hznil, List.append_nil] at hz
        rw [hznil, List.nil_append] at hrest
        exact hlast (by rw [hz, List.append_nil]) hrest.symm
      · -- the piece ends inside the head
        obtain ⟨s', hgo'⟩ := (hz ▸ hhead).going hznil
        rw [recvHead_inside hcon harr hbuf hsize hxfit hgo hgo' hne.1 hexec hv']
        by_cases herr : v.error ≠ 0
        · rw [if_pos herr]
          exact .inl ⟨_, rfl, herror herr⟩
        · have hzpos : z.length ≠ 0 := fun h => hznil (List.length_eq_zero_iff.mp h)
          have hzlen := congrArg List.length hz
          simp only [List.length_append] at hzlen
          rw [if_neg herr]
          refine ih (by rw [List.length_cons] at hfuel; omega) hgo' (hflat ▸ hv') ?_ ?_ hflat ?_ hne.2
            hcon rfl ?_
          · rw [List.length_append]
            exact hk.clear _ List.mem_cons_self
          · rw [List.length_append]
            exact hk.tail
          · rw [List.length_append]
            omega
          · change (x ++ u.buffer.drop x.length).length = _
            rw [List.length_append, List.length_drop]
            omega
    · exact hlast hy hbody

end Pieces

end Sylar.Http
