import Sylar.Http.Body

/-! # Requests cut into pieces

The registers of the parser are forgotten at the start of every call, the state of the machine
is not. So a request may be delivered in any pieces whose ends lie between its tokens; where
a piece ends inside a token, only the rest of the token is reported.
-/
namespace Sylar.Http
open Memory Ragel

variable {env : Env} {head body : List UInt8} {pieces : List (List UInt8)} {tail : List Arrival}

theorem IsHead.ne_nil {relaxed : Bool} (h : IsHead relaxed head) : head ≠ [] := by
  rintro rfl
  exact Bool.false_ne_true h.1

/-- The answer is settled by what the loop over the head leaves behind. -/
theorem HeadRead.answer_eq {bs : List UInt8} {c c' : Recv (Option ℤ)} {u u' : Session}
    (h : HeadRead env bs body tail (c u)) (h' : HeadRead env bs body tail (c' u'))
    (hlt : body.length < 2 ^ 31) (hfit : body.length ≤ env.bufferSize)
    (hbody : body = [] ∨ getContentLength env (denotes env.relaxed bs).1 = body.length) :
    ((c >>= afterHead env readFixSize) u).answer =
      ((c' >>= afterHead env readFixSize) u').answer := by
  rcases h with ⟨w, hc, herr⟩ | ⟨w, y, ps, hc, hok, hdata, hcon, harr, hyps, hne, htake, -⟩
  · rcases h' with ⟨w', hc', -⟩ | ⟨w', y', ps', -, hok, -⟩
    · rw [Command.bind_done hc, Command.bind_done hc']
      rfl
    · exact absurd hok herr
  · rcases h' with ⟨w', -, herr⟩ |
      ⟨w', y', ps', hc', -, hdata', hcon', harr', hyps', hne', htake', -⟩
    · exact absurd hok herr
    · rw [Command.bind_done hc, Command.bind_done hc', afterHead, afterHead]
      by_cases hnil : body = []
      · -- nothing is left of the pieces
        have hempty {y : List UInt8} {ps : List (List UInt8)} (hyps : y ++ ps.flatten = body)
            (hne : ∀ x ∈ ps, x ≠ []) : y = [] ∧ ps = [] := by
          rw [hnil, List.append_eq_nil_iff] at hyps
          refine ⟨hyps.1, List.eq_nil_iff_forall_not_mem.mpr fun x hx => hne x hx ?_⟩
          exact List.flatten_eq_nil_iff.mp hyps.2 x hx
        obtain ⟨rfl, rfl⟩ := hempty hyps hne
        obtain ⟨rfl, rfl⟩ := hempty hyps' hne'
        exact recvBody_agree env (harr.trans harr'.symm) (hcon.trans hcon'.symm)
          (hdata.trans hdata'.symm)
      · have hlen := hbody.resolve_left hnil
        obtain ⟨v, hv⟩ := recvBody_pieces env (by rw [hdata, hlen]) hnil hyps hlt hfit hne hcon
          harr htake
        obtain ⟨v', hv'⟩ := recvBody_pieces env (by rw [hdata', hlen]) hnil hyps' hlt hfit hne'
          hcon' harr' htake'
        rw [hv, hv', hdata, hdata']
        rfl

section Requests

variable (hhead : IsHead env.relaxed head) (hfit : (head ++ body).length ≤ env.bufferSize)
  (hsize : env.bufferSize < 2 ^ 31) (hflat : pieces.flatten = head ++ body)
  (hne : ∀ x ∈ pieces, x ≠ []) (hk : Kept env.relaxed (head ++ body) 0 pieces)

include hhead hfit hsize hflat hne hk

theorem recvHead_request (junk : ℕ → UInt8) {u : Session} (hcon : u.connected = true)
    (harr : u.arrivals = pieces.map .data ++ tail) :
    HeadRead env (head ++ body) body tail (recvHead env (backlog u.arrivals + 1) 0
      ((u.putParser (.fresh env.relaxed)).putBuffer ((List.range env.bufferSize).map junk))) := by
  have hfuel : pieces.length ≤ backlog u.arrivals + 1 := by
    have := length_le_backlog u.arrivals
    rw [harr, List.length_append, List.length_map] at this
    rw [harr]
    omega
  have hclear : Clear (tokens env.relaxed (head ++ body)) ([] : List UInt8).length := by
    intro t _ h
    exact Nat.not_lt_zero _ h.1
  have hgo : Going env.relaxed [] (start (Grammar.main env.relaxed)) := rfl
  refine recvHead_pieces hhead hfit hsize hfuel hgo (parsed_fresh _ _) hclear hk hflat
    (List.length_pos_iff.mpr hhead.ne_nil) hne hcon harr ?_
  change ((List.range env.bufferSize).map junk).length = _
  rw [List.length_map, List.length_range]

omit hhead hfit hsize hne in
theorem Kept.whole (hne : head ++ body ≠ []) : Kept env.relaxed (head ++ body) 0 [head ++ body] := by
  have hlast {c : ℕ} {ps : List (List UInt8)} (hps : ps.flatten ≠ []) :
      c + ps.flatten.length ∈ ends c ps := by
    induction ps generalizing c with
    | nil => exact absurd rfl hps
    | cons x ps ih =>
      rw [List.flatten_cons, List.length_append, ← Nat.add_assoc, ends, List.mem_cons]
      by_cases hnil : ps.flatten = []
      · left
        rw [hnil]
        rfl
      · right
        exact ih hnil
  have hend := hlast (c := 0) (hflat ▸ hne)
  rw [hflat] at hend
  constructor
  · intro e he
    rw [ends, ends, List.mem_singleton] at he
    rw [he]
    exact hk.clear _ hend
  · intro i p ht e he
    rw [ends, ends, List.mem_singleton] at he
    rw [he]
    exact hk.settled i p ht _ hend

end Requests

/-- A session on a new connection. -/
def Session.opened (arrivals : List Arrival) : Session := ⟨arrivals, true, .fresh false, [], []⟩

end Sylar.Http
