import Mathlib.Data.Int.Notation
import Mathlib.Data.List.Basic

/-! # `TcpServer::bind`

For every address a socket is created, bound and told to listen. A socket that could not be bound is
still told to listen, and is kept if it does; a failure of any address drops all sockets of the
server.
-/
namespace Sylar.Net

variable {A : Type}

/-- A `Socket`, with its descriptor once it has one. -/
structure Socket where
  family : ℤ
  sock : Option ℕ
deriving DecidableEq, Repr

/-- What the kernel answers when a socket is made for an address, bound to it and told to listen,
as far as it is asked. -/
structure Answers where
  socket : Option ℕ
  bind : Bool
  listen : Bool
deriving DecidableEq, Repr

namespace Socket

/-- `Socket::CreateTCP`, for an address of the family. -/
def createTCP (family : ℤ) : Socket := ⟨family, none⟩

def isVaild (s : Socket) : Bool := s.sock.isSome

def newSock (k : Answers) (s : Socket) : Socket := { s with sock := k.socket }

def bind (k : Answers) (family : ℤ) (s : Socket) : Bool × Socket :=
  let s := if s.isVaild then s else s.newSock k
  if !s.isVaild then (false, s)
  else if family ≠ s.family then (false, s)
  else (k.bind, s)

def listen (k : Answers) (s : Socket) : Bool := s.isVaild && k.listen

end Socket

/-- `m_socks` of a server, and the argument `fails`. -/
structure Binding (A : Type) where
  socks : List Socket
  fails : List A

variable (family : A → ℤ)

def bindOne (b : Binding A) (c : A × Answers) : Binding A :=
  let sock := Socket.createTCP (family c.1)
  let bound := sock.bind c.2 (family c.1)
  let b := if bound.1 then b else { b with fails := b.fails ++ [c.1] }
  if bound.2.listen c.2 then { b with socks := b.socks ++ [bound.2] }
  else { b with fails := b.fails ++ [c.1] }

/-- `TcpServer::bind`, for addresses with the answers of the kernel about them. -/
def bindAll (calls : List (A × Answers)) (b : Binding A) : Bool × Binding A :=
  let b := calls.foldl (bindOne family) b
  if b.fails ≠ [] then (false, { b with socks := [] }) else (true, b)

def socketOf (c : A × Answers) : Socket := ⟨family c.1, c.2.socket⟩

def Answers.bound (k : Answers) : Bool := k.socket.isSome && k.bind
def Answers.listening (k : Answers) : Bool := k.socket.isSome && k.listen

def Answers.works (k : Answers) : Bool := k.bound && k.listening

/-- What is expected of a call: it succeeds exactly if every address works, and then there is a new
socket for each of them; otherwise the addresses that do not work are reported and the sockets are
those before the call. -/
def AllOrNone (calls : List (A × Answers)) (socks : List Socket) (out : Bool × Binding A) : Prop :=
  (out.1 = true ↔ ∀ c ∈ calls, c.2.works = true) ∧
    (out.1 = true → out.2.socks = socks ++ calls.map (socketOf family)) ∧
    (out.1 = false → out.2.socks = socks ∧
      out.2.fails = (calls.filter fun c => !c.2.works).map Prod.fst)

def failsOf (c : A × Answers) : List A :=
  (if c.2.bound then [] else [c.1]) ++ if c.2.listening then [] else [c.1]

theorem bindOne_eq (b : Binding A) (c : A × Answers) : bindOne family b c =
    ⟨b.socks ++ if c.2.listening then [socketOf family c] else [], b.fails ++ failsOf c⟩ := by
  rcases c with ⟨a, socket, bind, listen⟩
  cases socket with
  | none =>
    simp [bindOne, Socket.createTCP, Socket.bind, Socket.isVaild, Socket.newSock, Socket.listen,
      failsOf, Answers.bound, Answers.listening]
  | some fd =>
    cases bind <;> cases listen <;>
      simp [bindOne, Socket.createTCP, Socket.bind, Socket.isVaild, Socket.newSock, Socket.listen,
        failsOf, Answers.bound, Answers.listening, socketOf]

theorem foldl_bindOne (calls : List (A × Answers)) (b : Binding A) :
    calls.foldl (bindOne family) b =
      ⟨b.socks ++ (calls.filter (·.2.listening)).map (socketOf family),
        b.fails ++ calls.flatMap failsOf⟩ := by
  induction calls generalizing b with
  | nil => simp
  | cons c calls ih =>
    rw [List.foldl_cons, ih, bindOne_eq, List.flatMap_cons]
    cases hc : c.2.listening <;> simp [hc]

section Fails

variable {calls : List (A × Answers)}

theorem failsOf_eq_nil {c : A × Answers} : failsOf c = [] ↔ c.2.works = true := by
  rw [failsOf, Answers.works]
  cases c.2.bound <;> cases c.2.listening <;> simp

theorem flatMap_failsOf_eq_nil : calls.flatMap failsOf = [] ↔ ∀ c ∈ calls, c.2.works = true := by
  simp only [List.flatMap_eq_nil_iff, failsOf_eq_nil]

/-- Every address that does not work is reported at least once. -/
theorem length_filter_le (calls : List (A × Answers)) :
    (calls.filter fun c => !c.2.works).length ≤ (calls.flatMap failsOf).length := by
  induction calls with
  | nil => exact Nat.le_refl _
  | cons c calls ih =>
    rw [List.flatMap_cons, List.length_append, List.filter_cons]
    cases hc : c.2.works with
    | true =>
      simp only [Bool.not_true, Bool.false_eq_true, if_false]
      omega
    | false =>
      have hpos : 0 < (failsOf c).length := by
        rw [List.length_pos_iff, Ne, failsOf_eq_nil, hc]
        decide
      simp only [Bool.not_false, if_true, List.length_cons]
      omega

/-- It is reported once exactly if it was bound or listens. -/
theorem flatMap_failsOf_iff :
    calls.flatMap failsOf = (calls.filter fun c => !c.2.works).map Prod.fst ↔
      ∀ c ∈ calls, c.2.bound = true ∨ c.2.listening = true := by
  induction calls with
  | nil => simp
  | cons c calls ih =>
    rw [List.flatMap_cons, List.filter_cons, List.forall_mem_cons, ← ih, failsOf, Answers.works]
    have hle := length_filter_le calls
    cases c.2.bound <;> cases c.2.listening
    · -- two entries for one address
      refine iff_of_false (fun heq => ?_) (by simp)
      have hlen := congrArg List.length heq
      simp only [Bool.false_eq_true, if_false, Bool.and_self, Bool.not_false, if_true,
        List.length_append, List.length_map, List.length_cons, List.length_nil] at hlen
      omega
    · simp
    · simp
    · simp

end Fails

/-- A call of `bind` leaves all or nothing exactly if every address works, or if the server has no
sockets yet and every address was bound or listens. -/
theorem bindAll_allOrNone_iff (calls : List (A × Answers)) (socks : List Socket) :
    AllOrNone family calls socks (bindAll family calls ⟨socks, []⟩) ↔
      (∀ c ∈ calls, c.2.works = true) ∨
        (socks = [] ∧ ∀ c ∈ calls, c.2.bound = true ∨ c.2.listening = true) := by
  rw [bindAll, foldl_bindOne, List.nil_append]
  dsimp only
  by_cases hworks : ∀ c ∈ calls, c.2.works = true
  · have hlistening : calls.filter (·.2.listening) = calls := by
      rw [List.filter_eq_self]
      intro c hc
      exact (Bool.and_eq_true_iff.mp (hworks c hc)).2
    rw [flatMap_failsOf_eq_nil.mpr hworks, hlistening, if_neg (by simp)]
    refine iff_of_true ⟨iff_of_true rfl hworks, fun _ => rfl, nofun⟩ (.inl hworks)
  · have hfails : calls.flatMap failsOf ≠ [] := fun hnil => hworks (flatMap_failsOf_eq_nil.mp hnil)
    rw [if_pos hfails, or_iff_right hworks, ← flatMap_failsOf_iff]
    constructor
    · intro hall
      rcases hall.2.2 rfl with ⟨hsocks, hreport⟩
      exact ⟨hsocks.symm, hreport⟩
    · rintro ⟨rfl, hreport⟩
      exact ⟨iff_of_false nofun hworks, nofun, fun _ => ⟨rfl, hreport⟩⟩

/-- An address that can neither be bound nor listened at is reported twice, and a failure drops the
socket of an earlier call. -/
theorem reported_twice :
    let family : ℤ → ℤ := id
    let taken : Answers := ⟨some 4, false, false⟩
    let unbound : Answers := ⟨some 4, false, true⟩
    (bindAll family [(2, taken)] ⟨[], []⟩).2.fails = [2, 2] ∧
      (bindAll family [(2, unbound)] ⟨[⟨2, some 3⟩], []⟩).2.socks = [] ∧
      ¬AllOrNone family [(2, taken)] [] (bindAll family [(2, taken)] ⟨[], []⟩) ∧
      ¬AllOrNone family [(2, unbound)] [⟨2, some 3⟩]
        (bindAll family [(2, unbound)] ⟨[⟨2, some 3⟩], []⟩) := by
  refine ⟨by decide, by decide, ?_, ?_⟩
  · intro hall
    exact absurd (hall.2.2 (by decide)).2 (by decide)
  · intro hall
    exact absurd (hall.2.2 (by decide)).1 (by decide)

end Sylar.Net
