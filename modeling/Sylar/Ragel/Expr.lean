import Mathlib.Data.List.Sort
import Mathlib.Tactic.TypeStar

/-! # Regular expressions with embedded actions

The expressions of the Ragel state machine compiler, with entering (`>`), leaving
(`%`) and finishing (`@`) actions and the guarded concatenations `:>` and `:>>`.
The machine of an expression runs all ways of matching the input at once; a
state is the list of the expressions that remain to be matched. On a byte the
actions of all transitions are executed, each once, in the order in which they
were embedded, after transitions of lower priority have been dropped.
-/
namespace Sylar.Ragel

/-- What all bytes of a list have is checked along the list, not over all bytes there are. -/
instance (priority := 2000) decidableForallMem (l : List UInt8) (p : UInt8 → Prop)
    [DecidablePred p] : Decidable (∀ b ∈ l, p b) :=
  List.decidableBAll p l

/-- Sets of bytes. -/
inductive Cls where
  | none
  | range (lo hi : UInt8)
  | union (c d : Cls)
  | diff (c d : Cls)
deriving DecidableEq, Repr

def Cls.mem : Cls → UInt8 → Bool
  | .none, _ => false
  | .range lo hi, b => lo.toNat ≤ b.toNat && b.toNat ≤ hi.toNat
  | .union c d, b => c.mem b || d.mem b
  | .diff c d, b => c.mem b && !d.mem b

def Cls.members (c : Cls) : List UInt8 := ((List.range 256).map UInt8.ofNat).filter c.mem

theorem Cls.mem_members {c : Cls} {b : UInt8} : b ∈ c.members ↔ c.mem b = true := by
  rw [members, List.mem_filter, and_iff_right_iff_imp]
  intro _
  exact List.mem_map.mpr ⟨b.toNat, List.mem_range.mpr b.toNat_lt, UInt8.ofNat_toNat⟩

/-- Expressions. The number of an action is its place in the order of embedding; the key of a
guard ties the two sides of a guarded concatenation together. -/
inductive Expr (A : Type) where
  | eps
  | cls (c : Cls)
  | seq (e f : Expr A)
  | alt (e f : Expr A)
  | star (e : Expr A)
  | enter (order : ℕ) (a : A) (e : Expr A)
  | leave (order : ℕ) (a : A) (e : Expr A)
  | finish (order : ℕ) (a : A) (e : Expr A)
  | yields (key : ℕ) (e : Expr A)
  | guardEntry (key : ℕ) (e : Expr A)
  | guardFinish (key : ℕ) (e : Expr A)
deriving DecidableEq, Repr

namespace Expr

variable {A : Type}

/-- A single byte. -/
def lit (b : UInt8) : Expr A := cls (.range b b)

def word : List UInt8 → Expr A
  | [] => eps
  | [b] => lit b
  | b :: bs => seq (lit b) (word bs)

def opt (e : Expr A) : Expr A := alt e eps
def plus (e : Expr A) : Expr A := seq e (star e)

/-- `e{n}`. -/
def times (e : Expr A) : ℕ → Expr A
  | 0 => eps
  | 1 => e
  | n + 1 => seq e (times e n)

/-- `e{0,n}`. -/
def upTo (e : Expr A) : ℕ → Expr A
  | 0 => eps
  | n + 1 => opt (seq e (upTo e n))

/-- `e > a`, `e % a` and `e @ a`, to be numbered. -/
def entering (e : Expr A) (a : A) : Expr A := enter 0 a e
def leaving (e : Expr A) (a : A) : Expr A := leave 0 a e
def finishing (e : Expr A) (a : A) : Expr A := finish 0 a e

/-- `e :> f`: `f` wins over `e` where it starts. -/
def entryGuarded (key : ℕ) (e f : Expr A) : Expr A := seq (yields key e) (guardEntry key f)

/-- `e :>> f`: `f` wins over `e` where it ends. -/
def finishGuarded (key : ℕ) (e f : Expr A) : Expr A := seq (yields key e) (guardFinish key f)

/-- Number the actions: entering ones before, the others after what they are embedded in. -/
def number : Expr A → ℕ → Expr A × ℕ
  | eps, n => (eps, n)
  | cls c, n => (cls c, n)
  | seq e f, n =>
    let (e', m) := number e n
    let (f', k) := number f m
    (seq e' f', k)
  | alt e f, n =>
    let (e', m) := number e n
    let (f', k) := number f m
    (alt e' f', k)
  | star e, n =>
    let (e', m) := number e n
    (star e', m)
  | enter _ a e, n =>
    let (e', m) := number e (n + 1)
    (enter n a e', m)
  | leave _ a e, n =>
    let (e', m) := number e n
    (leave m a e', m + 1)
  | finish _ a e, n =>
    let (e', m) := number e n
    (finish m a e', m + 1)
  | yields key e, n =>
    let (e', m) := number e n
    (yields key e', m)
  | guardEntry key e, n =>
    let (e', m) := number e n
    (guardEntry key e', m)
  | guardFinish key e, n =>
    let (e', m) := number e n
    (guardFinish key e', m)

/-- `none` if the expression does not match the empty string; otherwise the actions that are
pending when it is left. An entering action of an expression that matches the empty string is also
a leaving action of its start. -/
@[simp] def null : Expr A → Option (List (ℕ × A))
  | eps => some []
  | cls _ => none
  | seq e f =>
    match null e, null f with
    | some o, some o' => some (o ++ o')
    | _, _ => none
  | alt e f =>
    match null e, null f with
    | some o, some o' => some (o ++ o')
    | some o, none => some o
    | none, o => o
  | star e => some ((null e).getD [])
  | enter n a e => (null e).map ((n, a) :: ·)
  | leave n a e => (null e).map (· ++ [(n, a)])
  | finish _ _ e => null e
  | yields _ e => null e
  | guardEntry _ e => null e
  | guardFinish _ e => null e

end Expr

/-- A transition on some byte: what remains to be matched, the actions, and the keys under which
the transition has low and high priority. -/
structure Transition (A : Type) where
  rest : Expr A
  acts : List (ℕ × A)
  low : List ℕ
  high : List ℕ

namespace Expr

variable {A : Type}

/-- What remains of `seq e f` when `e` has shrunk. -/
def cat (e f : Expr A) : Expr A :=
  match e with
  | eps => f
  | _ => seq e f

theorem cat_of_ne {e f : Expr A} (h : e ≠ eps) : cat e f = seq e f := by
  cases e with
  | eps => exact absurd rfl h
  | _ => rfl

/-- The transitions of an expression on a byte. -/
@[simp] def deriv (b : UInt8) : Expr A → List (Transition A)
  | eps => []
  | cls c => if c.mem b then [⟨eps, [], [], []⟩] else []
  | seq e f =>
    (deriv b e).map (fun t => { t with rest := cat t.rest f }) ++
      match null e with
      | some o => (deriv b f).map fun t => { t with acts := o ++ t.acts }
      | none => []
  | alt e f => deriv b e ++ deriv b f
  | star e => (deriv b e).map fun t => { t with rest := cat t.rest (star e) }
  | enter n a e => (deriv b e).map fun t => { t with acts := (n, a) :: t.acts }
  | leave n a e => (deriv b e).map fun t => { t with rest := leave n a t.rest }
  | finish n a e => (deriv b e).map fun t => { t with
      rest := finish n a t.rest
      acts := if (null t.rest).isSome then t.acts ++ [(n, a)] else t.acts }
  | yields key e => (deriv b e).map fun t => { t with rest := yields key t.rest, low := key :: t.low }
  | guardEntry key e => (deriv b e).map fun t => { t with high := key :: t.high }
  | guardFinish key e => (deriv b e).map fun t => { t with
      rest := guardFinish key t.rest
      high := if (null t.rest).isSome then key :: t.high else t.high }

end Expr

section Machine

variable {A : Type}

/-- The first transition makes the second one disappear. -/
def Transition.beats (t t' : Transition A) : Bool := t.high.any fun key => t'.low.contains key

/-- The transitions that are left when priorities have been compared. -/
def live (ts : List (Transition A)) : List (Transition A) :=
  ts.filter fun t => !ts.any fun t' => t'.beats t

/-- A state of the machine: the expressions one of which has to match the rest of the input. -/
abbrev State (A : Type) := List (Expr A)

def start (e : Expr A) : State A := [(e.number 0).1]

def final (s : State A) : Bool := s.any fun e => e.null.isSome

variable [DecidableEq A]

/-- The actions of some transitions, in order and without repetition. -/
def actionsOf (ts : List (Transition A)) : List A :=
  (((ts.flatMap Transition.acts).insertionSort fun x y => x.1 ≤ y.1).map Prod.snd).eraseDups

/-- The transition of the machine on a byte, if there is one. -/
def step (s : State A) (b : UInt8) : Option (State A × List A) :=
  match live (s.flatMap (Expr.deriv b)) with
  | [] => none
  | ts => some ((ts.map Transition.rest).eraseDups, actionsOf ts)

end Machine

section Leads

variable {A : Type}

namespace Expr

def heads : Expr A → List Cls
  | eps => []
  | cls c => [c]
  | seq e f => heads e ++ if e.null.isSome then heads f else []
  | alt e f => heads e ++ heads f
  | star e => heads e
  | enter _ _ e => heads e
  | leave _ _ e => heads e
  | finish _ _ e => heads e
  | yields _ e => heads e
  | guardEntry _ e => heads e
  | guardFinish _ e => heads e

theorem deriv_congr {b b' : UInt8} {e : Expr A} (h : ∀ c ∈ e.heads, c.mem b = c.mem b') :
    e.deriv b = e.deriv b' := by
  induction e with
  | eps => rfl
  | cls c => rw [deriv, deriv, h c (List.mem_singleton_self c)]
  | seq e f ihe ihf =>
    rw [heads, List.forall_mem_append] at h
    rw [deriv, deriv, ihe h.1]
    cases he : e.null with
    | none => rfl
    | some o =>
      rw [he] at h
      rw [ihf h.2]
  | alt e f ihe ihf =>
    rw [heads, List.forall_mem_append] at h
    rw [deriv, deriv, ihe h.1, ihf h.2]
  | _ => simp_all [deriv, heads]

theorem deriv_eq_nil {b : UInt8} {e : Expr A} (h : ∀ c ∈ e.heads, c.mem b = false) :
    e.deriv b = [] := by
  induction e with
  | eps => rfl
  | cls c => rw [deriv, h c (List.mem_singleton_self c), if_neg Bool.false_ne_true]
  | seq e f ihe ihf =>
    rw [heads, List.forall_mem_append] at h
    rw [deriv, ihe h.1]
    cases he : e.null with
    | none => rfl
    | some o =>
      rw [he] at h
      rw [ihf h.2]
      rfl
  | alt e f ihe ihf =>
    rw [heads, List.forall_mem_append] at h
    rw [deriv, ihe h.1, ihf h.2]
    rfl
  | _ => simp_all [deriv, heads]

end Expr

variable [DecidableEq A] {s s' : State A} {as : List A} {c : Cls} {b : UInt8}

/-- Alternatives that cannot go on are dropped. -/
theorem step_append (h : ∀ c ∈ s.flatMap Expr.heads, c.mem b = false) :
    step (s ++ s') b = step s' b := by
  have hdead : s.flatMap (Expr.deriv b) = [] := by
    rw [List.flatMap_eq_nil_iff]
    intro e he
    apply Expr.deriv_eq_nil
    intro c hc
    exact h c (List.mem_flatMap.mpr ⟨e, he, hc⟩)
  rw [step, step, List.flatMap_append, hdead, List.nil_append]

/-- All bytes of a class do the same to a state, as one of them shows. -/
def leads (s : State A) (c : Cls) (s' : State A) (as : List A) : Bool :=
  match c.members with
  | [] => true
  | b :: bs => (bs.all fun b' => (s.flatMap Expr.heads).all fun c => c.mem b' == c.mem b) &&
      step s b = some (s', as)

theorem step_of_leads (h : leads s c s' as = true) (hb : c.mem b = true) :
    step s b = some (s', as) := by
  rw [← Cls.mem_members] at hb
  rw [leads] at h
  split at h
  case h_1 hnil =>
    rw [hnil] at hb
    cases hb
  case h_2 b₀ bs hcons =>
    rw [Bool.and_eq_true, decide_eq_true_eq, List.all_eq_true] at h
    rw [hcons] at hb
    rcases List.mem_cons.mp hb with rfl | hb
    · exact h.2
    · have hsame := h.1 b hb
      have hderiv : s.flatMap (Expr.deriv b) = s.flatMap (Expr.deriv b₀) := by
        rw [List.flatMap_def, List.flatMap_def, List.map_congr_left]
        intro e he
        apply Expr.deriv_congr
        intro c hc
        exact beq_iff_eq.mp (List.all_eq_true.mp hsame c (List.mem_flatMap.mpr ⟨e, he, hc⟩))
      rw [← h.2, step, step, hderiv]
end Leads

end Sylar.Ragel
