import Sylar.Ragel.Accepts

/-! # What an expression does at a byte

An expression with actions is matched in several ways at once. What can remain of it after a word
is a list of expressions, and the actions at the next byte are those of all of them. Inside a frame,
where the rest of the grammar stays as it is, the machine follows exactly these lists.
-/
namespace Sylar.Ragel

namespace Expr

variable {A : Type} {e f r x : Expr A} {u w : List UInt8} {b c : UInt8} {t : Transition A}

/-- No guards: no transition makes another one disappear. -/
@[simp] def calm : Expr A → Bool
  | eps => true
  | cls _ => true
  | seq e f => calm e && calm f
  | alt e f => calm e && calm f
  | star e => calm e
  | enter _ _ e => calm e
  | leave _ _ e => calm e
  | finish _ _ e => calm e
  | _ => false

theorem calm_cat (he : e.calm = true) (hf : f.calm = true) : (cat e f).calm = true := by
  cases e <;> simp_all [cat, calm]

theorem Moves.calm (h : Moves b e t) (he : e.calm = true) : t.low = [] ∧ t.rest.calm = true := by
  induction h with
  | cls h => exact ⟨rfl, rfl⟩
  | left h ih =>
    rw [Expr.calm, Bool.and_eq_true] at he
    exact ⟨(ih he.1).1, calm_cat (ih he.1).2 he.2⟩
  | right ho h ih =>
    rw [Expr.calm, Bool.and_eq_true] at he
    exact ih he.2
  | altLeft h ih =>
    rw [Expr.calm, Bool.and_eq_true] at he
    exact ih he.1
  | altRight h ih =>
    rw [Expr.calm, Bool.and_eq_true] at he
    exact ih he.2
  | star h ih => exact ⟨(ih he).1, calm_cat (ih he).2 he⟩
  | enter h ih => exact ih he
  | leave h ih => exact ih he
  | finish h ih => exact ih he
  | _ => cases he

/-- What can remain after a word. -/
def reach : Expr A → List UInt8 → List (Expr A)
  | e, [] => [e]
  | e, b :: w => (e.deriv b).flatMap fun t => reach t.rest w

theorem reach_append (e : Expr A) (u w : List UInt8) :
    e.reach (u ++ w) = (e.reach u).flatMap fun r => r.reach w := by
  induction u generalizing e with
  | nil => simp [reach]
  | cons b u ih =>
    rw [List.cons_append, reach, reach, List.flatMap_assoc]
    simp only [ih]

/-- The transitions at the byte behind a word, the actions at that byte, and the actions that are
pending behind the word. -/
def movesAt (e : Expr A) (w : List UInt8) (b : UInt8) : List (Transition A) :=
  (e.reach w).flatMap (deriv b)

def actsAt (e : Expr A) (w : List UInt8) (b : UInt8) : List (ℕ × A) :=
  (e.movesAt w b).flatMap Transition.acts

def exitActs (e : Expr A) (w : List UInt8) : List (ℕ × A) :=
  (e.reach w).flatMap fun r => r.null.getD []

theorem reach_snoc (e : Expr A) (w : List UInt8) (b : UInt8) :
    e.reach (w ++ [b]) = (e.movesAt w b).map Transition.rest := by
  rw [reach_append, movesAt, List.map_flatMap]
  simp [reach, List.map_eq_flatMap]

theorem accepts_iff_reach : e.accepts w = true ↔ ∃ r ∈ e.reach w, r.null.isSome = true := by
  induction w generalizing e with
  | nil => simp [accepts, reach]
  | cons b w ih =>
    simp only [accepts, reach, List.any_eq_true, List.mem_flatMap, ih]
    constructor
    · rintro ⟨t, ht, r, hr, hnull⟩
      exact ⟨r, ⟨t, ht, hr⟩, hnull⟩
    · rintro ⟨r, ⟨t, ht, hr⟩, hnull⟩
      exact ⟨t, ht, r, hr, hnull⟩

theorem reach_ne_nil (h : e.accepts (w ++ u) = true) : e.reach w ≠ [] := by
  intro hnil
  rcases accepts_iff_reach.mp h with ⟨r, hr, -⟩
  rw [reach_append, hnil] at hr
  cases hr

/-- What holds of an expression and passes to what its transitions leave holds of what remains. -/
theorem reach_induction {P : Expr A → Prop} (hstep : ∀ e b t, P e → t ∈ e.deriv b → P t.rest)
    (he : P e) : ∀ r ∈ e.reach w, P r := by
  induction w generalizing e with
  | nil =>
    intro r hr
    rw [List.mem_singleton.mp hr]
    exact he
  | cons b w ih =>
    intro r hr
    rcases List.mem_flatMap.mp hr with ⟨t, ht, hr⟩
    exact ih (hstep e b t he ht) r hr

theorem calm_of_reach (he : e.calm = true) : ∀ r ∈ e.reach w, r.calm = true :=
  reach_induction (fun _ _ _ he ht => ((moves_of_mem_deriv ht).calm he).2) he

theorem avoids_of_reach (he : e.avoids c = true) : ∀ r ∈ e.reach w, r.avoids c = true :=
  reach_induction (fun _ _ _ he ht => ((moves_of_mem_deriv ht).avoids he).2) he

theorem embedded_of_reach : ∀ r ∈ e.reach w, r.embedded ⊆ e.embedded :=
  reach_induction (P := fun r => r.embedded ⊆ e.embedded)
    (fun _ _ _ he ht => List.Subset.trans (moves_of_mem_deriv ht).embedded.2 he)
    (List.Subset.refl _)

theorem low_of_movesAt (he : e.calm = true) (ht : t ∈ e.movesAt w b) : t.low = [] := by
  rcases List.mem_flatMap.mp ht with ⟨r, hr, ht⟩
  exact ((moves_of_mem_deriv ht).calm (calm_of_reach he r hr)).1

theorem actsAt_subset : e.actsAt w b ⊆ e.embedded := by
  intro x hx
  rcases List.mem_flatMap.mp hx with ⟨t, ht, hx⟩
  rcases List.mem_flatMap.mp ht with ⟨r, hr, ht⟩
  exact embedded_of_reach r hr ((moves_of_mem_deriv ht).embedded.1 hx)

theorem exitActs_subset : e.exitActs w ⊆ e.embedded := by
  intro x hx
  rcases List.mem_flatMap.mp hx with ⟨r, hr, hx⟩
  cases hnull : r.null with
  | none => simp [hnull] at hx
  | some o =>
    rw [hnull] at hx
    exact embedded_of_reach r hr (mem_null hnull hx)

section Sequence

theorem deriv_cat (e f : Expr A) (b : UInt8) : (cat e f).deriv b =
    ((e.deriv b).map fun t => { t with rest := cat t.rest f }) ++
      match e.null with
      | some o => (f.deriv b).map fun t => { t with acts := o ++ t.acts }
      | none => [] := by
  cases e with
  | eps => simp [cat, deriv, null]
  | _ => rfl

theorem null_cat (e f : Expr A) :
    (cat e f).null = e.null.bind fun o => f.null.map (o ++ ·) := by
  have hseq (e : Expr A) : (seq e f).null = e.null.bind fun o => f.null.map (o ++ ·) := by
    rw [null]
    cases e.null <;> cases f.null <;> rfl
  cases e with
  | eps => simp [cat, null]
  | _ => exact hseq _

theorem accepts_alt : (alt e f).accepts w = (e.accepts w || f.accepts w) := by
  cases w with
  | nil =>
    rw [accepts, accepts, accepts, null]
    cases e.null <;> cases f.null <;> rfl
  | cons b w => rw [accepts, accepts, accepts, deriv, List.any_append]

theorem accepts_cls {c : Cls} :
    (cls c : Expr A).accepts w = true ↔ ∃ b, c.mem b = true ∧ w = [b] := by
  cases w with
  | nil => simp [accepts, null]
  | cons b w =>
    rw [accepts, deriv]
    by_cases hb : c.mem b = true
    · cases w <;> simp [hb, accepts, null, deriv]
    · simp [hb]

theorem accepts_cat : (cat e f).accepts w = true ↔
    ∃ u v, w = u ++ v ∧ e.accepts u = true ∧ f.accepts v = true := by
  induction w generalizing e with
  | nil =>
    have hnil (u v : List UInt8) : [] = u ++ v ↔ u = [] ∧ v = [] := by
      rw [eq_comm, List.append_eq_nil_iff]
    simp only [hnil, accepts, null_cat]
    constructor
    · intro h
      refine ⟨[], [], ⟨rfl, rfl⟩, ?_⟩
      cases he : e.null <;> cases hf : f.null <;> simp_all [accepts]
    · rintro ⟨u, v, ⟨rfl, rfl⟩, he, hf⟩
      rw [accepts] at he hf
      cases he' : e.null <;> cases hf' : f.null <;> simp_all
  | cons b w ih =>
    rw [accepts, deriv_cat, List.any_append, Bool.or_eq_true, List.any_map]
    constructor
    · rintro (h | h)
      · rcases List.any_eq_true.mp h with ⟨t, ht, h⟩
        rcases ih.mp h with ⟨u, v, rfl, hu, hv⟩
        refine ⟨b :: u, v, rfl, ?_, hv⟩
        rw [accepts, List.any_eq_true]
        exact ⟨t, ht, hu⟩
      · refine ⟨[], b :: w, rfl, ?_, ?_⟩
        · rw [accepts]
          cases he : e.null <;> simp_all
        · cases he : e.null with
          | none => simp [he] at h
          | some o =>
            rw [he, List.any_map] at h
            exact h
    · rintro ⟨u, v, huv, hu, hv⟩
      cases u with
      | nil =>
        right
        rw [accepts] at hu
        rcases Option.isSome_iff_exists.mp hu with ⟨o, ho⟩
        rw [ho, List.any_map]
        rw [List.nil_append] at huv
        rw [← huv] at hv
        exact hv
      | cons c u =>
        left
        rw [List.cons_append, List.cons.injEq] at huv
        rcases huv with ⟨rfl, rfl⟩
        rw [accepts, List.any_eq_true] at hu
        rcases hu with ⟨t, ht, hu⟩
        rw [List.any_eq_true]
        exact ⟨t, ht, ih.mpr ⟨u, v, rfl, hu, hv⟩⟩

theorem accepts_seq : (seq e f).accepts w = true ↔
    ∃ u v, w = u ++ v ∧ e.accepts u = true ∧ f.accepts v = true := by
  rw [← accepts_cat]
  cases e with
  | eps =>
    cases w with
    | nil =>
      rw [accepts, accepts, cat, null, null]
      cases f.null <;> simp
    | cons b w => simp [accepts, cat, deriv, null]
  | _ => rfl

theorem accepts_word {bs : List UInt8} : (word bs : Expr A).accepts w = true ↔ w = bs := by
  have hlit (b c : UInt8) : (Cls.range b b).mem c = true ↔ c = b := by
    rw [Cls.mem, Bool.and_eq_true, decide_eq_true_eq, decide_eq_true_eq, ← UInt8.toNat_inj]
    omega
  induction bs generalizing w with
  | nil => cases w <;> simp [word, accepts, null, deriv]
  | cons b bs ih =>
    cases bs with
    | nil =>
      rw [word, lit, accepts_cls]
      simp [hlit]
    | cons b' bs =>
      rw [word, accepts_seq, lit]
      simp only [accepts_cls, hlit, ih]
      constructor
      · rintro ⟨_, _, rfl, ⟨_, rfl, rfl⟩, rfl⟩
        rfl
      · rintro rfl
        exact ⟨[b], _, rfl, ⟨b, rfl, rfl⟩, rfl⟩
      · simp

end Sequence

section Bare

/-- The expression with all numbers forgotten. -/
@[simp] def bare : Expr A → Expr A
  | eps => eps
  | cls c => cls c
  | seq e f => seq (bare e) (bare f)
  | alt e f => alt (bare e) (bare f)
  | star e => star (bare e)
  | enter _ a e => enter 0 a (bare e)
  | leave _ a e => leave 0 a (bare e)
  | finish _ a e => finish 0 a (bare e)
  | yields key e => yields key (bare e)
  | guardEntry key e => guardEntry key (bare e)
  | guardFinish key e => guardFinish key (bare e)

theorem bare_cat (e f : Expr A) : (cat e f).bare = cat e.bare f.bare := by
  cases e <;> rfl

theorem isSome_null_bare (e : Expr A) : e.bare.null.isSome = e.null.isSome := by
  have hseq (e f : Expr A) : (seq e f).null.isSome = (e.null.isSome && f.null.isSome) := by
    rw [null]
    cases e.null <;> cases f.null <;> rfl
  have halt (e f : Expr A) : (alt e f).null.isSome = (e.null.isSome || f.null.isSome) := by
    rw [null]
    cases e.null <;> cases f.null <;> rfl
  induction e with
  | seq e f ihe ihf => rw [bare, hseq, hseq, ihe, ihf]
  | alt e f ihe ihf => rw [bare, halt, halt, ihe, ihf]
  | _ => simp_all [bare, null]

theorem rests_bare (e : Expr A) (b : UInt8) :
    (e.bare.deriv b).map Transition.rest = (e.deriv b).map fun t => t.rest.bare := by
  induction e with
  | eps => rfl
  | cls c =>
    rw [bare, deriv]
    split_ifs <;> rfl
  | seq e f ihe ihf =>
    have hleft : (e.bare.deriv b).map (fun t => cat t.rest f.bare) =
        (e.deriv b).map fun t => cat t.rest.bare f.bare := by
      have hmap := congrArg (List.map fun r => cat r f.bare) ihe
      rw [List.map_map, List.map_map] at hmap
      exact hmap
    have hnull := isSome_null_bare e
    rw [bare, deriv, deriv, List.map_append, List.map_append, List.map_map, List.map_map]
    congr 1
    · simpa [Function.comp_def, bare_cat] using hleft
    · cases he : e.null with
      | none =>
        rw [he, Option.isSome_none, Option.isSome_eq_false_iff, Option.isNone_iff_eq_none] at hnull
        rw [hnull]
        rfl
      | some o =>
        rw [he, Option.isSome_some, Option.isSome_iff_exists] at hnull
        rcases hnull with ⟨o', ho'⟩
        rw [ho']
        dsimp only
        rw [List.map_map, List.map_map]
        exact ihf
  | alt e f ihe ihf => rw [bare, deriv, deriv, List.map_append, List.map_append, ihe, ihf]
  | star e ih =>
    have hmap := congrArg (List.map fun r => cat r (star e.bare)) ih
    rw [List.map_map, List.map_map] at hmap
    rw [bare, deriv, deriv, List.map_map, List.map_map]
    simpa [Function.comp_def, bare_cat, bare] using hmap
  | enter n a e ih =>
    rw [bare, deriv, deriv, List.map_map, List.map_map]
    exact ih
  | leave n a e ih =>
    have hmap := congrArg (List.map (leave 0 a)) ih
    rw [List.map_map, List.map_map] at hmap
    rw [bare, deriv, deriv, List.map_map, List.map_map]
    exact hmap
  | finish n a e ih =>
    have hmap := congrArg (List.map (finish 0 a)) ih
    rw [List.map_map, List.map_map] at hmap
    rw [bare, deriv, deriv, List.map_map, List.map_map]
    exact hmap
  | yields key e ih =>
    have hmap := congrArg (List.map (yields key)) ih
    rw [List.map_map, List.map_map] at hmap
    rw [bare, deriv, deriv, List.map_map, List.map_map]
    exact hmap
  | guardEntry key e ih =>
    rw [bare, deriv, deriv, List.map_map, List.map_map]
    exact ih
  | guardFinish key e ih =>
    have hmap := congrArg (List.map (guardFinish key)) ih
    rw [List.map_map, List.map_map] at hmap
    rw [bare, deriv, deriv, List.map_map, List.map_map]
    exact hmap

/-- The numbers only order the actions. -/
theorem accepts_bare (e : Expr A) (w : List UInt8) : e.bare.accepts w = e.accepts w := by
  induction w generalizing e with
  | nil => exact isSome_null_bare e
  | cons b w ih =>
    have hrests := congrArg (fun l => l.any fun r => r.accepts w) (rests_bare e b)
    simpa [accepts, List.any_map, Function.comp_def, ih] using hrests

end Bare

/-- A frame: what is put into it moves inside it, and leaves it as the empty word would. -/
structure Frame (C : Expr A → Expr A) : Prop where
  null : ∀ r, (C r).null = r.null.bind fun o => (C eps).null.map (o ++ ·)
  deriv : ∀ b r, (C r).deriv b = ((r.deriv b).map fun t => { t with rest := C t.rest }) ++
    match r.null with
    | some o => ((C eps).deriv b).map fun t => { t with acts := o ++ t.acts }
    | none => []

section Frames

variable {C : Expr A → Expr A}

theorem frame_id : Frame fun r : Expr A => r where
  null := by
    intro r
    cases r.null <;> simp [Expr.null]
  deriv := by
    intro b r
    cases r.null <;> simp [Expr.deriv]

theorem Frame.cat (h : Frame C) (f : Expr A) : Frame fun r => cat (C r) f where
  null := by
    intro r
    rw [null_cat, h.null r, null_cat]
    cases r.null <;> cases (C eps).null <;> cases f.null <;> simp
  deriv := by
    intro b r
    rw [deriv_cat, h.deriv b r, h.null r, List.map_append, List.map_map, deriv_cat]
    cases r.null with
    | none => simp [Function.comp_def]
    | some o => cases (C eps).null <;> simp [Function.comp_def]

theorem Frame.seq (h : Frame C) (hne : ∀ r, C r ≠ eps) (f : Expr A) :
    Frame fun r => seq (C r) f := by
  have hcat : (fun r => Expr.seq (C r) f) = fun r => Expr.cat (C r) f :=
    funext fun r => (cat_of_ne (hne r)).symm
  rw [hcat]
  exact h.cat f

theorem Frame.leave (h : Frame C) (n : ℕ) (a : A) : Frame fun r => leave n a (C r) where
  null := by
    intro r
    rw [Expr.null, h.null r, Expr.null]
    cases r.null <;> cases (C eps).null <;> simp
  deriv := by
    intro b r
    rw [Expr.deriv, h.deriv b r, List.map_append, List.map_map, Expr.deriv]
    cases r.null with
    | none => rfl
    | some o => simp [Function.comp_def]

theorem Frame.finish (h : Frame C) (hnull : (C eps).null = none) (n : ℕ) (a : A) :
    Frame fun r => finish n a (C r) where
  null := h.null
  deriv := by
    intro b r
    -- what follows the hole is never passed, so nothing inside it is finished
    have hinside (r : Expr A) : (C r).null = none := by
      rw [h.null r, hnull]
      cases r.null <;> rfl
    rw [Expr.deriv, h.deriv b r, List.map_append, List.map_map, Expr.deriv]
    congr 1
    · simp [hinside]
    · cases r.null with
      | none => rfl
      | some o =>
        dsimp only
        rw [List.map_map, List.map_map]
        apply List.map_congr_left
        intro t _
        dsimp only [Function.comp_apply]
        split_ifs <;> simp

end Frames

end Expr

section Within

open Sylar.Ragel.Expr

variable {A : Type} [DecidableEq A] {C : Expr A → Expr A} {e : Expr A} {w : List UInt8}
  {s : State A} {b : UInt8}

omit [DecidableEq A] in
theorem live_of_low {ts : List (Transition A)} (h : ∀ t ∈ ts, t.low = []) : live ts = ts := by
  rw [live, List.filter_eq_self]
  intro t ht
  simp [Transition.beats, h t ht]

theorem step_of_low {ts : List (Transition A)} (hts : s.flatMap (deriv b) = ts) (hne : ts ≠ [])
    (h : ∀ t ∈ ts, t.low = []) :
    step s b = some ((ts.map Transition.rest).eraseDups, actionsOf ts) := by
  rw [step, hts, live_of_low h]
  cases ts with
  | nil => exact absurd rfl hne
  | cons t ts => rfl

/-- The machine is inside a frame, behind the word `w` of the expression in it. -/
def Within (C : Expr A → Expr A) (e : Expr A) (w : List UInt8) (s : State A) : Prop :=
  ∀ x, x ∈ s ↔ ∃ r ∈ e.reach w, C r = x

omit [DecidableEq A] in
theorem within_singleton (C : Expr A → Expr A) (e : Expr A) : Within C e [] [C e] := by
  intro x
  simp [reach, eq_comm]

omit [DecidableEq A] in
theorem Within.mem_moves (hC : Frame C) (h : Within C e w s) {t : Transition A} :
    t ∈ s.flatMap (deriv b) ↔
      (∃ t' ∈ e.movesAt w b, { t' with rest := C t'.rest } = t) ∨
        ∃ r ∈ e.reach w, ∃ o, r.null = some o ∧
          ∃ t' ∈ (C eps).deriv b, { t' with acts := o ++ t'.acts } = t := by
  simp only [List.mem_flatMap, h _, movesAt]
  constructor
  · rintro ⟨_, ⟨r, hr, rfl⟩, ht⟩
    rw [hC.deriv b r] at ht
    rcases List.mem_append.mp ht with ht | ht
    · rcases List.mem_map.mp ht with ⟨t', ht', rfl⟩
      exact .inl ⟨t', ⟨r, hr, ht'⟩, rfl⟩
    · cases hnull : r.null with
      | none =>
        rw [hnull] at ht
        cases ht
      | some o =>
        rw [hnull] at ht
        exact .inr ⟨r, hr, o, hnull, List.mem_map.mp ht⟩
  · rintro (⟨t', ⟨r, hr, ht'⟩, rfl⟩ | ⟨r, hr, o, hnull, t', ht', rfl⟩)
    · refine ⟨C r, ⟨r, hr, rfl⟩, ?_⟩
      rw [hC.deriv b r]
      exact List.mem_append_left _ (List.mem_map_of_mem ht')
    · refine ⟨C r, ⟨r, hr, rfl⟩, ?_⟩
      rw [hC.deriv b r, hnull]
      exact List.mem_append_right _ (List.mem_map_of_mem ht')

/-- A byte that does not leave the frame: the actions are those of the expression. -/
theorem Within.step (hC : Frame C) (he : e.calm = true) (h : Within C e w s)
    (hb : (C eps).deriv b = []) (hne : e.reach (w ++ [b]) ≠ []) :
    ∃ s' ts, step s b = some (s', actionsOf ts) ∧ Within C e (w ++ [b]) s' ∧
      ∀ x, (∃ t ∈ ts, x ∈ t.acts) ↔ x ∈ e.actsAt w b := by
  have hmem (t : Transition A) : t ∈ s.flatMap (deriv b) ↔
      ∃ t' ∈ e.movesAt w b, { t' with rest := C t'.rest } = t := by
    rw [h.mem_moves hC, hb]
    simp
  have hmoves : s.flatMap (deriv b) ≠ [] := by
    rw [reach_snoc, ne_eq, List.map_eq_nil_iff] at hne
    rcases List.exists_mem_of_ne_nil _ hne with ⟨t, ht⟩
    exact List.ne_nil_of_mem ((hmem _).mpr ⟨t, ht, rfl⟩)
  have hlow (t : Transition A) (ht : t ∈ s.flatMap (deriv b)) : t.low = [] := by
    rcases (hmem t).mp ht with ⟨t', ht', rfl⟩
    exact low_of_movesAt (t := t') he ht'
  refine ⟨_, _, step_of_low rfl hmoves hlow, ?_, ?_⟩
  · intro x
    rw [List.mem_eraseDups, List.mem_map, reach_snoc]
    simp only [hmem, List.mem_map]
    constructor
    · rintro ⟨_, ⟨t, ht, rfl⟩, rfl⟩
      exact ⟨t.rest, ⟨t, ht, rfl⟩, rfl⟩
    · rintro ⟨_, ⟨t, ht, rfl⟩, rfl⟩
      exact ⟨_, ⟨t, ht, rfl⟩, rfl⟩
  · intro x
    rw [actsAt, List.mem_flatMap]
    constructor
    · rintro ⟨t, ht, hx⟩
      rcases (hmem t).mp ht with ⟨t', ht', rfl⟩
      exact ⟨t', ht', hx⟩
    · rintro ⟨t', ht', hx⟩
      exact ⟨_, (hmem _).mpr ⟨t', ht', rfl⟩, hx⟩

/-- A byte that only leaves the frame: what was pending is executed there. -/
theorem Within.exit (hC : Frame C) (h : Within C e w s) (haccepts : e.accepts w = true)
    (havoids : e.avoids b = true) {r : Expr A} {out : List (ℕ × A)} (hne : (C eps).deriv b ≠ [])
    (hout : ∀ t ∈ (C eps).deriv b, t.rest = r ∧ t.acts = out ∧ t.low = []) :
    ∃ ts, Ragel.step s b = some ([r], actionsOf ts) ∧
      ∀ x, (∃ t ∈ ts, x ∈ t.acts) ↔ x ∈ e.exitActs w ∨ x ∈ out := by
  have hmem (t' : Transition A) : t' ∈ s.flatMap (deriv b) ↔ ∃ r ∈ e.reach w, ∃ o,
      r.null = some o ∧ ∃ t ∈ (C eps).deriv b, { t with acts := o ++ t.acts } = t' := by
    have hnone : e.movesAt w b = [] := by
      rw [movesAt, List.flatMap_eq_nil_iff]
      intro r hr
      exact deriv_of_avoids (avoids_of_reach havoids r hr)
    rw [h.mem_moves hC, hnone]
    simp
  rcases accepts_iff_reach.mp haccepts with ⟨r₀, hr₀, hnull₀⟩
  rcases Option.isSome_iff_exists.mp hnull₀ with ⟨o₀, ho₀⟩
  rcases List.exists_mem_of_ne_nil _ hne with ⟨t₀, ht₀⟩
  have hthere := (hmem _).mpr ⟨r₀, hr₀, o₀, ho₀, t₀, ht₀, rfl⟩
  have hall (t' : Transition A) (ht' : t' ∈ s.flatMap (deriv b)) : t'.rest = r ∧ t'.low = [] := by
    rcases (hmem t').mp ht' with ⟨r₁, hr₁, o, ho, t, ht, rfl⟩
    exact ⟨(hout t ht).1, (hout t ht).2.2⟩
  have hrests : ((s.flatMap (deriv b)).map Transition.rest).eraseDups = [r] := by
    rcases List.exists_cons_of_ne_nil (List.ne_nil_of_mem hthere) with ⟨y, l, hl⟩
    rw [hl, List.forall_mem_cons] at hall
    rw [hl, List.map_cons, List.eraseDups_cons, hall.1.1, List.filter_eq_nil_iff.mpr]
    · rfl
    · intro y hy
      rcases List.mem_map.mp hy with ⟨z, hz, rfl⟩
      simp [(hall.2 z hz).1]
  refine ⟨s.flatMap (deriv b), ?_, ?_⟩
  · rw [step_of_low rfl (List.ne_nil_of_mem hthere) fun t ht => (hall t ht).2, hrests]
  · intro x
    rw [exitActs, List.mem_flatMap]
    constructor
    · rintro ⟨t', ht', hx⟩
      rcases (hmem t').mp ht' with ⟨r₁, hr₁, o, ho, t, ht, rfl⟩
      rcases List.mem_append.mp hx with hx | hx
      · left
        exact ⟨r₁, hr₁, by rw [ho]; exact hx⟩
      · rw [(hout t ht).2.1] at hx
        exact .inr hx
    · rintro (⟨r₁, hr₁, hx⟩ | hx)
      · cases ho : r₁.null with
        | none => simp [ho] at hx
        | some o =>
          rw [ho] at hx
          exact ⟨_, (hmem _).mpr ⟨r₁, hr₁, o, ho, t₀, ht₀, rfl⟩, List.mem_append_left _ hx⟩
      · refine ⟨_, hthere, List.mem_append_right _ ?_⟩
        rw [(hout t₀ ht₀).2.1]
        exact hx

/-- What leaving a frame at a byte does, if there is one way to leave it. -/
def wayOut (C : Expr A → Expr A) (b : UInt8) : Option (State A × List A) :=
  match (C eps).deriv b with
  | [t] =>
    if t.low = [] ∧ (t.acts.Pairwise fun x y => x.1 < y.1) ∧ (t.acts.map Prod.snd).Nodup then
      some ([t.rest], t.acts.map Prod.snd)
    else none
  | _ => none

theorem wayOut_eq_some {s' : State A} {as : List A}
    (h : wayOut C b = some (s', as)) :
    ∃ t, (C eps).deriv b = [t] ∧ t.low = [] ∧ (t.acts.Pairwise fun x y => x.1 < y.1) ∧
      (t.acts.map Prod.snd).Nodup ∧ s' = [t.rest] ∧ as = t.acts.map Prod.snd := by
  rw [wayOut] at h
  split at h
  case h_1 t ht =>
    split_ifs at h with hok
    cases h
    exact ⟨t, ht, hok.1, hok.2.1, hok.2.2, rfl, rfl⟩
  case h_2 => cases h

/-- The same, with the one way out as it is computed. -/
theorem Within.leave (hC : Frame C) (h : Within C e w s) (haccepts : e.accepts w = true)
    (havoids : e.avoids b = true) {s' : State A} {as : List A}
    (hout : wayOut C b = some (s', as)) :
    ∃ as', Ragel.step s b = some (s', as') ∧
      ∀ a ∈ as', (∃ n, (n, a) ∈ e.exitActs w) ∨ a ∈ as := by
  rcases wayOut_eq_some hout with ⟨t, ht, hlow, -, -, rfl, rfl⟩
  have hone : ∀ t' ∈ (C eps).deriv b, t'.rest = t.rest ∧ t'.acts = t.acts ∧ t'.low = [] := by
    rw [ht]
    exact List.forall_mem_singleton.mpr ⟨rfl, rfl, hlow⟩
  rcases h.exit hC haccepts havoids (by simp [ht]) hone with ⟨ts, hstep, hacts⟩
  refine ⟨_, hstep, ?_⟩
  intro a ha
  rcases mem_actionsOf.mp ha with ⟨t', ht', n, hn⟩
  rcases (hacts (n, a)).mp ⟨t', ht', hn⟩ with hn | hn
  · exact .inl ⟨n, hn⟩
  · exact .inr (List.mem_map_of_mem hn)

/-- A word that does not leave the frame: its actions are among those of the expression. -/
theorem Within.sweep (hC : Frame C) (he : e.calm = true) {breaks : A → Bool}
    (hbreaks : ∀ x ∈ e.embedded, breaks x.2 = false) {u : List UInt8} (h : Within C e w s)
    (hu : ∀ b ∈ u, (C eps).deriv b = []) (haccepts : e.accepts (w ++ u) = true) (p : ℕ) :
    ∃ s' l, Within C e (w ++ u) s' ∧ (∀ ap ∈ l, ∃ n, (n, ap.1) ∈ e.embedded) ∧
      ∀ rest, sweep breaks s p (u ++ rest) =
        (l ++ (Ragel.sweep breaks s' (p + u.length) rest).1,
          (Ragel.sweep breaks s' (p + u.length) rest).2) := by
  induction u generalizing w s p with
  | nil =>
    rw [List.append_nil]
    exact ⟨s, [], h, nofun, fun _ => rfl⟩
  | cons b u ih =>
    rw [List.forall_mem_cons] at hu
    rw [List.append_cons] at haccepts
    rcases h.step hC he hu.1 (reach_ne_nil haccepts) with ⟨s₁, ts, hstep, h₁, hacts⟩
    rcases ih h₁ hu.2 haccepts (p + 1) with ⟨s', l, h', hl, hsweep⟩
    have hhere : ∀ a ∈ actionsOf ts, ∃ n, (n, a) ∈ e.embedded := by
      intro a ha
      rcases mem_actionsOf.mp ha with ⟨t, ht, n, hn⟩
      exact ⟨n, actsAt_subset ((hacts _).mp ⟨t, ht, hn⟩)⟩
    have hcalm : (actionsOf ts).any breaks = false := by
      rw [List.any_eq_false]
      intro a ha
      rcases hhere a ha with ⟨n, hn⟩
      rw [hbreaks _ hn]
      exact Bool.false_ne_true
    refine ⟨s', (actionsOf ts).map (fun a => (a, p)) ++ l, ?_, ?_, ?_⟩
    · rw [List.append_cons]
      exact h'
    · intro ap hap
      rcases List.mem_append.mp hap with hap | hap
      · rcases List.mem_map.mp hap with ⟨a, ha, rfl⟩
        exact hhere a ha
      · exact hl ap hap
    · intro rest
      rw [List.cons_append, sweep_calm hstep hcalm, hsweep, List.length_cons, Nat.add_right_comm,
        ← Nat.add_assoc, List.append_assoc]

end Within

end Sylar.Ragel
