import Mathlib.Data.List.Induction
import Sylar.Memory.Writes

/-! # `ServletDispatcher`

Servlets are registered for paths and for glob patterns. The patterns are kept in a vector from
which adding and deleting remove the first entry of a pattern, so that the vector holds every pattern
once, in the order in which the patterns were last added.
-/
namespace Sylar.Http
open Memory

variable {S : Type}

/-- The path or the pattern of a servlet. -/
abbrev ServletUri := List UInt8

structure ServletDispatcher (S : Type) where
  datas : ServletUri → Option S
  globs : List (ServletUri × S)
  default : S

/-- The calls that change a dispatcher. A servlet that is made of a callback is one of the `S`. -/
inductive ServletCall (S : Type) where
  | addServlet (uri : ServletUri) (servlet : S)
  | addGlobServlet (uri : ServletUri) (servlet : S)
  | delServlet (uri : ServletUri)
  | delGlobServlet (uri : ServletUri)
  | setDefault (servlet : S)

namespace ServletDispatcher

/-- A new dispatcher, whose default is a `ServletNotFound`. -/
def fresh (notFound : S) : ServletDispatcher S := ⟨fun _ => none, [], notFound⟩

variable (d : ServletDispatcher S)

def addServlet (uri : ServletUri) (servlet : S) : ServletDispatcher S :=
  { d with datas := Function.update d.datas uri (some servlet) }

/-- The loop that erases the first entry of a pattern. -/
def eraseGlob (uri : ServletUri) : List (ServletUri × S) := d.globs.eraseP (·.1 == uri)

def addGlobServlet (uri : ServletUri) (servlet : S) : ServletDispatcher S :=
  { d with globs := d.eraseGlob uri ++ [(uri, servlet)] }

def delServlet (uri : ServletUri) : ServletDispatcher S :=
  { d with datas := Function.update d.datas uri none }

def delGlobServlet (uri : ServletUri) : ServletDispatcher S := { d with globs := d.eraseGlob uri }

def setDefault (servlet : S) : ServletDispatcher S := { d with default := servlet }

/-- `getMatchedServlet`, for some `fnmatch` of a pattern and a path. -/
def getMatchedServlet (fnmatch : ServletUri → ServletUri → Bool) (uri : ServletUri) : S :=
  match d.datas uri with
  | some servlet => servlet
  | none =>
    match d.globs.find? fun g => fnmatch g.1 uri with
    | some g => g.2
    | none => d.default

def apply : ServletCall S → ServletDispatcher S
  | .addServlet uri servlet => d.addServlet uri servlet
  | .addGlobServlet uri servlet => d.addGlobServlet uri servlet
  | .delServlet uri => d.delServlet uri
  | .delGlobServlet uri => d.delGlobServlet uri
  | .setDefault servlet => d.setDefault servlet

def applyAll (calls : List (ServletCall S)) : ServletDispatcher S := calls.foldl apply d

end ServletDispatcher

namespace ServletCall

/-- What a call says about a path, a pattern or the default. -/
def path : ServletCall S → Option (ServletUri × Option S)
  | addServlet uri servlet => some (uri, some servlet)
  | delServlet uri => some (uri, none)
  | _ => none

def glob : ServletCall S → Option (ServletUri × Option S)
  | addGlobServlet uri servlet => some (uri, some servlet)
  | delGlobServlet uri => some (uri, none)
  | _ => none

def fallback : ServletCall S → Option (Unit × Option S)
  | setDefault servlet => some ((), some servlet)
  | _ => none

end ServletCall

section Spec

variable (fnmatch : ServletUri → ServletUri → Bool) (notFound : S) (calls : List (ServletCall S))

/-- The default servlet: the one set last, or the first one. -/
def DefaultServlet (s : S) : Prop :=
  (∃ i, Stands ServletCall.fallback calls i () s) ∨
    ((∀ i s', ¬Stands ServletCall.fallback calls i () s') ∧ s = notFound)

/-- A servlet stands for a pattern that matches, and no other such pattern was added before. -/
def FirstGlob (uri : ServletUri) (s : S) : Prop :=
  ∃ i pattern, Stands ServletCall.glob calls i pattern s ∧ fnmatch pattern uri = true ∧
    ∀ j pattern' s', Stands ServletCall.glob calls j pattern' s' → fnmatch pattern' uri = true → i ≤ j

/-- The servlet for a path: the one that stands for the path; otherwise the one that stands for the
first matching pattern; otherwise the default. -/
def Serves (uri : ServletUri) (s : S) : Prop :=
  (∃ i, Stands ServletCall.path calls i uri s) ∨
    ((∀ i s', ¬Stands ServletCall.path calls i uri s') ∧
      (FirstGlob fnmatch calls uri s ∨
        ((∀ i pattern s', Stands ServletCall.glob calls i pattern s' → fnmatch pattern uri = false) ∧
          DefaultServlet notFound calls s)))

end Spec

/-- A dispatcher holds what stands after a history. -/
structure ServletDispatcher.Follows (notFound : S) (calls : List (ServletCall S))
    (d : ServletDispatcher S) : Prop where
  datas : ∀ uri s, d.datas uri = some s ↔ ∃ i, Stands ServletCall.path calls i uri s
  globs : Lists (fun i g => Stands ServletCall.glob calls i g.1 g.2) d.globs
  default : DefaultServlet notFound calls d.default

namespace ServletDispatcher.Follows

variable {notFound : S} {calls : List (ServletCall S)} {d : ServletDispatcher S}

theorem fresh (notFound : S) : Follows notFound [] (ServletDispatcher.fresh notFound) where
  datas uri s := by
    refine iff_of_false nofun ?_
    rintro ⟨i, h⟩
    exact not_stands_nil h
  globs := .nil fun i g => not_stands_nil
  default := .inr ⟨fun i s => not_stands_nil, rfl⟩

theorem globs_nodup (h : Follows notFound calls d) : (d.globs.map Prod.fst).Nodup :=
  h.globs.nodup_map fun _ _ _ _ hg hg' heq => hg.index_eq (heq ▸ hg')

theorem apply_datas (d : ServletDispatcher S) (c : ServletCall S) :
    (d.apply c).datas = writeTo d.datas c.path := by
  cases c <;> rfl

/-- Where no pattern occurs twice, all of its entries are erased. -/
theorem eraseP_eq_filter {l : List (ServletUri × S)} (h : (l.map Prod.fst).Nodup)
    (uri : ServletUri) : l.eraseP (·.1 == uri) = l.filter (·.1 != uri) := by
  induction l with
  | nil => rfl
  | cons g l ih =>
    rw [List.map_cons, List.nodup_cons] at h
    by_cases hg : g.1 = uri
    · have hrest : l.filter (·.1 != uri) = l := by
        rw [List.filter_eq_self]
        intro g' hg'
        rw [bne_iff_ne]
        rintro heq
        exact h.1 (hg.trans heq.symm ▸ List.mem_map_of_mem hg')
      simp [hg, hrest]
    · simp [hg, ih h.2]

theorem eraseGlob_lists (h : Follows notFound calls d) (uri : ServletUri) :
    Lists (fun i g => Stands ServletCall.glob calls i g.1 g.2 ∧ (g.1 != uri) = true)
      (d.eraseGlob uri) := by
  rw [eraseGlob, eraseP_eq_filter h.globs_nodup]
  exact h.globs.filter _

theorem apply_globs (h : Follows notFound calls d) (c : ServletCall S) :
    Lists (fun i g => Stands ServletCall.glob (calls ++ [c]) i g.1 g.2) (d.apply c).globs := by
  cases c with
  | addGlobServlet uri servlet =>
    refine ((h.eraseGlob_lists uri).concat (n := calls.length) (fun i g hg => hg.1.lt_length)
      (uri, servlet)).congr fun i g => ?_
    rw [stands_concat_of_some (by rfl), bne_iff_ne, or_comm, Option.some.injEq, Prod.ext_iff,
      eq_comm (a := servlet)]
  | delGlobServlet uri =>
    refine (h.eraseGlob_lists uri).congr fun i g => ?_
    rw [stands_concat_of_some (by rfl), bne_iff_ne]
    simp
  | _ => exact h.globs.congr fun i g => stands_concat_of_none rfl

theorem default_concat {c : ServletCall S} (hc : c.fallback = none) {s : S} :
    DefaultServlet notFound (calls ++ [c]) s ↔ DefaultServlet notFound calls s := by
  simp only [DefaultServlet, stands_concat_of_none hc]

theorem apply_default (h : Follows notFound calls d) (c : ServletCall S) :
    DefaultServlet notFound (calls ++ [c]) (d.apply c).default := by
  cases c with
  | setDefault servlet => exact .inl ⟨_, stands_concat.mpr (.inl ⟨rfl, rfl⟩)⟩
  | _ => exact (default_concat rfl).mpr h.default

/-- A call keeps the dispatcher in step with the history. -/
theorem apply (h : Follows notFound calls d) (c : ServletCall S) :
    Follows notFound (calls ++ [c]) (d.apply c) where
  datas := by
    rw [apply_datas]
    exact writeTo_stands h.datas c
  globs := h.apply_globs c
  default := h.apply_default c

theorem applyAll (notFound : S) (calls : List (ServletCall S)) :
    Follows notFound calls ((ServletDispatcher.fresh notFound).applyAll calls) := by
  induction calls using List.reverseRecOn with
  | nil => exact fresh notFound
  | append_singleton calls c ih =>
    rw [ServletDispatcher.applyAll, List.foldl_concat]
    exact ih.apply c

theorem serves (h : Follows notFound calls d) (fnmatch : ServletUri → ServletUri → Bool)
    (uri : ServletUri) : Serves fnmatch notFound calls uri (d.getMatchedServlet fnmatch uri) := by
  rw [getMatchedServlet]
  cases hdata : d.datas uri with
  | some servlet => exact .inl ((h.datas uri servlet).mp hdata)
  | none =>
    refine .inr ⟨fun i s hs => ?_, ?_⟩
    · rw [(h.datas uri s).mpr ⟨i, hs⟩] at hdata
      cases hdata
    · cases hfind : d.globs.find? fun g => fnmatch g.1 uri with
      | some g =>
        rcases h.globs.find?_eq_some hfind with ⟨i, hg, hmatch, hfirst⟩
        exact .inl ⟨i, g.1, hg, hmatch, fun j pattern s => hfirst j (pattern, s)⟩
      | none =>
        refine .inr ⟨fun i pattern s hs => ?_, h.default⟩
        rw [List.find?_eq_none] at hfind
        exact Bool.eq_false_iff.mpr (hfind (pattern, s) (h.globs.mem.mpr ⟨i, hs⟩))

end ServletDispatcher.Follows

/-- After any calls no pattern is held twice, and the servlet for a path is the one that was added
last for the path itself, or for the pattern that matches and whose last addition is the earliest, or
the default. -/
theorem getMatchedServlet_serves (fnmatch : ServletUri → ServletUri → Bool) (notFound : S)
    (calls : List (ServletCall S)) (uri : ServletUri) :
    (((ServletDispatcher.fresh notFound).applyAll calls).globs.map Prod.fst).Nodup ∧
      Serves fnmatch notFound calls uri
        (((ServletDispatcher.fresh notFound).applyAll calls).getMatchedServlet fnmatch uri) := by
  have hfollows := ServletDispatcher.Follows.applyAll notFound calls
  exact ⟨hfollows.globs_nodup, hfollows.serves fnmatch uri⟩

end Sylar.Http
