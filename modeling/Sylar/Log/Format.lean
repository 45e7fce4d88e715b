import Sylar.Log.Model

/-! # Patterns of a formatter

A pattern is a list of parts, and `LogFormatter::init` should give the items of its parts. It goes
over the text with an index, and after `%%` it goes on with the second of the two, which then
starts a placeholder: a pattern is read as it is meant if and only if it has no `%%`.
-/
namespace Sylar.Log
open Http (byte bytes)

/-- The names of placeholders. -/
inductive Name where
  | m | p | r | c | t | n | d | f | l | T | F | N
deriving DecidableEq, Repr

namespace Name

def letter : Name → UInt8
  | m => byte 'm' | p => byte 'p' | r => byte 'r' | c => byte 'c' | t => byte 't' | n => byte 'n'
  | d => byte 'd' | f => byte 'f' | l => byte 'l' | T => byte 'T' | F => byte 'F' | N => byte 'N'

/-- The item that a name stands for; the text in braces is the format of a date. -/
def item (fmt : List UInt8) : Name → FormatItem
  | m => .message | p => .level | r => .elapse | c => .name | t => .threadId | n => .newLine
  | d => .newDateTime fmt
  | f => .filename | l => .line | T => .tab | F => .fiberId | N => .threadName

end Name

/-- A byte that is not part of a name and does not belong to a format. -/
def EndsName (c : UInt8) : Prop :=
  LogFormatter.isAlpha c = false ∧ c ≠ byte '\x7b' ∧ c ≠ byte '\x7d'

instance (c : UInt8) : Decidable (EndsName c) := inferInstanceAs (Decidable (_ ∧ _))

inductive Part where
  | literal (w : List UInt8) (nonempty : w ≠ []) (clean : byte '%' ∉ w)
  | percent
  | plain (name : Name)
  | braced (name : Name) (fmt : List UInt8) (closed : byte '\x7d' ∉ fmt)

namespace Part

def text : Part → List UInt8
  | literal w _ _ => w
  | percent => [byte '%', byte '%']
  | plain name => [byte '%', name.letter]
  | braced name fmt _ => byte '%' :: name.letter :: byte '\x7b' :: (fmt ++ [byte '\x7d'])

/-- What may follow a placeholder without braces. -/
def Precedes : Part → Part → Prop
  | plain _, literal w _ _ => ∀ c ∈ w.head?, EndsName c
  | _, _ => True

end Part

structure Pattern where
  parts : List Part
  separated : parts.IsChain Part.Precedes

namespace Pattern

def textOf (ps : List Part) : List UInt8 := ps.flatMap Part.text

/-- The item of a run of literal bytes, if there are any. -/
def stringItem (run : List UInt8) : List FormatItem := if run = [] then [] else [.string run]

/-- The items of the parts that follow the literal bytes `run`. -/
def itemsOf : List UInt8 → List Part → List FormatItem
  | run, [] => stringItem run
  | run, .literal w _ _ :: ps => itemsOf (run ++ w) ps
  | run, .percent :: ps => itemsOf (run ++ [byte '%']) ps
  | run, .plain name :: ps => stringItem run ++ name.item [] :: itemsOf [] ps
  | run, .braced name fmt _ :: ps => stringItem run ++ name.item fmt :: itemsOf [] ps

def formatter (pat : Pattern) : LogFormatter := ⟨textOf pat.parts⟩

/-- `init` comes to an end, with the items of the parts and without an error. More rounds than
there are bytes make no difference to either loop. -/
structure Understood (pat : Pattern) : Prop where
  outer (rounds : ℕ) : pat.formatter.pattern.length ≤ rounds →
    (LogFormatter.parse pat.formatter.pattern rounds 0 ⟨[], [], false⟩).flush = pat.formatter.parsed
  inner (i rounds : ℕ) (l : LogFormatter.Placeholder) :
    pat.formatter.pattern.length ≤ l.n + rounds →
      LogFormatter.readPlaceholder pat.formatter.pattern i rounds l =
        LogFormatter.readPlaceholder pat.formatter.pattern i (pat.formatter.pattern.length - l.n) l
  noError : pat.formatter.isError = false
  items : pat.formatter.items = itemsOf [] pat.parts

end Pattern

namespace LogFormatter

/-- The inner loop from `l.n` on. -/
def reads (p : List UInt8) (i : ℕ) (l : Placeholder) : Placeholder :=
  readPlaceholder p i (p.length - l.n) l

/-- The placeholder at `i`. -/
def placeholderAt (p : List UInt8) (i : ℕ) : Placeholder := reads p i ⟨i + 1, 0, 0, [], []⟩

/-- What a placeholder makes of the variables of the outer loop. -/
def Parsed.place (s : Parsed) (str fmt : List UInt8) : Parsed :=
  { s.flush with vec := s.flush.vec ++ [(str, fmt, true)] }

/-- The outer loop from `i` on. -/
def scan (p : List UInt8) (i : ℕ) (s : Parsed) : Parsed := parse p (p.length - i) i s

variable {p u w fmt : List UInt8} {i rounds rounds' : ℕ} {c : UInt8} {s : Parsed} {l : Placeholder}

section Rounds

theorem le_readPlaceholder (l : Placeholder) : l.n ≤ (readPlaceholder p i rounds l).n := by
  induction rounds generalizing l with
  | zero => exact Nat.le_refl _
  | succ rounds ih =>
    rw [readPlaceholder]
    cases p[l.n]? with
    | none => exact Nat.le_refl _
    | some c =>
      dsimp only
      split_ifs
      · exact Nat.le_refl _
      · refine Nat.le_trans ?_ (ih _)
        exact Nat.le_succ _
      · exact Nat.le_succ _
      all_goals
        refine Nat.le_trans ?_ (ih _)
        exact Nat.le_succ _

theorem readPlaceholder_end (h : p.length ≤ l.n) : readPlaceholder p i rounds l = l := by
  cases rounds with
  | zero => rfl
  | succ rounds => rw [readPlaceholder, List.getElem?_eq_none h]

theorem readPlaceholder_rounds (h : p.length ≤ l.n + rounds) (h' : p.length ≤ l.n + rounds') :
    readPlaceholder p i rounds l = readPlaceholder p i rounds' l := by
  induction rounds generalizing l rounds' with
  | zero => rw [readPlaceholder_end h, readPlaceholder_end h]
  | succ rounds ih =>
    cases rounds' with
    | zero => rw [readPlaceholder_end h', readPlaceholder_end h']
    | succ rounds' =>
      rw [readPlaceholder, readPlaceholder]
      cases p[l.n]? with
      | none => rfl
      | some c =>
        dsimp only
        split_ifs
        · rfl
        · apply ih <;> dsimp only <;> omega
        · rfl
        all_goals apply ih <;> dsimp only <;> omega

theorem placeholderAt_eq :
    placeholderAt p i = readPlaceholder p i (p.length - (i + 1)) ⟨i + 1, 0, 0, [], []⟩ := rfl

theorem lt_placeholderAt : i < (placeholderAt p i).n :=
  le_readPlaceholder ⟨i + 1, 0, 0, [], []⟩

theorem parse_end (h : p.length ≤ i) : parse p rounds i s = s := by
  cases rounds with
  | zero => rfl
  | succ rounds => rw [parse, List.getElem?_eq_none h]

theorem parse_rounds (h : p.length ≤ i + rounds) (h' : p.length ≤ i + rounds') :
    parse p rounds i s = parse p rounds' i s := by
  induction rounds generalizing i s rounds' with
  | zero =>
    rw [Nat.add_zero] at h
    rw [parse_end h, parse_end h]
  | succ rounds ih =>
    cases rounds' with
    | zero =>
      rw [Nat.add_zero] at h'
      rw [parse_end h', parse_end h']
    | succ rounds' =>
      have hlt := lt_placeholderAt (p := p) (i := i)
      rw [parse, parse, Nat.sub_sub, ← placeholderAt_eq]
      cases p[i]? with
      | none => rfl
      | some c =>
        dsimp only
        split_ifs
        all_goals apply ih <;> omega

end Rounds

section Steps

theorem getElem?_of_drop (h : p.drop i = c :: u) : p[i]? = some c := by
  rw [← Nat.add_zero i, ← List.getElem?_drop, h]
  rfl

theorem drop_add_of_drop (h : p.drop i = w ++ u) : p.drop (i + w.length) = u := by
  rw [← List.drop_drop, h, List.drop_left]

theorem drop_succ_of_drop (h : p.drop i = c :: u) : p.drop (i + 1) = u :=
  drop_add_of_drop (w := [c]) h

theorem parse_scan (h : p.length ≤ i + rounds) : parse p rounds i s = scan p i s :=
  parse_rounds h (by omega)

theorem scan_nil (h : p.drop i = []) : scan p i s = s := parse_end (List.drop_eq_nil_iff.mp h)

/-- One round of the outer loop. -/
theorem scan_step (h : p.drop i = c :: u) :
    scan p i s =
      if c ≠ byte '%' then scan p (i + 1) { s with nstr := s.nstr ++ [c] }
      else if p[i + 1]? = some (byte '%') then
        scan p (i + 1) { s with nstr := s.nstr ++ [byte '%'] }
      else if (placeholderAt p i).fmtStatus = 0 then
        scan p (placeholderAt p i).n (s.place (placeholderAt p i).str (placeholderAt p i).fmt)
      else
        scan p (i + 1)
          { s with
            vec := s.vec ++ [(bytes "<<pattern_error>>", (placeholderAt p i).fmt, false)]
            error := true } := by
  have hlt : i < p.length := by
    rw [← List.drop_eq_nil_iff.not.trans Nat.not_le, h]
    exact List.cons_ne_nil _ _
  have hat := lt_placeholderAt (p := p) (i := i)
  obtain ⟨k, hk⟩ : ∃ k, p.length - i = k + 1 := ⟨p.length - i - 1, by omega⟩
  rw [scan, hk, parse, getElem?_of_drop h, Nat.sub_sub, ← placeholderAt_eq]
  dsimp only
  rw [parse_scan (by omega), parse_scan (by omega), parse_scan (by omega), parse_scan (by omega)]
  rfl

theorem scan_literal (h : p.drop i = w ++ u) (hw : byte '%' ∉ w) :
    scan p i s = scan p (i + w.length) { s with nstr := s.nstr ++ w } := by
  induction w generalizing i s with
  | nil => simp
  | cons c w ih =>
    rw [List.mem_cons, not_or] at hw
    rw [scan_step h, if_pos (Ne.symm hw.1), ih (drop_succ_of_drop h) hw.2, List.length_cons,
      List.append_assoc]
    congr 1
    omega

theorem scan_escape (h : p.drop i = byte '%' :: byte '%' :: u) :
    scan p i s = scan p (i + 1) { s with nstr := s.nstr ++ [byte '%'] } := by
  rw [scan_step h, if_neg (not_not_intro rfl),
    if_pos (getElem?_of_drop (drop_succ_of_drop h))]

/-- One round of the inner loop. -/
theorem reads_step (h : p.drop l.n = c :: u) :
    reads p i l =
      if l.fmtStatus = 0 ∧ !isAlpha c ∧ c ≠ byte '\x7b' ∧ c ≠ byte '\x7d' then
        { l with str := (p.drop (i + 1)).take (l.n - i - 1) }
      else if l.fmtStatus = 0 ∧ c = byte '\x7b' then
        reads p i
          { l with
            str := (p.drop (i + 1)).take (l.n - i - 1)
            fmtStatus := 1
            fmtBegin := l.n
            n := l.n + 1 }
      else if l.fmtStatus = 1 ∧ c = byte '\x7d' then
        { l with
          fmt := (p.drop (l.fmtBegin + 1)).take (l.n - l.fmtBegin - 1)
          fmtStatus := 0
          n := l.n + 1 }
      else
        reads p i
          { l with
            n := l.n + 1
            str := if u = [] ∧ l.str = [] then p.drop (i + 1) else l.str } := by
  have hlt : l.n < p.length := by
    rw [← List.drop_eq_nil_iff.not.trans Nat.not_le, h]
    exact List.cons_ne_nil _ _
  have hlast : l.n + 1 = p.length ↔ u = [] := by
    rw [← drop_succ_of_drop h, List.drop_eq_nil_iff]
    omega
  obtain ⟨k, hk⟩ : ∃ k, p.length - l.n = k + 1 := ⟨p.length - l.n - 1, by omega⟩
  have hk' : k = p.length - (l.n + 1) := by omega
  rw [reads, hk, readPlaceholder, getElem?_of_drop h, hk']
  simp only [hlast]
  rfl

theorem reads_nil (h : p.drop l.n = []) : reads p i l = l :=
  readPlaceholder_end (List.drop_eq_nil_iff.mp h)

/-- A name of one letter that ends before `u`. -/
theorem placeholderAt_plain (h : p.drop i = byte '%' :: c :: u) (hc : isAlpha c)
    (hu : ∀ e ∈ u.head?, EndsName e) : placeholderAt p i = ⟨i + 2, 0, 0, [c], []⟩ := by
  have hname := drop_succ_of_drop h
  have hrest := drop_succ_of_drop hname
  have hbrace : c ≠ byte '\x7b' := by
    rintro rfl
    exact absurd hc (by decide)
  rw [placeholderAt, reads_step hname, if_neg (by simp [hc]), if_neg (by simp [hbrace]),
    if_neg (by simp)]
  dsimp only
  cases u with
  | nil => rw [reads_nil hrest, hname]; rfl
  | cons e u =>
    have he := hu e rfl
    rw [reads_step hrest, if_pos ⟨rfl, by simpa [EndsName] using he⟩, hname]
    have htake : i + 1 + 1 - i - 1 = 1 := by omega
    simp [htake]

/-- The text in braces is read up to the first closing one. -/
theorem reads_format (h : p.drop l.n = w ++ byte '\x7d' :: u) (hw : byte '\x7d' ∉ w)
    (hstatus : l.fmtStatus = 1) (hstr : l.str ≠ []) :
    reads p i l =
      { l with
        fmt := (p.drop (l.fmtBegin + 1)).take (l.n + w.length - l.fmtBegin - 1)
        fmtStatus := 0
        n := l.n + w.length + 1 } := by
  induction w generalizing l with
  | nil => rw [reads_step h, if_neg (by simp [hstatus]), if_neg (by simp [hstatus]),
      if_pos ⟨hstatus, rfl⟩]; rfl
  | cons c w ih =>
    rw [List.mem_cons, not_or] at hw
    rw [reads_step h, if_neg (by simp [hstatus]), if_neg (by simp [hstatus]),
      if_neg (fun hc => hw.1 hc.2.symm), if_neg (fun hlast => hstr hlast.2)]
    have hrest := ih (l := { l with n := l.n + 1 }) (drop_succ_of_drop h) hw.2 hstatus hstr
    rw [hrest, List.length_cons, Nat.add_assoc l.n 1, Nat.add_comm 1]

theorem placeholderAt_braced
    (h : p.drop i = byte '%' :: c :: byte '\x7b' :: (fmt ++ byte '\x7d' :: u)) (hc : isAlpha c)
    (hfmt : byte '\x7d' ∉ fmt) :
    placeholderAt p i = ⟨i + 4 + fmt.length, 0, i + 2, [c], fmt⟩ := by
  have hname := drop_succ_of_drop h
  have hopen := drop_succ_of_drop hname
  have hfrom := drop_succ_of_drop hopen
  have hbrace : c ≠ byte '\x7b' := by
    rintro rfl
    exact absurd hc (by decide)
  rw [placeholderAt, reads_step hname, if_neg (by simp [hc]), if_neg (by simp [hbrace]),
    if_neg (by simp), if_neg (by simp), reads_step hopen, if_neg (by simp), if_pos ⟨rfl, rfl⟩]
  dsimp only
  have htake : i + 1 + 1 - i - 1 = 1 := by omega
  rw [hname, htake, reads_format hfrom hfmt rfl (by simp)]
  dsimp only
  rw [hfrom]
  have hlen : i + 1 + 1 + 1 + fmt.length - (i + 1 + 1) - 1 = fmt.length := by omega
  rw [hlen, List.take_left]
  congr 1
  omega

end Steps

section Parts

open Pattern

variable {ps qs : List Part}

theorem flush_items (s : Parsed) :
    s.flush.vec.map itemOf = s.vec.map itemOf ++ (stringItem s.nstr).map (·, false) := by
  rw [Parsed.flush, stringItem]
  split_ifs <;> simp [itemOf]

theorem flush_error (s : Parsed) : s.flush.error = s.error := by
  rw [Parsed.flush]
  split_ifs <;> rfl

theorem isAlpha_letter (name : Name) : isAlpha name.letter := by
  cases name <;> decide

theorem itemOf_letter (name : Name) : itemOf ([name.letter], fmt, true) = (name.item fmt, false) := by
  cases name <;> rfl

/-- What the parts are meant to make of the variables. -/
def meant (s : Parsed) : List Part → Parsed
  | [] => s
  | .literal w _ _ :: ps => meant { s with nstr := s.nstr ++ w } ps
  | .percent :: ps => meant { s with nstr := s.nstr ++ [byte '%'] } ps
  | .plain name :: ps => meant (s.place [name.letter] []) ps
  | .braced name fmt _ :: ps => meant (s.place [name.letter] fmt) ps

theorem flush_nstr (s : Parsed) : s.flush.nstr = [] := by
  rw [Parsed.flush]
  split_ifs with h
  · exact h
  · rfl

theorem place_items (s : Parsed) (name : Name) :
    (s.place [name.letter] fmt).vec.map itemOf =
      s.vec.map itemOf ++ (stringItem s.nstr ++ [name.item fmt]).map (·, false) := by
  simp [Parsed.place, flush_items, itemOf_letter]

theorem meant_items (s : Parsed) (ps qs : List Part) :
    (meant s ps).vec.map itemOf ++ (itemsOf (meant s ps).nstr qs).map (·, false) =
      s.vec.map itemOf ++ (itemsOf s.nstr (ps ++ qs)).map (·, false) := by
  induction ps generalizing s with
  | nil => rfl
  | cons q ps ih =>
    cases q with
    | literal w hne hclean => exact ih { s with nstr := s.nstr ++ w }
    | percent => exact ih { s with nstr := s.nstr ++ [byte '%'] }
    | plain name =>
      rw [meant, ih, place_items]
      simp [itemsOf, Parsed.place, flush_nstr]
    | braced name fmt hclosed =>
      rw [meant, ih, place_items]
      simp [itemsOf, Parsed.place, flush_nstr]

theorem meant_error (s : Parsed) (ps : List Part) : (meant s ps).error = s.error := by
  induction ps generalizing s with
  | nil => rfl
  | cons q ps ih => cases q <;> simp [meant, ih, Parsed.place, flush_error]

/-- After a placeholder without braces comes a byte that ends its name. -/
theorem endsName_textOf {name : Name} (h : (Part.plain name :: ps).IsChain Part.Precedes) :
    ∀ e ∈ (textOf ps).head?, EndsName e := by
  have hpercent : EndsName (byte '%') := by decide
  cases ps with
  | nil => nofun
  | cons q ps =>
    have hq : Part.Precedes (.plain name) q := (List.isChain_cons_cons.mp h).1
    cases q with
    | literal w hne hclean =>
      cases w with
      | nil => exact absurd rfl hne
      | cons c w => exact hq
    | percent => simpa [textOf, Part.text] using hpercent
    | plain other => simpa [textOf, Part.text] using hpercent
    | braced other fmt hclosed => simpa [textOf, Part.text] using hpercent

theorem scan_placeholder {name : Name} (h : p.drop i = byte '%' :: name.letter :: u)
    (hstatus : (placeholderAt p i).fmtStatus = 0)
    (hstr : (placeholderAt p i).str = [name.letter]) :
    scan p i s = scan p (placeholderAt p i).n (s.place [name.letter] (placeholderAt p i).fmt) := by
  have hletter : p[i + 1]? ≠ some (byte '%') := by
    rw [getElem?_of_drop (drop_succ_of_drop h)]
    cases name <;> decide
  rw [scan_step h, if_neg (not_not_intro rfl), if_neg hletter, if_pos hstatus, hstr]

/-- Parts without `%%` are read as they are meant. -/
theorem scan_meant (h : p.drop i = textOf ps ++ textOf qs)
    (hchain : (ps ++ qs).IsChain Part.Precedes) (hps : .percent ∉ ps) :
    scan p i s = scan p (i + (textOf ps).length) (meant s ps) := by
  induction ps generalizing i s with
  | nil => rfl
  | cons q ps ih =>
    rw [List.mem_cons, not_or] at hps
    have hq : p.drop i = q.text ++ (textOf ps ++ textOf qs) := by
      rw [h, textOf, List.flatMap_cons, List.append_assoc]
      rfl
    have hlength : i + (textOf (q :: ps)).length = i + q.text.length + (textOf ps).length := by
      rw [textOf, List.flatMap_cons, List.length_append, Nat.add_assoc]
      rfl
    have hrest (s : Parsed) := ih (s := s) (drop_add_of_drop hq) (List.IsChain.of_cons hchain) hps.2
    rw [hlength]
    cases q with
    | literal w hne hclean =>
      rw [scan_literal hq hclean, meant]
      exact hrest _
    | percent => exact absurd rfl hps.1
    | plain name =>
      have hends : ∀ e ∈ (textOf ps ++ textOf qs).head?, EndsName e := by
        rw [textOf, textOf, ← List.flatMap_append]
        exact endsName_textOf hchain
      have hat := placeholderAt_plain hq (isAlpha_letter name) hends
      rw [scan_placeholder hq (by rw [hat]) (by rw [hat]), hat, meant]
      exact hrest _
    | braced name fmt hclosed =>
      have hbraced : p.drop i = byte '%' :: name.letter :: byte '\x7b' ::
          (fmt ++ byte '\x7d' :: (textOf ps ++ textOf qs)) := by
        rw [hq, Part.text]
        simp
      have hat := placeholderAt_braced hbraced (isAlpha_letter name) hclosed
      have hnext : i + (Part.braced name fmt hclosed).text.length = i + 4 + fmt.length := by
        simp [Part.text]
        omega
      rw [hnext] at hrest ⊢
      rw [scan_placeholder hbraced (by rw [hat]) (by rw [hat]), hat, meant]
      exact hrest _

end Parts

section Escapes

open Pattern

/-- Tuples and errors are only added. -/
structure Grows (s s' : Parsed) : Prop where
  vec : ∃ more, s'.vec = s.vec ++ more
  error : s.error = true → s'.error = true

theorem Grows.refl (s : Parsed) : Grows s s := ⟨⟨[], (List.append_nil _).symm⟩, id⟩

theorem Grows.trans {s₁ s₂ s₃ : Parsed} (h : Grows s₁ s₂) (h' : Grows s₂ s₃) : Grows s₁ s₃ := by
  rcases h with ⟨⟨more, hvec⟩, herror⟩
  rcases h' with ⟨⟨more', hvec'⟩, herror'⟩
  exact ⟨⟨more ++ more', by rw [hvec', hvec, List.append_assoc]⟩, herror' ∘ herror⟩

theorem grows_flush (s : Parsed) : Grows s s.flush := by
  rw [Parsed.flush]
  split_ifs
  · exact .refl s
  · exact ⟨⟨_, rfl⟩, id⟩

theorem parse_grows (s : Parsed) : Grows s (parse p rounds i s) := by
  induction rounds generalizing i s with
  | zero => exact .refl s
  | succ rounds ih =>
    rw [parse]
    cases p[i]? with
    | none => exact .refl s
    | some c =>
      dsimp only
      split_ifs
      · refine .trans ?_ (ih _)
        exact ⟨⟨[], (List.append_nil _).symm⟩, id⟩
      · refine .trans ?_ (ih _)
        exact ⟨⟨[], (List.append_nil _).symm⟩, id⟩
      · refine (grows_flush s).trans (.trans ?_ (ih _))
        exact ⟨⟨_, rfl⟩, id⟩
      · refine .trans ?_ (ih _)
        exact ⟨⟨_, rfl⟩, fun _ => rfl⟩

theorem scan_grows (p : List UInt8) (i : ℕ) (s : Parsed) : Grows s (scan p i s) := parse_grows s

/-- The percent signs at the front of a text. -/
def signs (u : List UInt8) : List UInt8 := u.takeWhile (· == byte '%')

/-- A percent sign that is not followed by another one starts a placeholder. -/
theorem scan_last (h : p.drop i = byte '%' :: u) (hu : u.head? ≠ some (byte '%'))
    (hs : s.nstr ≠ []) :
    (scan p i s).error = true ∨
      ∃ str fmt more, (scan p i s).flush.vec =
        s.vec ++ (s.nstr, [], false) :: (str, fmt, true) :: more ∧ (u = [] → str = []) := by
  have hnext : p[i + 1]? ≠ some (byte '%') := by
    rwa [← Nat.add_zero (i + 1), ← List.getElem?_drop, drop_succ_of_drop h, ← List.head?_eq_getElem?]
  rw [scan_step h, if_neg (not_not_intro rfl), if_neg hnext]
  split_ifs
  · right
    have hgrows := scan_grows p (placeholderAt p i).n
      (s.place (placeholderAt p i).str (placeholderAt p i).fmt)
    rcases (hgrows.trans (grows_flush _)).vec with ⟨more, hmore⟩
    refine ⟨(placeholderAt p i).str, (placeholderAt p i).fmt, more, hmore.trans ?_, ?_⟩
    · simp [Parsed.place, Parsed.flush, hs]
    · rintro rfl
      rw [placeholderAt, reads_nil (drop_succ_of_drop h)]
  · exact .inl ((scan_grows p (i + 1) _).error rfl)

/-- From a percent sign that follows literal bytes, every further sign is a literal and the last
one starts a placeholder. -/
theorem scan_signs (h : p.drop i = byte '%' :: u) (hs : s.nstr ≠ []) :
    (scan p i s).error = true ∨
      ∃ str fmt more, (scan p i s).flush.vec =
        s.vec ++ (s.nstr ++ signs u, [], false) :: (str, fmt, true) :: more ∧
          (u = [] → str = []) := by
  induction u generalizing i s with
  | nil => simpa [signs] using scan_last h nofun hs
  | cons c u ih =>
    by_cases hc : c = byte '%'
    · subst hc
      rw [scan_escape h]
      rcases ih (s := { s with nstr := s.nstr ++ [byte '%'] }) (drop_succ_of_drop h) (by simp) with
        herror | ⟨str, fmt, more, hmore, -⟩
      · exact .inl herror
      · refine .inr ⟨str, fmt, more, ?_, nofun⟩
        rw [hmore]
        simp [signs]
    · have hsigns : signs (c :: u) = [] := by simp [signs, hc]
      rw [hsigns, List.append_nil]
      exact scan_last h (by simpa using hc) hs

/-- What is meant by the parts after literal bytes: further bytes, and if these are percent signs
only there are fewer of them than in the text. -/
theorem itemsOf_run {b : List UInt8} (hb : b ≠ []) (ps : List Part) :
    ∃ x rest, itemsOf b ps = .string (b ++ x) :: rest ∧
      ((∀ c ∈ x, c = byte '%') → x.length ≤ (signs (textOf ps)).length ∧
        (x.length = (signs (textOf ps)).length → textOf ps = [])) := by
  induction ps generalizing b with
  | nil => exact ⟨[], [], by simp [itemsOf, stringItem, hb], fun _ => ⟨Nat.zero_le _, fun _ => rfl⟩⟩
  | cons q ps ih =>
    cases q with
    | literal w hne hclean =>
      rcases ih (b := b ++ w) (by simp [hb]) with ⟨x, rest, hitems, -⟩
      refine ⟨w ++ x, rest, by rw [itemsOf, hitems, List.append_assoc], fun hx => ?_⟩
      cases w with
      | nil => exact absurd rfl hne
      | cons c w =>
        have hc : c = byte '%' := hx c (by simp)
        exact absurd (hc ▸ List.mem_cons_self) hclean
    | percent =>
      rcases ih (b := b ++ [byte '%']) (by simp) with ⟨x, rest, hitems, hx⟩
      refine ⟨byte '%' :: x, rest, by rw [itemsOf, hitems]; simp, fun hall => ?_⟩
      have hlength : (signs (textOf (.percent :: ps))).length = (signs (textOf ps)).length + 2 := by
        simp [signs, textOf, Part.text]
      have hle := (hx (List.forall_mem_cons.mp hall).2).1
      rw [hlength, List.length_cons]
      exact ⟨by omega, fun h => by omega⟩
    | plain name =>
      refine ⟨[], _, by simp [itemsOf, stringItem, hb]; rfl, fun _ => ⟨Nat.zero_le _, ?_⟩⟩
      simp [signs, textOf, Part.text]
    | braced name fmt hclosed =>
      refine ⟨[], _, by simp [itemsOf, stringItem, hb]; rfl, fun _ => ⟨Nat.zero_le _, ?_⟩⟩
      simp [signs, textOf, Part.text]

end Escapes

theorem parsed_eq (f : LogFormatter) : f.parsed = (scan f.pattern 0 ⟨[], [], false⟩).flush := rfl

theorem items_eq_of_meant {f : LogFormatter} {is : List FormatItem}
    (herror : f.parsed.error = false) (h : f.parsed.vec.map itemOf = is.map (·, false)) : f.isError = false ∧ f.items = is := by
  constructor
  · rw [isError, herror, Bool.false_or, List.any_eq_false]
    intro t ht
    have hmem : itemOf t ∈ is.map (·, false) := h ▸ List.mem_map_of_mem ht
    rcases List.mem_map.mp hmem with ⟨item, -, hitem⟩
    rw [← hitem]
    exact Bool.false_ne_true
  · have hfst := congrArg (List.map Prod.fst) h
    rw [List.map_map, List.map_map] at hfst
    exact hfst.trans (List.map_id _)

end LogFormatter

namespace Pattern

open LogFormatter

variable {pat : Pattern}

theorem understood_of_no_percent (h : .percent ∉ pat.parts) : pat.Understood := by
  have htext : pat.formatter.pattern.drop 0 = textOf pat.parts ++ textOf [] :=
    (List.append_nil _).symm
  have hchain : (pat.parts ++ []).IsChain Part.Precedes := by
    rw [List.append_nil]
    exact pat.separated
  have hparsed : pat.formatter.parsed = (meant ⟨[], [], false⟩ pat.parts).flush := by
    rw [parsed_eq, scan_meant htext hchain h, scan_nil (drop_add_of_drop htext)]
  have hvec : pat.formatter.parsed.vec.map itemOf = (itemsOf [] pat.parts).map (·, false) := by
    have hmeant := meant_items ⟨[], [], false⟩ pat.parts []
    rw [List.append_nil] at hmeant
    rw [hparsed, flush_items]
    exact hmeant
  have herror : pat.formatter.parsed.error = false := by
    rw [hparsed, flush_error, meant_error]
  have hitems := items_eq_of_meant herror hvec
  refine ⟨fun rounds hrounds => ?_, fun i rounds l hrounds => ?_, hitems.1, hitems.2⟩
  · rw [parse_scan (by omega)]
    rfl
  · exact readPlaceholder_rounds hrounds (by omega)

theorem not_understood_of_percent (h : .percent ∈ pat.parts) : ¬pat.Understood := by
  rintro ⟨-, -, herror, hitems⟩
  -- The parts before the first `%%` are read as they are meant.
  obtain ⟨ps, qs, hparts, hps⟩ := List.eq_append_cons_of_mem h
  have htext : pat.formatter.pattern.drop 0 = textOf ps ++ textOf (.percent :: qs) := by
    rw [List.drop_zero, formatter, hparts, textOf, List.flatMap_append]
    rfl
  have hchain : (ps ++ .percent :: qs).IsChain Part.Precedes := hparts ▸ pat.separated
  have hfirst : pat.formatter.pattern.drop (0 + (textOf ps).length) =
      byte '%' :: byte '%' :: textOf qs := drop_add_of_drop htext
  let s := meant ⟨[], [], false⟩ ps
  let b := s.nstr ++ [byte '%']
  have hb : b ≠ [] := by simp [b]
  have hmeant : s.vec.map (Prod.fst ∘ itemOf) ++ itemsOf b qs = pat.formatter.items := by
    have hfst := congrArg (List.map Prod.fst) (meant_items ⟨[], [], false⟩ ps (.percent :: qs))
    rw [hitems, hparts]
    simpa [itemsOf, Function.comp_def] using hfst
  have hscan := scan_signs (s := { s with nstr := b }) (drop_succ_of_drop hfirst) hb
  rw [← scan_escape hfirst, ← scan_meant htext hchain hps] at hscan
  rcases hscan with hscan | ⟨str, fmt, more, hvec, hstr⟩
  · rw [LogFormatter.isError, parsed_eq, flush_error, hscan] at herror
    exact Bool.noConfusion herror
  · rw [← parsed_eq] at hvec
    -- The signs that were read make up the whole literal only if nothing follows the `%%`.
    rcases itemsOf_run hb qs with ⟨x, rest, hrun, hx⟩
    have hread : x = signs (textOf qs) := by
      rw [LogFormatter.items, hvec, hrun, List.map_append] at hmeant
      have hsame := List.append_cancel_left hmeant
      simpa [itemOf] using (List.cons.inj hsame).1
    have hall : ∀ c ∈ x, c = byte '%' := by
      intro c hc
      rw [hread] at hc
      simpa using List.mem_takeWhile_imp hc
    have hempty := (hx hall).2 (congrArg List.length hread)
    rw [LogFormatter.isError, hvec, hstr hempty] at herror
    simp [itemOf, formatItems, bytes] at herror

/-- A pattern is read as it is meant if and only if it has no `%%`. -/
theorem understood_iff (pat : Pattern) : pat.Understood ↔ .percent ∉ pat.parts :=
  ⟨fun h hmem => not_understood_of_percent hmem h, understood_of_no_percent⟩

/-- The pattern `%%m`, which stands for the text `%m`. -/
def percentM : Pattern where
  parts := [.percent, .literal (bytes "m") (by decide) (by decide)]
  separated := by simp [Part.Precedes]

/-- A percent sign and then the message. -/
theorem percentM_message :
    percentM.formatter.items = [.string (bytes "%"), .message] ∧
      itemsOf [] percentM.parts = [.string (bytes "%m")] ∧ ¬percentM.Understood := by
  have hitems : percentM.formatter.items = [.string (bytes "%"), .message] := by decide
  have hmeant : itemsOf [] percentM.parts = [.string (bytes "%m")] := by decide
  refine ⟨hitems, hmeant, fun h => ?_⟩
  have hsame := h.items
  rw [hitems, hmeant] at hsame
  exact absurd hsame (by decide)

end Pattern

end Sylar.Log
