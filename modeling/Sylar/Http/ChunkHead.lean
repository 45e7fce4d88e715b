import Sylar.Http.Heads

/-! # The head of a chunk

What a call of `execute` makes of the line in front of a chunk: the size, and one header of the
response for every chunk extension. The machine has one state for each part of the line; the
states and their transitions are computed from the grammar.
-/
namespace Sylar.Http
open Memory Ragel
open Sylar.Stream (toInt toSize toInt_eq_self_iff toSize_of_nonneg)

section Machine

/-- The state of the machine after some input. -/
def reached (s : String) : State ClientAction :=
  (sweep clientBreaks (start ClientGrammar.main) 0 (bytes s)).2.cs.getD []

/-- A state that a semicolon and a line end leave with the same actions. -/
structure Leaves (s : State ClientAction) (as : List ClientAction) : Prop where
  semicolon : step s (byte ';') = some (reached "0;", as)
  carriage : step s (byte '\r') = some (reached "0\r", as)
  calm : as.any clientBreaks = false

/-- The steps on the head of a chunk. -/
structure ChunkSteps : Prop where
  digit : ∀ b ∈ Grammar.xdigit.members,
    step (start ClientGrammar.main) b = some (reached "0", [.mark]) ∧
      step (reached "0") b = some (reached "0", [])
  size : Leaves (reached "0") [.chunkSize]
  name : ∀ b ∈ ClientGrammar.token.members,
    step (reached "0;") b = some (reached "0;a", [.startField]) ∧
      step (reached "0;a") b = some (reached "0;a", [])
  afterName : Leaves (reached "0;a") [.writeField, .startValue, .writeValue]
  equals : step (reached "0;a") (byte '=') = some (reached "0;a=", [.writeField, .startValue])
  value : ∀ b ∈ ClientGrammar.token.members,
    step (reached "0;a=") b = some (reached "0;a=b", [.startValue]) ∧
      step (reached "0;a=b") b = some (reached "0;a=b", [])
  afterValue : Leaves (reached "0;a=b") [.writeValue]
  newline : step (reached "0\r") (byte '\n') = some (reached "0\r\n", [.done]) ∧
    final (reached "0\r\n") = true

theorem chunkSteps : ChunkSteps where
  digit := by decide +kernel
  size := ⟨by decide +kernel, by decide +kernel, rfl⟩
  name := by decide +kernel
  afterName := ⟨by decide +kernel, by decide +kernel, rfl⟩
  equals := by decide +kernel
  value := by decide +kernel
  afterValue := ⟨by decide +kernel, by decide +kernel, rfl⟩
  newline := by decide +kernel

end Machine

structure TokenWord where
  text : List UInt8
  ne_nil : text ≠ []
  token : ∀ b ∈ text, b ∈ ClientGrammar.token.members

structure Extension where
  name : TokenWord
  value : Option TokenWord

namespace Extension

def encode (x : Extension) : List UInt8 :=
  byte ';' :: (x.name.text ++ match x.value with
    | none => []
    | some v => byte '=' :: v.text)

/-- The value that is reported: an extension may have none. -/
def text (x : Extension) : List UInt8 :=
  match x.value with
  | none => []
  | some v => v.text

/-- The actions for an extension that starts at place `p`. -/
def acts (p : ℕ) (x : Extension) : List (ClientAction × ℕ) :=
  let e := p + (x.name.text.length + 1)
  match x.value with
  | none => [(.startField, p + 1), (.writeField, e), (.startValue, e), (.writeValue, e)]
  | some v => [(.startField, p + 1), (.writeField, e), (.startValue, e), (.startValue, e + 1),
      (.writeValue, e + 1 + v.text.length)]

end Extension

def extensionActs : ℕ → List Extension → List (ClientAction × ℕ)
  | _, [] => []
  | p, x :: xs => x.acts p ++ extensionActs (p + x.encode.length) xs

/-- The line in front of a chunk. -/
structure ChunkHead where
  digits : List UInt8
  ne_nil : digits ≠ []
  hex : ∀ b ∈ digits, b ∈ Grammar.xdigit.members
  exts : List Extension

namespace ChunkHead

def line (c : ChunkHead) : List UInt8 :=
  c.digits ++ (c.exts.flatMap Extension.encode ++ [byte '\r', byte '\n'])

def size (c : ChunkHead) : ℕ := c.digits.foldl (fun n b => n * 16 + (digitValue b).getD 0) 0

end ChunkHead

section Sweep

variable {s : State ClientAction} {as : List ClientAction} {p : ℕ}

theorem sweep_extensions (hs : Leaves s as) (xs : List Extension) (rest : List UInt8) :
    sweep clientBreaks s p
        (xs.flatMap Extension.encode ++ ([byte '\r', byte '\n'] ++ rest)) =
      ((as.map fun a => (a, p)) ++ (extensionActs p xs ++
          [(.done, p + (xs.flatMap Extension.encode).length + 1)]),
        ⟨some (reached "0\r\n"), p + (xs.flatMap Extension.encode).length + 2, true⟩) := by
  induction xs generalizing s as p with
  | nil =>
    change sweep clientBreaks s p (byte '\r' :: byte '\n' :: rest) = _
    rw [sweep_calm hs.carriage hs.calm, sweep_cons_break (ChunkSteps.newline chunkSteps).1 rfl]
    rfl
  | cons x xs ih =>
    have hname := sweep_word (p := p + 1) x.name.ne_nil (rfl : clientBreaks .startField = false)
      (fun b hb => ChunkSteps.name chunkSteps b (x.name.token b hb))
    have hinput : (x :: xs).flatMap Extension.encode ++ ([byte '\r', byte '\n'] ++ rest) =
        byte ';' :: (x.name.text ++ ((match x.value with | none => [] | some v => byte '=' :: v.text) ++
          (xs.flatMap Extension.encode ++ ([byte '\r', byte '\n'] ++ rest)))) := by
      rw [List.flatMap_cons, Extension.encode]
      simp only [List.cons_append, List.append_assoc]
    have hlen : ((x :: xs).flatMap Extension.encode).length =
        x.encode.length + (xs.flatMap Extension.encode).length := by
      rw [List.flatMap_cons, List.length_append]
    have hplace : p + 1 + x.name.text.length = p + (x.name.text.length + 1) := by omega
    rw [hinput, sweep_calm hs.semicolon hs.calm, hname, hplace, hlen, extensionActs, Extension.acts]
    cases hv : x.value with
    | none =>
      have henc : x.encode.length = x.name.text.length + 1 := by
        rw [Extension.encode, hv]
        simp
      rw [List.nil_append, ih (ChunkSteps.afterName chunkSteps), henc]
      simp only [List.map_cons, List.map_nil, List.cons_append, List.nil_append, Nat.add_assoc]
    | some v =>
      have henc : x.encode.length = x.name.text.length + 1 + 1 + v.text.length := by
        rw [Extension.encode, hv]
        simp
        omega
      have hvalue := sweep_word (p := p + (x.name.text.length + 1) + 1) v.ne_nil
        (rfl : clientBreaks .startValue = false)
        (fun b hb => ChunkSteps.value chunkSteps b (v.token b hb))
      rw [List.cons_append, sweep_calm (ChunkSteps.equals chunkSteps) rfl, hvalue,
        ih (ChunkSteps.afterValue chunkSteps), henc]
      simp only [List.map_cons, List.map_nil, List.cons_append, List.nil_append, Nat.add_assoc]

/-- The way of the machine through the head of a chunk. -/
theorem sweep_chunkHead (c : ChunkHead) (rest : List UInt8) :
    sweep clientBreaks (start ClientGrammar.main) 0 (c.line ++ rest) =
      ((.mark, 0) :: (.chunkSize, c.digits.length) ::
          (extensionActs c.digits.length c.exts ++ [(.done, c.line.length - 1)]),
        ⟨some (reached "0\r\n"), c.line.length, true⟩) := by
  have hlen : c.line.length = c.digits.length + (c.exts.flatMap Extension.encode).length + 2 := by
    rw [ChunkHead.line, List.length_append, List.length_append]
    simp [Nat.add_assoc]
  rw [hlen, ChunkHead.line, List.append_assoc, List.append_assoc,
    sweep_word c.ne_nil rfl (fun b hb => ChunkSteps.digit chunkSteps b (c.hex b hb)), Nat.zero_add,
    sweep_extensions (ChunkSteps.size chunkSteps)]
  rfl

end Sweep

section Numbers

theorem hex_digit : ∀ b ∈ Grammar.xdigit.members, isDigit 16 b = true ∧ isSpace b = false ∧
    b ≠ byte '-' ∧ b ≠ byte '+' ∧ b ≠ byte 'x' ∧ b ≠ byte 'X' := by
  decide +kernel

/-- `strtol` at the size of a chunk: the digits are followed by a byte that is not one. -/
theorem strtol_size (c : ChunkHead) {b : UInt8} (hb : isDigit 16 b = false) (hx : b ≠ byte 'x')
    (hX : b ≠ byte 'X') (rest : List UInt8) :
    strtol 16 (c.digits ++ b :: rest) = some (min (2 ^ 63 - 1) (c.size : ℤ)) := by
  obtain ⟨d, ds, hd⟩ := List.exists_cons_of_ne_nil c.ne_nil
  have hhex := c.hex
  rw [hd, List.forall_mem_cons] at hhex
  obtain ⟨-, hspace, hminus, hplus, -, -⟩ := hex_digit d hhex.1
  have hskip : skipMark 16 (d :: (ds ++ b :: rest)) = d :: (ds ++ b :: rest) := by
    cases ds with
    | nil => exact if_neg fun h => h.2.2.elim hx hX
    | cons e ds =>
      have he := hex_digit e (hhex.2 e (List.mem_cons_self ..))
      exact if_neg fun h => h.2.2.elim he.2.2.2.2.1 he.2.2.2.2.2
  have hread := readDigits_digits (fun b hb => (hex_digit b (c.hex b hb)).1) hb rest 0
  rw [hd, List.cons_append] at hread
  rw [hd, List.cons_append, strtol, List.dropWhile_cons, hspace, if_neg Bool.false_ne_true]
  dsimp only
  rw [if_neg hminus, if_neg hplus, hskip, hread, ChunkHead.size, hd]
  rfl

theorem strtolInt_size (c : ChunkHead) (rest : List UInt8) :
    strtolInt 16 (c.line ++ rest) = some (toInt (toSize (min (2 ^ 63 - 1) (c.size : ℤ)))) := by
  rw [strtolInt, ChunkHead.line, List.append_assoc]
  cases c.exts with
  | nil =>
    change Option.map _ (strtol 16 (c.digits ++ byte '\r' :: _)) = _
    rw [strtol_size c (by decide) (by decide) (by decide)]
    rfl
  | cons x xs =>
    rw [List.flatMap_cons, Extension.encode, List.cons_append, List.cons_append, List.cons_append,
      strtol_size c (by decide) (by decide) (by decide)]
    rfl

theorem toInt_size {n : ℕ} (h : n < 2 ^ 31) : toInt (toSize (min (2 ^ 63 - 1) (n : ℤ))) = n := by
  rw [min_eq_right (by omega), toSize_of_nonneg (by omega) (by omega), Int.toNat_natCast,
    toInt_eq_self_iff.mpr h]

end Numbers

section Perform

variable {v : HttpResponseParser}

/-- What the extensions of a chunk do: each of them is stored as a header of the response. -/
def Extension.store (x : Extension) (r : HttpResponse) : HttpResponse :=
  r.setHeader x.name.text x.text

/-- The parser after the extensions `xs`: only the headers and the registers of a field have
changed. -/
structure Stored (xs : List Extension) (v w : HttpResponseParser) : Prop where
  data : w.data = xs.foldl (fun r x => x.store r) v.data
  error : w.error = v.error
  contentLen : w.parser.contentLen = v.parser.contentLen
  chunksDone : w.parser.chunksDone = v.parser.chunksDone
  close : w.parser.close = v.parser.close
  cs : w.parser.cs = v.parser.cs

/-- The registers of a field. -/
def HttpResponseParser.field (v : HttpResponseParser) (start length mark : ℕ) : HttpResponseParser :=
  v.onParser fun h => { h with fieldStart := start, fieldLen := length, mark := mark }

theorem perform_writeValue {m key val : List UInt8} {l : List (ClientAction × ℕ)} {i n k q : ℕ}
    (hl : perform (clientAction m) l v = .done () (v.field i n k)) (hn : n ≠ 0)
    (hkey : ∀ w : HttpResponseParser, stdString m i n w = .done key w)
    (hval : ∀ w : HttpResponseParser, stdString m k (len q k) w = .done val w) :
    perform (clientAction m) (l ++ [(.writeValue, q)]) v =
      .done () ((v.field i n k).onData (·.setHeader key val)) := by
  have hwrite : clientAction m .writeValue q (v.field i n k) =
      .done () ((v.field i n k).onData (·.setHeader key val)) := by
    change onResponseHttpField m i n k (len q k) _ = _
    rw [onResponseHttpField, if_neg hn, Command.bind_done (hkey _), Command.bind_done (hval _)]
    rfl
  rw [perform_append, Command.bind_done hl, perform_cons, Command.bind_done hwrite, perform_nil]

theorem perform_extension (pre post : List UInt8) (x : Extension) (hlt : pre.length + x.encode.length < 2 ^ 31) :
    ∃ w, perform (clientAction (pre ++ x.encode ++ post)) (x.acts pre.length) v = .done () w ∧
      Stored [x] v w := by
  have hpos := List.length_pos_iff.mpr x.name.ne_nil
  have hmax : 2 ^ 31 ≤ maxSize := by decide
  have hlen : x.encode.length = x.name.text.length + 1 + (match x.value with
      | none => []
      | some v => byte '=' :: v.text).length := by
    rw [Extension.encode, List.length_cons, List.length_append]
    omega
  have hfield : len (pre.length + (x.name.text.length + 1)) (pre.length + 1) =
      x.name.text.length := by
    rw [len_of_le (by omega) (by omega)]
    omega
  have hne : len (pre.length + (x.name.text.length + 1)) (pre.length + 1) ≠ 0 := by omega
  have hkey (w : HttpResponseParser) : stdString (pre ++ x.encode ++ post) (pre.length + 1)
      (len (pre.length + (x.name.text.length + 1)) (pre.length + 1)) w = .done x.name.text w := by
    have hm : pre ++ x.encode ++ post = pre ++ [byte ';'] ++ x.name.text ++ ((match x.value with
        | none => []
        | some v => byte '=' :: v.text) ++ post) := by
      rw [Extension.encode]
      simp only [List.append_assoc, List.cons_append, List.nil_append]
    rw [hm]
    exact stdString_middle (by omega) (by rw [List.length_append]; rfl) hfield.symm
  cases hv : x.value with
  | none =>
    rw [hv] at hlen
    have hval (w : HttpResponseParser) : stdString (pre ++ x.encode ++ post)
        (pre.length + (x.name.text.length + 1)) (len (pre.length + (x.name.text.length + 1))
          (pre.length + (x.name.text.length + 1))) w = .done [] w := by
      have hm : pre ++ x.encode ++ post = pre ++ [byte ';'] ++ x.name.text ++ [] ++ post := by
        rw [Extension.encode, hv]
        simp only [List.append_assoc, List.cons_append, List.nil_append]
      rw [hm, len_of_le le_rfl (by omega), Nat.sub_self]
      apply stdString_middle (Nat.zero_le _) _ rfl
      rw [List.length_append, List.length_append, List.length_singleton]
      omega
    have hrun := perform_writeValue (v := v) (l := [(.startField, pre.length + 1),
      (.writeField, pre.length + (x.name.text.length + 1)),
      (.startValue, pre.length + (x.name.text.length + 1))]) rfl hne hkey hval
    rw [Extension.acts, hv]
    refine ⟨_, hrun, ?_, rfl, rfl, rfl, rfl, rfl⟩
    rw [List.foldl_cons, List.foldl_nil, Extension.store, Extension.text, hv]
    rfl
  | some val =>
    rw [hv, List.length_cons] at hlen
    have hval (w : HttpResponseParser) : stdString (pre ++ x.encode ++ post)
        (pre.length + (x.name.text.length + 1) + 1) (len (pre.length + (x.name.text.length + 1) + 1 +
          val.text.length) (pre.length + (x.name.text.length + 1) + 1)) w = .done val.text w := by
      have hm : pre ++ x.encode ++ post =
          pre ++ [byte ';'] ++ x.name.text ++ [byte '='] ++ val.text ++ post := by
        rw [Extension.encode, hv]
        simp only [List.append_assoc, List.cons_append, List.nil_append]
      rw [hm, len_of_le (by omega) (by omega), Nat.add_sub_cancel_left]
      apply stdString_middle (by omega) _ rfl
      simp only [List.length_append, List.length_singleton]
      omega
    have hrun := perform_writeValue (v := v) (l := [(.startField, pre.length + 1),
      (.writeField, pre.length + (x.name.text.length + 1)),
      (.startValue, pre.length + (x.name.text.length + 1)),
      (.startValue, pre.length + (x.name.text.length + 1) + 1)]) rfl hne hkey hval
    rw [Extension.acts, hv]
    refine ⟨_, hrun, ?_, rfl, rfl, rfl, rfl, rfl⟩
    rw [List.foldl_cons, List.foldl_nil, Extension.store, Extension.text, hv]
    rfl

theorem perform_extensions (pre post : List UInt8) (xs : List Extension)
    (hlt : pre.length + (xs.flatMap Extension.encode).length < 2 ^ 31) :
    ∃ w, perform (clientAction (pre ++ xs.flatMap Extension.encode ++ post))
        (extensionActs pre.length xs) v = .done () w ∧ Stored xs v w := by
  induction xs generalizing pre v with
  | nil => exact ⟨v, rfl, rfl, rfl, rfl, rfl, rfl, rfl⟩
  | cons x xs ih =>
    rw [List.flatMap_cons, List.length_append] at hlt
    obtain ⟨v₁, hrun₁, h₁⟩ := perform_extension (v := v) pre (xs.flatMap Extension.encode ++ post) x
      (by omega)
    obtain ⟨w, hrun, h⟩ := ih (v := v₁) (pre ++ x.encode) (by rw [List.length_append]; omega)
    have hm : pre ++ (x :: xs).flatMap Extension.encode ++ post =
        pre ++ x.encode ++ xs.flatMap Extension.encode ++ post := by
      rw [List.flatMap_cons]
      simp only [List.append_assoc]
    rw [List.length_append] at hrun
    rw [← List.append_assoc] at hrun₁
    refine ⟨w, ?_, ?_, h.error.trans h₁.error, h.contentLen.trans h₁.contentLen,
      h.chunksDone.trans h₁.chunksDone, h.close.trans h₁.close, h.cs.trans h₁.cs⟩
    · rw [hm, extensionActs, perform_append, Command.bind_done hrun₁, hrun]
    · rw [h.data, h₁.data]
      rfl

/-- The parser after a call that was given the head of a chunk: the size has been read, and the
close flag is that of the parser that was just initialised. -/
structure ChunkRead (c : ChunkHead) (v w : HttpResponseParser) : Prop where
  data : w.data = (c.exts.foldl (fun r x => x.store r) v.data).setClose false
  error : w.error = v.error
  contentLen : w.parser.contentLen = toInt (toSize (min (2 ^ 63 - 1) (c.size : ℤ)))
  chunksDone : w.parser.chunksDone = decide (w.parser.contentLen ≤ 0)
  cs : w.parser.cs = some (reached "0\r\n")

def HttpResponseParser.sized (v : HttpResponseParser) (n : ℤ) : HttpResponseParser :=
  v.onParser fun h => { h with chunked := true, contentLen := n, chunksDone := n ≤ 0 }

theorem exec_chunkHead (c : ChunkHead) (rest : List UInt8) (hlt : c.line.length < 2 ^ 31)
    (hv : v.parser = httpclientParserInit) (junk : List UInt8) :
    ∃ w, exec clientBreaks (clientAction (c.line ++ rest ++ junk)) (start ClientGrammar.main) 0
        (c.line ++ rest) v = .done ⟨some (reached "0\r\n"), c.line.length, true⟩ w ∧
      ChunkRead c v (w.onParser (.keep 0 ⟨some (reached "0\r\n"), c.line.length, true⟩)) := by
  have hm : c.line ++ rest ++ junk = c.digits ++ c.exts.flatMap Extension.encode ++
      ([byte '\r', byte '\n'] ++ rest ++ junk) := by
    rw [ChunkHead.line]
    simp only [List.append_assoc]
  have hlen : c.digits.length + (c.exts.flatMap Extension.encode).length < 2 ^ 31 := by
    rw [ChunkHead.line, List.length_append, List.length_append] at hlt
    omega
  have hmark : clientAction (c.line ++ rest ++ junk) .mark 0 v = .done () v := by
    change Outcome.done () { v with parser := { v.parser with mark := 0 } } = _
    rw [hv]
    change Outcome.done () { v with parser := httpclientParserInit } = _
    rw [← hv]
  have hread : readInt (c.line ++ rest ++ junk) 16 v.parser.mark v =
      .done (toInt (toSize (min (2 ^ 63 - 1) (c.size : ℤ)))) v := by
    rw [readInt, hv, List.append_assoc, show httpclientParserInit.mark = 0 from rfl, List.drop_zero,
      strtolInt_size]
    rfl
  have hsize : clientAction (c.line ++ rest ++ junk) .chunkSize c.digits.length v =
      .done () (v.sized (toInt (toSize (min (2 ^ 63 - 1) (c.size : ℤ))))) := by
    rw [clientAction, Command.state_bind_apply]
    exact Command.bind_done hread _
  obtain ⟨w, hrun, hw⟩ := perform_extensions c.digits ([byte '\r', byte '\n'] ++ rest ++ junk) c.exts
    hlen (v := v.sized (toInt (toSize (min (2 ^ 63 - 1) (c.size : ℤ)))))
  rw [← hm] at hrun
  have hclose : w.parser.close = false := by
    rw [hw.close]
    change v.parser.close = false
    rw [hv]
    rfl
  have hcs : w.parser.cs.isSome = true := by
    rw [hw.cs]
    change v.parser.cs.isSome = true
    rw [hv]
    rfl
  have hperform : perform (clientAction (c.line ++ rest ++ junk))
      ((.mark, 0) :: (.chunkSize, c.digits.length) ::
        (extensionActs c.digits.length c.exts ++ [(.done, c.line.length - 1)])) v =
      .done () ((w.onParser fun h => { h with bodyStart := c.line.length - 1 + 1 }).onData
        (·.setClose w.parser.close)) := by
    rw [perform_cons, Command.bind_done hmark, perform_cons, Command.bind_done hsize,
      perform_append, Command.bind_done hrun]
    rfl
  rw [exec_apply, sweep_chunkHead, Command.bind_done hperform]
  refine ⟨_, rfl, ?_, hw.error, hw.contentLen, ?_, if_pos hcs⟩
  · change w.data.setClose w.parser.close = _
    rw [hw.data, hclose]
    rfl
  · change w.parser.chunksDone = decide (w.parser.contentLen ≤ 0)
    rw [hw.chunksDone, hw.contentLen]
    rfl

/-- The call that is given the head of a chunk, and perhaps more. -/
theorem execute_chunkHead (c : ChunkHead) {rest : List UInt8} (hlen : (c.line ++ rest).length < 2 ^ 31)
    (junk : List UInt8) :
    ∃ w, HttpResponseParser.execute true (c.line ++ rest ++ 0 :: junk) (c.line ++ rest).length v =
        .done (c.line.length,
          memmove (c.line ++ rest ++ 0 :: junk) (c.line ++ rest).length c.line.length) w ∧
      ChunkRead c v w := by
  have hlt : c.line.length < 2 ^ 31 := by
    rw [List.length_append] at hlen
    omega
  obtain ⟨w, hrun, hw⟩ := exec_chunkHead (v := v.onParser fun _ => httpclientParserInit) c rest hlt rfl
    (0 :: junk)
  have hbroke : (⟨some (reached "0\r\n"), c.line.length, true⟩ : Halt ClientAction).broke = true :=
    rfl
  have hcall : HttpResponseParser.execute true (c.line ++ rest ++ 0 :: junk)
      (c.line ++ rest).length v = _ := clientExecute_apply hlen rfl rfl hrun hbroke
  exact ⟨_, hcall, hw.data, hw.error, hw.contentLen, hw.chunksDone, hw.cs⟩

theorem ChunkRead.finished {c : ChunkHead} {w : HttpResponseParser} (h : ChunkRead c v w)
    (herr : v.error = 0) : w.hasError = false ∧ w.isFinished = true := by
  rw [HttpResponseParser.hasError, HttpResponseParser.isFinished, h.cs, h.error, herr]
  exact ⟨rfl, (ChunkSteps.newline chunkSteps).2⟩

end Perform
end Sylar.Http
