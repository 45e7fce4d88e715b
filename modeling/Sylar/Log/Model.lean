import Sylar.Log.Define
import Sylar.Memory.Heap
import Sylar.Memory.Run

/-! # Loggers, appenders and formatters

A logger holds shared pointers to its appenders, so two loggers may hold the same one. Loggers are
known by their name, appenders by their address; a formatter never changes and is a value.
-/
namespace Sylar.Log
open Memory
open Http (byte bytes)

/-- The items of a format. Only `%d` makes use of the text in braces. -/
inductive FormatItem where
  | string (str : List UInt8)
  | message | level | elapse | name | threadId | newLine
  | dateTime (format : List UInt8)
  | filename | line | tab | fiberId | threadName
deriving DecidableEq, Repr

def FormatItem.newDateTime (format : List UInt8) : FormatItem :=
  .dateTime (if format = [] then bytes "%Y-%m-%d  %H:%M:%S" else format)

/-- `s_format_items`. -/
def formatItems : List (List UInt8 × (List UInt8 → FormatItem)) :=
  [(bytes "m", fun _ => .message), (bytes "p", fun _ => .level), (bytes "r", fun _ => .elapse),
    (bytes "c", fun _ => .name), (bytes "t", fun _ => .threadId), (bytes "n", fun _ => .newLine),
    (bytes "d", .newDateTime), (bytes "f", fun _ => .filename), (bytes "l", fun _ => .line),
    (bytes "T", fun _ => .tab), (bytes "F", fun _ => .fiberId), (bytes "N", fun _ => .threadName)]

structure LogFormatter where
  pattern : List UInt8
deriving DecidableEq, Repr

namespace LogFormatter

def isAlpha (c : UInt8) : Bool :=
  (65 ≤ c.toNat && c.toNat ≤ 90) || (97 ≤ c.toNat && c.toNat ≤ 122)

/-- The variables of the inner loop of `init`, which reads a placeholder. -/
structure Placeholder where
  n : ℕ
  fmtStatus : ℕ
  fmtBegin : ℕ
  str : List UInt8
  fmt : List UInt8

/-- The inner loop of `init` for the placeholder at `i`. Each round goes on by one, so there are
at most as many rounds as bytes after `i`. -/
def readPlaceholder (p : List UInt8) (i : ℕ) : ℕ → Placeholder → Placeholder
  | 0, l => l
  | rounds + 1, l =>
    match p[l.n]? with
    | none => l
    | some c =>
      if l.fmtStatus = 0 ∧ !isAlpha c ∧ c ≠ byte '\x7b' ∧ c ≠ byte '\x7d' then
        { l with str := (p.drop (i + 1)).take (l.n - i - 1) }
      else if l.fmtStatus = 0 ∧ c = byte '\x7b' then
        readPlaceholder p i rounds
          { l with
            str := (p.drop (i + 1)).take (l.n - i - 1)
            fmtStatus := 1
            fmtBegin := l.n
            n := l.n + 1 }
      else if l.fmtStatus = 1 ∧ c = byte '\x7d' then
        { l with
          fmt := (p.drop (l.fmtBegin + 1)).take (l.n - l.fmtBegin - 1)
          fmtStatus := 0
          n := l.n + 1 }
      else
        readPlaceholder p i rounds
          { l with
            n := l.n + 1
            str := if l.n + 1 = p.length ∧ l.str = [] then p.drop (i + 1) else l.str }

/-- The variables of the outer loop of `init`: the tuples of `vec` have the text, the format and
whether it is a placeholder. -/
structure Parsed where
  vec : List (List UInt8 × List UInt8 × Bool)
  nstr : List UInt8
  error : Bool

def Parsed.flush (s : Parsed) : Parsed :=
  if s.nstr = [] then s else { s with vec := s.vec ++ [(s.nstr, [], false)], nstr := [] }

/-- The outer loop of `init` from `i` on. After `%%` it goes on with the second of the two. -/
def parse (p : List UInt8) : ℕ → ℕ → Parsed → Parsed
  | 0, _, s => s
  | rounds + 1, i, s =>
    match p[i]? with
    | none => s
    | some c =>
      if c ≠ byte '%' then parse p rounds (i + 1) { s with nstr := s.nstr ++ [c] }
      else if p[i + 1]? = some (byte '%') then
        parse p rounds (i + 1) { s with nstr := s.nstr ++ [byte '%'] }
      else
        let l := readPlaceholder p i (p.length - i - 1) ⟨i + 1, 0, 0, [], []⟩
        if l.fmtStatus = 0 then
          parse p rounds l.n
            { s.flush with vec := s.flush.vec ++ [(l.str, l.fmt, true)] }
        else
          parse p rounds (i + 1)
            { s with vec := s.vec ++ [(bytes "<<pattern_error>>", l.fmt, false)], error := true }

def parsed (f : LogFormatter) : Parsed :=
  (parse f.pattern f.pattern.length 0 ⟨[], [], false⟩).flush

/-- The item of a tuple, and whether it is an error. -/
def itemOf : List UInt8 × List UInt8 × Bool → FormatItem × Bool
  | (str, _, false) => (.string str, false)
  | (str, fmt, true) =>
    match formatItems.find? fun e => e.1 = str with
    | none => (.string (bytes "<<error_format %" ++ str ++ bytes ">>"), true)
    | some e => (e.2 fmt, false)

/-- `m_items`. -/
def items (f : LogFormatter) : List FormatItem := f.parsed.vec.map fun t => (itemOf t).1

def isError (f : LogFormatter) : Bool :=
  f.parsed.error || f.parsed.vec.any fun t => (itemOf t).2

end LogFormatter

/-- The classes derived from `LogAppender`. -/
inductive Kind where
  | stdout
  | file (filename : List UInt8)
deriving DecidableEq, Repr

structure LogAppender where
  kind : Kind
  name : List UInt8
  level : Level
  hasFormatter : Bool
  formatter : Option LogFormatter
deriving DecidableEq, Repr

namespace LogAppender

def newStdout : LogAppender := ⟨.stdout, bytes "StdoutLogAppender", .debug, false, none⟩

def newFile (filename : List UInt8) : LogAppender :=
  ⟨.file filename, bytes "FileLogAppender", .debug, false, none⟩

/-- `operator==` of both classes: the file does not count. -/
def same (a b : LogAppender) : Bool :=
  (match a.kind, b.kind with
    | .stdout, .stdout => true
    | .file _, .file _ => true
    | _, _ => false) && a.level = b.level && a.name = b.name

def setFormatter (a : LogAppender) (f : Option LogFormatter) : LogAppender :=
  { a with formatter := f, hasFormatter := f.isSome }

/-- What `Logger::setFormatter` does to an appender. -/
def inherit (a : LogAppender) (f : Option LogFormatter) : LogAppender :=
  if a.hasFormatter then a else { a with formatter := f }

/-- What `Logger::addAppender` does to an appender. -/
def adopt (a : LogAppender) (f : Option LogFormatter) : LogAppender :=
  if a.formatter = none then { a with formatter := f } else a

end LogAppender

structure Logger where
  level : Level
  appenders : List ℕ
  formatter : Option LogFormatter

/-- `Logger::Logger`. -/
def Logger.new : Logger :=
  ⟨.debug, [],
    some ⟨bytes "%d\x7b%Y-%m-%d %H:%M:%S\x7d%T%t%T%N%T%F%T[%p]%T[%c]%T%f:%l%T%m%T%N%n"⟩⟩

/-- The loggers of the `LoggerManager` and the appenders that exist. -/
structure Loggers where
  table : OrderedMap (List UInt8) Logger byteOrder
  appenders : Heap LogAppender

namespace Loggers

def putLogger (name : List UInt8) (l : Logger) (s : Loggers) : Loggers :=
  { s with table := s.table.set name l }

def putAppender (p : ℕ) (a : LogAppender) (s : Loggers) : Loggers :=
  { s with appenders := s.appenders.set p a }

/-- `LoggerManager::LoggerManager`: the logger `root` with an appender for the standard output,
which adopts its formatter. -/
def init : Loggers where
  table := OrderedMap.empty.set (bytes "root") { Logger.new with appenders := [0] }
  appenders := Heap.empty.alloc (LogAppender.newStdout.adopt Logger.new.formatter)

end Loggers

/-- `p->`. -/
def appender (p : ℕ) : Command Empty Loggers LogAppender := do
  let s ← Command.state
  match s.appenders.get p with
  | some a => pure a
  | none => Command.abort .danglingPointer

def logger (name : List UInt8) : Command Empty Loggers Logger := do
  let s ← Command.state
  match s.table.find name with
  | some l => pure l
  | none => Command.abort .nullPointer

def newAppender (a : LogAppender) : Command Empty Loggers ℕ := do
  let s ← Command.state
  Command.modify fun s => { s with appenders := s.appenders.alloc a }
  pure s.appenders.brk

/-- `LoggerManager::getLogger`; what it returns is known by the name. -/
def getLogger (name : List UInt8) : Command Empty Loggers Unit := do
  let s ← Command.state
  match s.table.find name with
  | some _ => pure ()
  | none => Command.modify (Loggers.putLogger name Logger.new)

namespace Logger

def setLevel (name : List UInt8) (level : Level) : Command Empty Loggers Unit := do
  let l ← logger name
  Command.modify (Loggers.putLogger name { l with level := level })

/-- The first entry that is the same pointer is erased. -/
def delAppender (name : List UInt8) (p : ℕ) : Command Empty Loggers Unit := do
  let l ← logger name
  Command.modify (Loggers.putLogger name { l with appenders := l.appenders.erase p })

def clearAppenders (name : List UInt8) : Command Empty Loggers Unit := do
  let l ← logger name
  Command.modify (Loggers.putLogger name { l with appenders := [] })

def inheritAll (f : Option LogFormatter) : List ℕ → Command Empty Loggers Unit :=
  runAll fun p => do
    let a ← appender p
    Command.modify (Loggers.putAppender p (a.inherit f))

def setFormatter (name : List UInt8) (f : Option LogFormatter) : Command Empty Loggers Unit := do
  let l ← logger name
  Command.modify (Loggers.putLogger name { l with formatter := f })
  inheritAll f l.appenders

def setPattern (name pattern : List UInt8) : Command Empty Loggers Unit :=
  if (LogFormatter.mk pattern).isError then pure () else setFormatter name (some ⟨pattern⟩)

def holdsSame (a : LogAppender) : List ℕ → Command Empty Loggers Bool
  | [] => pure false
  | q :: l => do
    let b ← appender q
    if b.same a then pure true else holdsSame a l

def addAppender (name : List UInt8) (p : ℕ) : Command Empty Loggers Unit := do
  let l ← logger name
  let a ← appender p
  if ← holdsSame a l.appenders then pure ()
  else do
    Command.modify (Loggers.putAppender p (a.adopt l.formatter))
    Command.modify (Loggers.putLogger name { l with appenders := l.appenders ++ [p] })

end Logger

end Sylar.Log
