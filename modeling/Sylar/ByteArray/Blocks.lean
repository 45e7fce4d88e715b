import Sylar.Memory.Command
import Sylar.Memory.Heap
import Sylar.Memory.Splice

/-! # `ByteArray`: a byte buffer kept in a linked list of blocks

The functions follow `bytearray.cc` statement by statement. Pointers are heap
addresses, null is `none`, and every dereference and every `memcpy` is checked,
so a null node, a freed node and a copy outside a block are visible outcomes.
Loops carry a bound that is never reached from a state the class can be in.
-/
namespace Sylar
open Memory

/-- A byte of allocated memory; `none` is a byte that was never written. -/
abbrev Cell := Option UInt8

namespace ByteArray

structure Node where
  ptr : List Cell
  next : Option ℕ
  size : ℕ

/-- `Node(size_t s)`: `new char[s]` leaves the bytes indeterminate. -/
def Node.ofSize (s : ℕ) : Node := ⟨List.replicate s none, none, s⟩

inductive Endian where
  | little
  | big
deriving DecidableEq, Repr

/-- The exceptions thrown by the class, with their texts. -/
inductive Exception where
  | outOfRange (what : String)
deriving DecidableEq, Repr

/-- One entry of the scatter/gather lists handed to `recvmsg` and `sendmsg`. -/
structure Iovec where
  node : Option ℕ
  offset : ℕ
  len : ℕ
deriving DecidableEq, Repr

end ByteArray

structure ByteArray where
  baseSize : ℕ
  position : ℕ
  capacity : ℕ
  size : ℕ
  endian : ByteArray.Endian
  root : Option ℕ
  cur : Option ℕ
  heap : Heap ByteArray.Node

namespace ByteArray

abbrev Cmd := Command Exception ByteArray

/-- `ByteArray(size_t base_size)`. -/
def new (baseSize : ℕ) : ByteArray where
  baseSize := baseSize
  position := 0
  capacity := baseSize
  size := 0
  endian := .big
  root := some 0
  cur := some 0
  heap := Heap.empty.alloc (Node.ofSize baseSize)

def getSizeForWrite (s : ByteArray) : ℕ := s.capacity - s.position

def getSizeForRead (s : ByteArray) : ℕ := if s.position > s.size then 0 else s.size - s.position

/-- `p->`: the node behind a pointer. -/
def deref : Option ℕ → Cmd Node
  | none => Command.abort .nullPointer
  | some a => Command.lookup .danglingPointer fun s => s.heap.get a

def store (p : Option ℕ) (n : Node) : Cmd Unit :=
  match p with
  | none => Command.abort .nullPointer
  | some a => Command.modify fun s => { s with heap := s.heap.set a n }

/-- `memcpy(p->ptr + npos, d, |d|)`. -/
def copyTo (p : Option ℕ) (npos : ℕ) (d : List UInt8) : Cmd Unit := do
  let n ← deref p
  if npos + d.length ≤ n.ptr.length then
    store p { n with ptr := splice n.ptr npos (d.map some) }
  else Command.abort .outOfBounds

/-- `memcpy(_, p->ptr + npos, len)`. -/
def copyFrom (p : Option ℕ) (npos len : ℕ) : Cmd (List Cell) := do
  let n ← deref p
  if npos + len ≤ n.ptr.length then pure ((n.ptr.drop npos).take len)
  else Command.abort .outOfBounds

/-- `while(tmp->next) tmp = tmp->next;` -/
def lastLoop : ℕ → Option ℕ → Cmd (Option ℕ)
  | 0, _ => Command.abort .fuelExhausted
  | fuel + 1, tmp => do
    let n ← deref tmp
    if n.next.isSome then lastLoop fuel n.next else pure tmp

/-- The allocation loop; `first` is the first node that it created. -/
def growLoop : ℕ → Option ℕ → Option ℕ → Cmd (Option ℕ)
  | 0, _, first => pure first
  | count + 1, tmp, first => do
    let n ← deref tmp
    let s ← Command.state
    let fresh := some s.heap.brk
    Command.modify fun s => { s with heap := s.heap.alloc (Node.ofSize s.baseSize) }
    store tmp { n with next := fresh }
    Command.modify fun s => { s with capacity := s.capacity + s.baseSize }
    growLoop count fresh (if first.isNone then fresh else first)

def addCapacityIfNeeded (ensureCapacity : ℕ) : Cmd Unit := do
  if ensureCapacity = 0 then pure ()
  else
    let s ← Command.state
    let oldCap := s.getSizeForWrite
    if oldCap ≥ ensureCapacity then pure ()
    else
      let ensure := ensureCapacity - oldCap
      let count := ensure / s.baseSize + (if ensure % s.baseSize ≠ 0 then 1 else 0)
      let tmp ← lastLoop s.heap.brk s.root
      let first ← growLoop count tmp none
      if oldCap = 0 then Command.modify fun s => { s with cur := first } else pure ()

def writeLoop (buf : List UInt8) : ℕ → ℕ → ℕ → ℕ → ℕ → Cmd Unit
  | 0, _, _, _, _ => Command.abort .fuelExhausted
  | fuel + 1, size, npos, ncap, bpos =>
    if size = 0 then pure ()
    else if ncap ≥ size then do
      let s ← Command.state
      copyTo s.cur npos ((buf.drop bpos).take size)
      let n ← deref s.cur
      if n.size = npos + size then Command.modify fun s => { s with cur := n.next } else pure ()
      Command.modify fun s => { s with position := s.position + size }
      writeLoop buf fuel 0 npos ncap (bpos + size)
    else do
      let s ← Command.state
      copyTo s.cur npos ((buf.drop bpos).take ncap)
      Command.modify fun s => { s with position := s.position + ncap }
      let n ← deref s.cur
      Command.modify fun s => { s with cur := n.next }
      let n' ← deref n.next
      writeLoop buf fuel (size - ncap) 0 n'.size (bpos + ncap)

def write (buf : List UInt8) : Cmd Unit :=
  if buf.length = 0 then pure ()
  else do
    addCapacityIfNeeded buf.length
    let s ← Command.state
    let npos := s.position % s.baseSize
    let n ← deref s.cur
    writeLoop buf (buf.length + 1) buf.length npos (n.size - npos) 0
    Command.modify fun s => if s.position > s.size then { s with size := s.position } else s

def readLoop : ℕ → ℕ → ℕ → ℕ → List Cell → Cmd (List Cell)
  | 0, _, _, _, _ => Command.abort .fuelExhausted
  | fuel + 1, readSize, npos, ncap, buf =>
    if readSize = 0 then pure buf
    else if ncap ≥ readSize then do
      let s ← Command.state
      let d ← copyFrom s.cur npos readSize
      let n ← deref s.cur
      if n.size = npos + readSize then Command.modify fun s => { s with cur := n.next }
      else pure ()
      Command.modify fun s => { s with position := s.position + readSize }
      readLoop fuel 0 npos ncap (buf ++ d)
    else do
      let s ← Command.state
      let d ← copyFrom s.cur npos ncap
      Command.modify fun s => { s with position := s.position + ncap }
      let n ← deref s.cur
      Command.modify fun s => { s with cur := n.next }
      let n' ← deref n.next
      readLoop fuel (readSize - ncap) 0 n'.size (buf ++ d)

/-- `read(void *buf, size_t read_size)`; the filled buffer is the result. -/
def read (readSize : ℕ) : Cmd (List Cell) := do
  let s ← Command.state
  if readSize > s.getSizeForRead then Command.raise (.outOfRange "not enough len to read")
  else
    let npos := s.position % s.baseSize
    let n ← deref s.cur
    readLoop (readSize + 1) readSize npos (n.size - npos) []

def peekLoop : ℕ → ℕ → ℕ → ℕ → Option ℕ → List Cell → Cmd (List Cell)
  | 0, _, _, _, _, _ => Command.abort .fuelExhausted
  | fuel + 1, readSize, npos, ncap, cur, buf =>
    if readSize = 0 then pure buf
    else if ncap ≥ readSize then do
      let d ← copyFrom cur npos readSize
      pure (buf ++ d)
    else do
      let d ← copyFrom cur npos ncap
      let n ← deref cur
      let n' ← deref n.next
      peekLoop fuel (readSize - ncap) 0 n'.size n.next (buf ++ d)

def readForPeek (readSize : ℕ) : Cmd (List Cell) := do
  let s ← Command.state
  if readSize > s.size - s.position then Command.raise (.outOfRange "not enough len")
  else
    let npos := s.position % s.baseSize
    let n ← deref s.cur
    peekLoop (readSize + 1) readSize npos (n.size - npos) s.cur []

def toString : Cmd (List Cell) := do
  let s ← Command.state
  if s.getSizeForRead = 0 then pure [] else readForPeek s.getSizeForRead

/-- `while(v > m_cur->size) { v -= m_cur->size; m_cur = m_cur->next; }` -/
def seekLoop : ℕ → ℕ → Cmd ℕ
  | 0, _ => Command.abort .fuelExhausted
  | fuel + 1, v => do
    let s ← Command.state
    let n ← deref s.cur
    if v > n.size then
      Command.modify fun s => { s with cur := n.next }
      seekLoop fuel (v - n.size)
    else pure v

def setPosition (v : ℕ) : Cmd Unit := do
  let s ← Command.state
  if v > s.capacity then Command.raise (.outOfRange "ByteArray set position out of range")
  else
    Command.modify fun s => { s with position := v }
    Command.modify fun s => if s.position > s.size then { s with size := s.position } else s
    Command.modify fun s => { s with cur := s.root }
    let v' ← seekLoop (v + 1) v
    let s ← Command.state
    let n ← deref s.cur
    if v' = n.size then Command.modify fun s => { s with cur := n.next } else pure ()

/-- `while(temp) { m_cur = temp; temp = temp->next; delete m_cur; }` -/
def freeLoop : ℕ → Option ℕ → Cmd Unit
  | _, none => pure ()
  | 0, some _ => Command.abort .fuelExhausted
  | fuel + 1, some a => do
    let n ← deref (some a)
    Command.modify fun s => { s with cur := some a, heap := s.heap.free a }
    freeLoop fuel n.next

def clear : Cmd Unit := do
  Command.modify fun s => { s with position := 0, size := 0, capacity := s.baseSize }
  let s ← Command.state
  let n ← deref s.root
  freeLoop s.heap.brk n.next
  Command.modify fun s => { s with cur := s.root }
  let n ← deref s.root
  store s.root { n with next := none }

/-- The loop shared by the three functions that list buffers. -/
def iovLoop : ℕ → ℕ → ℕ → ℕ → Option ℕ → List Iovec → Cmd (List Iovec)
  | 0, _, _, _, _, _ => Command.abort .fuelExhausted
  | fuel + 1, len, npos, ncap, cur, buffers =>
    if len = 0 then pure buffers
    else if ncap ≥ len then iovLoop fuel 0 npos ncap cur (buffers ++ [⟨cur, npos, len⟩])
    else do
      let n ← deref cur
      let n' ← deref n.next
      iovLoop fuel (len - ncap) 0 n'.size n.next (buffers ++ [⟨cur, npos, ncap⟩])

def getReadBuffers (buffers : List Iovec) (len : ℕ) : Cmd (ℕ × List Iovec) := do
  let s ← Command.state
  let len := if len > s.getSizeForRead then s.getSizeForRead else len
  if len = 0 then pure (0, buffers)
  else
    let npos := s.position % s.baseSize
    let n ← deref s.cur
    let buffers ← iovLoop (len + 1) len npos (n.size - npos) s.cur buffers
    pure (len, buffers)

/-- `while(count--) { cur = cur->next; }` -/
def nthLoop : ℕ → Option ℕ → Cmd (Option ℕ)
  | 0, cur => pure cur
  | count + 1, cur => do
    let n ← deref cur
    nthLoop count n.next

def getReadBuffersAt (buffers : List Iovec) (len position : ℕ) : Cmd (ℕ × List Iovec) := do
  let s ← Command.state
  if position ≥ s.size then pure (0, buffers)
  else
    let len := min len (s.size - position)
    let npos := position % s.baseSize
    let cur ← nthLoop (position / s.baseSize) s.root
    if cur.isNone then pure (0, buffers)
    else
      let n ← deref cur
      let buffers ← iovLoop (len + 1) len npos (n.size - npos) cur buffers
      pure (if buffers.length ≠ 0 then len else 0, buffers)

def getWriteBuffers (buffers : List Iovec) (len : ℕ) : Cmd (ℕ × List Iovec) := do
  if len = 0 then pure (0, buffers)
  else
    addCapacityIfNeeded len
    let s ← Command.state
    let npos := s.position % s.baseSize
    let n ← deref s.cur
    let buffers ← iovLoop (len + 1) len npos (n.size - npos) s.cur buffers
    pure (if buffers.length ≠ 0 then len else 0, buffers)

end ByteArray
end Sylar
