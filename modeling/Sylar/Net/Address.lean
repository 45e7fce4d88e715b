import Sylar.ByteArray.Numeric

/-! # Socket addresses

`IPv4Address`, `IPv6Address`, `UnixAddress` and `UnknowAddress` hold a structure of the socket
interface each. Ports and IPv4 addresses are stored in network byte order, so that the value of a
field on the machine depends on the order `host` of its bytes.
-/
namespace Sylar.Net
open Codec
open Sylar.ByteArray (Endian objectBytes ofObjectBytes)

/-- Where the language gives a step no meaning. -/
inductive Undefined where
  | shiftAmount
  | signedOverflow
  | outOfBounds
deriving DecidableEq, Repr

abbrev Checked := Except Undefined

def byteswapOnLittleEndian (host : Endian) {w : ℕ} (v : BitVec w) : BitVec w :=
  match host with
  | .little => byteswap v
  | .big => v

structure SockaddrIn where
  family : BitVec 16
  port : BitVec 16
  addr : BitVec 32
  zero : BitVec 64
deriving DecidableEq, Repr

structure SockaddrIn6 where
  family : BitVec 16
  port : BitVec 16
  flowinfo : BitVec 32
  addr : Vector UInt8 16
  scopeId : BitVec 32
deriving DecidableEq, Repr

structure SockaddrUn where
  family : BitVec 16
  path : Vector UInt8 108
deriving DecidableEq, Repr

structure Sockaddr where
  family : BitVec 16
  data : Vector UInt8 14
deriving DecidableEq, Repr

def afInet : BitVec 16 := 2
def afInet6 : BitVec 16 := 10

/-- `CreateMask<T>(net_bits)` for a `T` of `w` bits. The amount of the shift is a `size_t`, the one
that is shifted and the difference are `int`s. -/
def createMask (w netBits : ℕ) : Checked (BitVec w) :=
  let shift := (w + 2 ^ 64 - netBits) % 2 ^ 64
  if 32 ≤ shift then .error .shiftAmount
  else
    let power : ℤ := if shift = 31 then -2 ^ 31 else 2 ^ shift
    if power - 1 < -2 ^ 31 then .error .signedOverflow else .ok (BitVec.ofInt w (power - 1))

namespace SockaddrIn

variable (host : Endian)

/-- `IPv4Address::broadcastAddress`; `none` is a null pointer. -/
def broadcastAddress (a : SockaddrIn) (prefixLen : UInt32) : Checked (Option SockaddrIn) := do
  if 32 < prefixLen.toNat then pure none
  else do
    let mask ← createMask 32 prefixLen.toNat
    pure (some { a with addr := a.addr ||| byteswapOnLittleEndian host mask })

def networkAddress (a : SockaddrIn) (prefixLen : UInt32) : Checked (Option SockaddrIn) := do
  if 32 < prefixLen.toNat then pure none
  else do
    let mask ← createMask 32 prefixLen.toNat
    pure (some { a with addr := a.addr &&& byteswapOnLittleEndian host (~~~mask) })

/-- `IPv4Address::subnetMask`, which looks at nothing of its own address. -/
def subnetMask (prefixLen : UInt32) : Checked (Option SockaddrIn) := do
  let mask ← createMask 32 prefixLen.toNat
  pure (some ⟨afInet, 0, byteswapOnLittleEndian host (~~~mask), 0⟩)

def getPort (a : SockaddrIn) : BitVec 16 := byteswapOnLittleEndian host a.port

def address (a : SockaddrIn) : BitVec 32 := byteswapOnLittleEndian host a.addr

end SockaddrIn

def readByte (bytes : Vector UInt8 16) (i : ℕ) : Checked UInt8 :=
  if h : i < 16 then .ok (bytes.get ⟨i, h⟩) else .error .outOfBounds

def writeByte (bytes : Vector UInt8 16) (i : ℕ) (x : UInt8) : Checked (Vector UInt8 16) :=
  if h : i < 16 then .ok (bytes.set i x h) else .error .outOfBounds

/-- A loop that writes `x` to `n` bytes from the index `i` on. -/
def fillBytes (x : UInt8) : ℕ → ℕ → Vector UInt8 16 → Checked (Vector UInt8 16)
  | 0, _, bytes => pure bytes
  | n + 1, i, bytes => do
    let bytes ← writeByte bytes i x
    fillBytes x n (i + 1) bytes

namespace SockaddrIn6

/-- `IPv6Address::broadcastAddress`. -/
def broadcastAddress (a : SockaddrIn6) (prefixLen : UInt32) : Checked (Option SockaddrIn6) := do
  let place := prefixLen.toNat / 8
  let mask ← createMask 8 (prefixLen.toNat % 8)
  let old ← readByte a.addr place
  let bytes ← writeByte a.addr place (old ||| .ofBitVec mask)
  let bytes ← fillBytes 0xff (16 - (place + 1)) (place + 1) bytes
  pure (some { a with addr := bytes })

def networkAddress (a : SockaddrIn6) (prefixLen : UInt32) : Checked (Option SockaddrIn6) := do
  let place := prefixLen.toNat / 8
  let mask ← createMask 8 (prefixLen.toNat % 8)
  let old ← readByte a.addr place
  let bytes ← writeByte a.addr place (old &&& .ofBitVec (~~~mask))
  let bytes ← fillBytes 0x00 (16 - (place + 1)) (place + 1) bytes
  pure (some { a with addr := bytes })

/-- `IPv6Address::subnetMask`. -/
def subnetMask (prefixLen : UInt32) : Checked (Option SockaddrIn6) := do
  let place := prefixLen.toNat / 8
  let mask ← createMask 8 (prefixLen.toNat % 8)
  let bytes ← writeByte (.replicate 16 0) place (.ofBitVec (~~~mask))
  let bytes ← fillBytes 0xff place 0 bytes
  pure (some ⟨afInet6, 0, 0, bytes, 0⟩)

variable (host : Endian)

def getPort (a : SockaddrIn6) : BitVec 16 := byteswapOnLittleEndian host a.port

/-- `(uint16_t *)m_addr.sin6_addr.s6_addr`, eight words. -/
def words (a : SockaddrIn6) : List (BitVec 16) :=
  (List.range 8).map fun i =>
    ofObjectBytes host 16 [a.addr[2 * i]?.getD 0, a.addr[2 * i + 1]?.getD 0]

/-- The loop of `insert` over the words: what it writes, and `used_zeros` at its end. The first
argument is the word before, if there is one. -/
def insertWords : Option (BitVec 16) → Bool → List (BitVec 16) → List Char × Bool
  | _, usedZeros, [] => ([], usedZeros)
  | before, usedZeros, word :: words =>
    if word = 0 ∧ usedZeros = false then insertWords (some word) usedZeros words
    else
      let opens := decide (before = some 0 ∧ usedZeros = false)
      let rest := insertWords (some word) (usedZeros || opens) words
      ((if opens then [':'] else []) ++ (if before.isSome then [':'] else []) ++
        Nat.toDigits 16 (byteswapOnLittleEndian host word).toNat ++ rest.1, rest.2)

/-- What `insert` writes between the brackets. -/
def addressText (a : SockaddrIn6) : List Char :=
  let (text, usedZeros) := insertWords host none false (a.words host)
  text ++ if usedZeros = false ∧ (a.words host).getLast? = some 0 then [':', ':'] else []

def insert (a : SockaddrIn6) : List Char :=
  '[' :: a.addressText host ++ [']', ':'] ++ Nat.toDigits 10 (a.getPort host).toNat

end SockaddrIn6

/-- The kinds of `Address`, with what an object of the kind holds. -/
inductive Address where
  | ipv4 (addr : SockaddrIn)
  | ipv6 (addr : SockaddrIn6)
  | unix (addr : SockaddrUn) (length : UInt32)
  | unknow (addr : Sockaddr)
deriving DecidableEq, Repr

namespace Address

def image (host : Endian) : Address → List UInt8
  | ipv4 a => objectBytes host a.family ++ objectBytes host a.port ++ objectBytes host a.addr ++
      objectBytes host a.zero
  | ipv6 a => objectBytes host a.family ++ objectBytes host a.port ++ objectBytes host a.flowinfo ++
      a.addr.toList ++ objectBytes host a.scopeId
  | unix a _ => objectBytes host a.family ++ a.path.toList
  | unknow a => objectBytes host a.family ++ a.data.toList

/-- `getAddrLen`: the size of the structure, or `m_length`. -/
def getAddrLen : Address → ℕ
  | ipv4 _ => 16
  | ipv6 _ => 28
  | unix _ length => length.toNat
  | unknow _ => 16

end Address

/-- The first difference of two strings, `.eq` if there is none before one of them ends. -/
def compareBytes : List UInt8 → List UInt8 → Ordering
  | x :: xs, y :: ys => if x < y then .lt else if y < x then .gt else compareBytes xs ys
  | _, _ => .eq

def memcmp (l r : List UInt8) (n : ℕ) : Checked Ordering :=
  if l.length < n ∨ r.length < n then .error .outOfBounds
  else .ok (compareBytes (l.take n) (r.take n))

/-- An address object in memory; `place` is what `getAddr()` points to. -/
structure Object where
  place : ℕ
  value : Address
deriving DecidableEq, Repr

namespace Object

variable (host : Endian)

/-- `Address::operator<`. -/
def less (a b : Object) : Checked Bool := do
  let minlen := min a.value.getAddrLen b.value.getAddrLen
  let result ← memcmp (a.value.image host) (b.value.image host) minlen
  match result with
  | .lt => pure true
  | .gt => pure false
  | .eq => pure (decide (a.place < b.place))

/-- `Address::operator==`. -/
def equal (a b : Object) : Checked Bool :=
  if a.value.getAddrLen = b.value.getAddrLen then do
    let result ← memcmp (a.value.image host) (b.value.image host) a.value.getAddrLen
    pure (decide (result = .eq))
  else pure false

end Object

end Sylar.Net
