import Sylar.ByteArray.Flat
import Sylar.Codec.Fixed
import Sylar.Codec.Varint

/-! # Typed numeric access to `ByteArray`

Fixed-width integers are stored through their object representation on the host,
after a byte swap when the array's order is the other one. Variable-length ones
go through a stack buffer of five or ten bytes; an index past its end is a fault.
-/
namespace Sylar.ByteArray
open Memory Codec

variable {w : ℕ}

/-- The object representation of an integer on a machine with the given byte order. -/
def objectBytes (host : Endian) (v : BitVec w) : List UInt8 :=
  match host with
  | .little => bytesOf (w / 8) v.toNat
  | .big => (bytesOf (w / 8) v.toNat).reverse

def ofObjectBytes (host : Endian) (w : ℕ) (l : List UInt8) : BitVec w :=
  match host with
  | .little => BitVec.ofNat w (natOf l)
  | .big => BitVec.ofNat w (natOf l.reverse)

/-- The value of an integer object; its bytes must all have been written. -/
def load (host : Endian) (w : ℕ) (cells : List Cell) : Cmd (BitVec w) :=
  match cells.mapM id with
  | some l => pure (ofObjectBytes host w l)
  | none => Command.abort .indeterminateValue

def setLittleEndian (val : Bool) : Cmd Unit :=
  Command.modify fun s => { s with endian := if val then .little else .big }

/-- The shared body of `writeFint16` to `writeFuint64`; `host` is `SYLAR_BYTE_ORDER`. -/
def writeFixed (host : Endian) (value : BitVec w) : Cmd Unit := do
  let s ← Command.state
  write (objectBytes host (if s.endian ≠ host then byteswap value else value))

/-- `type v; read(&v, sizeof(v));`. -/
def readObject (host : Endian) (w : ℕ) : Cmd (BitVec w) := do
  let cells ← read (w / 8)
  load host w cells

/-- The macro `XX(type)` behind `readFint16` to `readFuint64`. -/
def readFixed (host : Endian) (w : ℕ) : Cmd (BitVec w) := do
  let v ← readObject host w
  let s ← Command.state
  if s.endian = host then pure v else pure (byteswap v)

/-- `while(value >= 0x80) { tmp[i++] = (value & 0x7F) | 0x80; value >>= 7; } tmp[i++] = value;`
with `room` unused entries left in `tmp`. -/
def encodeLoop : ℕ → BitVec w → List UInt8 → Cmd (List UInt8)
  | 0, _, _ => Command.abort .outOfBounds
  | room + 1, value, tmp =>
    if 0x80#w ≤ value then
      encodeLoop room (value >>> 7)
        (tmp ++ [UInt8.ofBitVec (((value &&& 0x7F#w) ||| 0x80#w).setWidth 8)])
    else pure (tmp ++ [UInt8.ofBitVec (value.setWidth 8)])

/-- The shared body of `writeUint32` and `writeUint64`; `room` is the size of the buffer. -/
def writeVarint (room : ℕ) (value : BitVec w) : Cmd Unit := do
  let tmp ← encodeLoop room value []
  write tmp

def writeFint8 (host : Endian) (value : Int8) : Cmd Unit := write (objectBytes host value.toBitVec)
def writeFuint8 (host : Endian) (value : UInt8) : Cmd Unit :=
  write (objectBytes host value.toBitVec)
def writeFint16 (host : Endian) (value : Int16) : Cmd Unit := writeFixed host value.toBitVec
def writeFuint16 (host : Endian) (value : UInt16) : Cmd Unit := writeFixed host value.toBitVec
def writeFint32 (host : Endian) (value : Int32) : Cmd Unit := writeFixed host value.toBitVec
def writeFuint32 (host : Endian) (value : UInt32) : Cmd Unit := writeFixed host value.toBitVec
def writeFint64 (host : Endian) (value : Int64) : Cmd Unit := writeFixed host value.toBitVec
def writeFuint64 (host : Endian) (value : UInt64) : Cmd Unit := writeFixed host value.toBitVec

def encodingZigzag32 (v : Int32) : UInt32 := UInt32.ofBitVec (zigzag v.toBitVec)
def encodingZigzag64 (v : Int64) : UInt64 := UInt64.ofBitVec (zigzag v.toBitVec)
def decodingZigzag32 (v : UInt32) : Int32 := Int32.ofBitVec (unzigzag v.toBitVec)
def decodingZigzag64 (v : UInt64) : Int64 := Int64.ofBitVec (unzigzag v.toBitVec)

def writeUint32 (value : UInt32) : Cmd Unit := writeVarint 5 value.toBitVec
def writeUint64 (value : UInt64) : Cmd Unit := writeVarint 10 value.toBitVec
def writeInt32 (value : Int32) : Cmd Unit := writeUint32 (encodingZigzag32 value)
def writeInt64 (value : Int64) : Cmd Unit := writeUint64 (encodingZigzag64 value)

def readFint8 (host : Endian) : Cmd Int8 := do pure (Int8.ofBitVec (← readObject host 8))
def readFuint8 (host : Endian) : Cmd UInt8 := do pure (UInt8.ofBitVec (← readObject host 8))
def readFint16 (host : Endian) : Cmd Int16 := do pure (Int16.ofBitVec (← readFixed host 16))
def readFuint16 (host : Endian) : Cmd UInt16 := do pure (UInt16.ofBitVec (← readFixed host 16))
def readFint32 (host : Endian) : Cmd Int32 := do pure (Int32.ofBitVec (← readFixed host 32))
def readFuint32 (host : Endian) : Cmd UInt32 := do pure (UInt32.ofBitVec (← readFixed host 32))
def readFint64 (host : Endian) : Cmd Int64 := do pure (Int64.ofBitVec (← readFixed host 64))
def readFuint64 (host : Endian) : Cmd UInt64 := do pure (UInt64.ofBitVec (← readFixed host 64))

/-- `for(int i = 0; i < w; i += 7)`: a byte below `0x80` ends the number. -/
def decodeLoop (host : Endian) : ℕ → ℕ → BitVec w → Cmd (BitVec w)
  | 0, _, _ => Command.abort .fuelExhausted
  | fuel + 1, i, result =>
    if i < w then do
      let b ← readFuint8 host
      if b < 0x80 then pure (result ||| (b.toBitVec.setWidth w <<< i))
      else decodeLoop host fuel (i + 7) (result ||| ((b &&& 0x7f).toBitVec.setWidth w <<< i))
    else pure result

def readUint32 (host : Endian) : Cmd UInt32 := do
  pure (UInt32.ofBitVec (← decodeLoop host 32 0 0))
def readUint64 (host : Endian) : Cmd UInt64 := do
  pure (UInt64.ofBitVec (← decodeLoop host 64 0 0))
def readInt32 (host : Endian) : Cmd Int32 := do pure (decodingZigzag32 (← readUint32 host))
def readInt64 (host : Endian) : Cmd Int64 := do pure (decodingZigzag64 (← readUint64 host))

end Sylar.ByteArray
