import Lamb.ByteArray

/-!
# Typed reads and writes of the byte array

Machine words are stored through their memory image, with a byte swap when the
array's byte order is not the host's. Variable-length integers are base-128
digits with a continuation bit, signed ones after a zigzag map. A string is its
length in one of four formats, followed by its bytes. Floating-point values only
pass through as bit patterns.
-/

set_option autoImplicit false

namespace Lamb.ByteArray
open Lamb.ByteString

/-- `value = byteswap(value)` where the byte orders differ, then `write`. -/
def writeWord (n value : ℕ) : Op Unit := fun s =>
  write (leBytes n (if s.endian ≠ byteOrder then byteswap n value else value)) s

def readWord (n : ℕ) : Op ℕ := do
  let bytes ← read n
  let s ← get
  pure (if s.endian = byteOrder then leValue bytes else byteswap n (leValue bytes))

def writeFint8 (value : Int8) : Op Unit := write [value.toUInt8]

def writeFuint8 (value : UInt8) : Op Unit := write [value]

def writeFint16 (value : Int16) : Op Unit := writeWord 2 value.toBitVec.toNat

def writeFuint16 (value : UInt16) : Op Unit := writeWord 2 value.toNat

def writeFint32 (value : Int32) : Op Unit := writeWord 4 value.toBitVec.toNat

def writeFuint32 (value : UInt32) : Op Unit := writeWord 4 value.toNat

def writeFint64 (value : Int64) : Op Unit := writeWord 8 value.toBitVec.toNat

def writeFuint64 (value : UInt64) : Op Unit := writeWord 8 value.toNat

def encodeZigzag32 (v : Int32) : UInt32 :=
  if v < 0 then (-v).toUInt32*2-1 else (v*2).toUInt32

def encodeZigzag64 (v : Int64) : UInt64 :=
  if v < 0 then (-v).toUInt64*2-1 else (v*2).toUInt64

def decodeZigzag32 (v : UInt32) : Int32 := ((v >>> 1) ^^^ -(v &&& 1)).toInt32

def decodeZigzag64 (v : UInt64) : Int64 := ((v >>> 1) ^^^ -(v &&& 1)).toInt64

def varint : ℕ → ℕ → Bytes
  | 0, _ => []
  | n+1, value =>
    if 0x80 ≤ value then UInt8.ofNat ((value &&& 0x7F) ||| 0x80)::varint n (value >>> 7)
    else [UInt8.ofNat value]

def writeUint32 (value : UInt32) : Op Unit := write (varint 5 value.toNat)

def writeInt32 (value : Int32) : Op Unit := writeUint32 (encodeZigzag32 value)

def writeUint64 (value : UInt64) : Op Unit := write (varint 10 value.toNat)

def writeInt64 (value : Int64) : Op Unit := writeUint64 (encodeZigzag64 value)

def writeFloat (bits : UInt32) : Op Unit := writeFuint32 bits

def writeDouble (bits : UInt64) : Op Unit := writeFuint64 bits

def writeStringF16 (value : Bytes) : Op Unit := do
  writeFuint16 (UInt16.ofNat value.length)
  write value

def writeStringF32 (value : Bytes) : Op Unit := do
  writeFuint32 (UInt32.ofNat value.length)
  write value

def writeStringF64 (value : Bytes) : Op Unit := do
  writeFuint64 (UInt64.ofNat value.length)
  write value

def writeStringVint (value : Bytes) : Op Unit := do
  writeUint64 (UInt64.ofNat value.length)
  write value

def writeStringWithoutLength (value : Bytes) : Op Unit := write value

def readFuint8 : Op UInt8 := do
  let bytes ← read 1
  pure (UInt8.ofNat (leValue bytes))

def readFint8 : Op Int8 := do
  let v ← readFuint8
  pure v.toInt8

def readFint16 : Op Int16 := do
  let v ← readWord 2
  pure (Int16.ofBitVec (BitVec.ofNat 16 v))

def readFuint16 : Op UInt16 := do
  let v ← readWord 2
  pure (UInt16.ofNat v)

def readFint32 : Op Int32 := do
  let v ← readWord 4
  pure (Int32.ofBitVec (BitVec.ofNat 32 v))

def readFuint32 : Op UInt32 := do
  let v ← readWord 4
  pure (UInt32.ofNat v)

def readFint64 : Op Int64 := do
  let v ← readWord 8
  pure (Int64.ofBitVec (BitVec.ofNat 64 v))

def readFuint64 : Op UInt64 := do
  let v ← readWord 8
  pure (UInt64.ofNat v)

/-- The `for(i = 0; i < w; i += 7)` loop with `n` iterations to go, in arithmetic
modulo `2^w`. -/
def readVarint (w : ℕ) : ℕ → ℕ → ℕ → Op ℕ
  | 0, _, result => pure result
  | n+1, i, result => do
    let b ← readFuint8
    if b < 0x80 then pure (result ||| (b.toNat <<< i) % 2^w)
    else readVarint w n (i+7) (result ||| ((b.toNat &&& 0x7F) <<< i) % 2^w)

def readUint32 : Op UInt32 := do
  let v ← readVarint 32 5 0 0
  pure (UInt32.ofNat v)

def readInt32 : Op Int32 := do
  let v ← readUint32
  pure (decodeZigzag32 v)

def readUint64 : Op UInt64 := do
  let v ← readVarint 64 10 0 0
  pure (UInt64.ofNat v)

def readInt64 : Op Int64 := do
  let v ← readUint64
  pure (decodeZigzag64 v)

def readFloat : Op UInt32 := readFuint32

def readDouble : Op UInt64 := readFuint64

/-- `buff.resize(len); read(&buff[0], len)`. Beyond `maxString` bytes the string
cannot be made and `resize` throws. -/
def readBody (maxString len : ℕ) : Op Bytes :=
  if maxString < len then throw .lengthError else read len

def readStringF16 (maxString : ℕ) : Op Bytes := do
  let len ← readFuint16
  readBody maxString len.toNat

def readStringF32 (maxString : ℕ) : Op Bytes := do
  let len ← readFuint32
  readBody maxString len.toNat

def readStringF64 (maxString : ℕ) : Op Bytes := do
  let len ← readFuint64
  readBody maxString len.toNat

def readStringVint (maxString : ℕ) : Op Bytes := do
  let len ← readUint64
  readBody maxString len.toNat

inductive Kind where
  | fint8 | fuint8 | fint16 | fuint16 | fint32 | fuint32 | fint64 | fuint64
  | int32 | uint32 | int64 | uint64 | float | double
  | stringF16 | stringF32 | stringF64 | stringVint
  deriving DecidableEq, Repr

inductive Item where
  | fint8 (value : Int8)
  | fuint8 (value : UInt8)
  | fint16 (value : Int16)
  | fuint16 (value : UInt16)
  | fint32 (value : Int32)
  | fuint32 (value : UInt32)
  | fint64 (value : Int64)
  | fuint64 (value : UInt64)
  | int32 (value : Int32)
  | uint32 (value : UInt32)
  | int64 (value : Int64)
  | uint64 (value : UInt64)
  | float (bits : UInt32)
  | double (bits : UInt64)
  | stringF16 (value : Bytes)
  | stringF32 (value : Bytes)
  | stringF64 (value : Bytes)
  | stringVint (value : Bytes)
  deriving DecidableEq

def Item.kind : Item → Kind
  | .fint8 _ => .fint8
  | .fuint8 _ => .fuint8
  | .fint16 _ => .fint16
  | .fuint16 _ => .fuint16
  | .fint32 _ => .fint32
  | .fuint32 _ => .fuint32
  | .fint64 _ => .fint64
  | .fuint64 _ => .fuint64
  | .int32 _ => .int32
  | .uint32 _ => .uint32
  | .int64 _ => .int64
  | .uint64 _ => .uint64
  | .float _ => .float
  | .double _ => .double
  | .stringF16 _ => .stringF16
  | .stringF32 _ => .stringF32
  | .stringF64 _ => .stringF64
  | .stringVint _ => .stringVint

def put : Item → Op Unit
  | .fint8 v => writeFint8 v
  | .fuint8 v => writeFuint8 v
  | .fint16 v => writeFint16 v
  | .fuint16 v => writeFuint16 v
  | .fint32 v => writeFint32 v
  | .fuint32 v => writeFuint32 v
  | .fint64 v => writeFint64 v
  | .fuint64 v => writeFuint64 v
  | .int32 v => writeInt32 v
  | .uint32 v => writeUint32 v
  | .int64 v => writeInt64 v
  | .uint64 v => writeUint64 v
  | .float v => writeFloat v
  | .double v => writeDouble v
  | .stringF16 v => writeStringF16 v
  | .stringF32 v => writeStringF32 v
  | .stringF64 v => writeStringF64 v
  | .stringVint v => writeStringVint v

def take (maxString : ℕ) : Kind → Op Item
  | .fint8 => Item.fint8 <$> readFint8
  | .fuint8 => Item.fuint8 <$> readFuint8
  | .fint16 => Item.fint16 <$> readFint16
  | .fuint16 => Item.fuint16 <$> readFuint16
  | .fint32 => Item.fint32 <$> readFint32
  | .fuint32 => Item.fuint32 <$> readFuint32
  | .fint64 => Item.fint64 <$> readFint64
  | .fuint64 => Item.fuint64 <$> readFuint64
  | .int32 => Item.int32 <$> readInt32
  | .uint32 => Item.uint32 <$> readUint32
  | .int64 => Item.int64 <$> readInt64
  | .uint64 => Item.uint64 <$> readUint64
  | .float => Item.float <$> readFloat
  | .double => Item.double <$> readDouble
  | .stringF16 => Item.stringF16 <$> readStringF16 maxString
  | .stringF32 => Item.stringF32 <$> readStringF32 maxString
  | .stringF64 => Item.stringF64 <$> readStringF64 maxString
  | .stringVint => Item.stringVint <$> readStringVint maxString

end Lamb.ByteArray
