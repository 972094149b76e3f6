import MiniRedis.Theory.LittleEndian
import MiniRedis.Model.Common

/-! # `core/buffer_io.h` and `net/serialize.cpp`

Buffers, and the tagged values that responses are made of. Numbers are copied to and from buffers as
they lie in memory, which is little-endian. -/

namespace MiniRedis

def appendBufferU8 (buffer : Bytes) (value : UInt8) : Bytes := buffer ++ [value]

def appendBufferU32 (buffer : Bytes) (value : UInt32) : Bytes := buffer ++ leEncode 4 value.toNat

def appendBufferI64 (buffer : Bytes) (value : Int64) : Bytes :=
  buffer ++ leEncode 8 value.toUInt64.toNat

/-- Any double, given by its bits. -/
def appendBufferF64 (buffer : Bytes) (bits : UInt64) : Bytes :=
  buffer ++ leEncode 8 bits.toNat

def appendBufferBool (buffer : Bytes) (value : Bool) : Bytes :=
  buffer ++ [if value then 1 else 0]

/-- Remove bytes from the front. -/
def consumeBuffer (buffer : Bytes) (len : Nat) : Bytes := buffer.drop len

def errUnknown : UInt32 := 1
def errTooBig : UInt32 := 2
def errBadTyp : UInt32 := 3
def errBadArg : UInt32 := 4

def tagNil : UInt8 := 0
def tagErr : UInt8 := 1
def tagStr : UInt8 := 2
def tagInt : UInt8 := 3
def tagDbl : UInt8 := 4
def tagBool : UInt8 := 5
def tagArr : UInt8 := 6
def tagMap : UInt8 := 7

def outNil (out : Bytes) : Bytes := appendBufferU8 out tagNil

def outErr (out : Bytes) (code : UInt32) (msg : Bytes) : Bytes :=
  let out := appendBufferU8 out tagErr
  let out := appendBufferU32 out code
  let out := appendBufferU32 out (.ofNat msg.length)
  out ++ msg

def outStr (out : Bytes) (s : Bytes) : Bytes :=
  let out := appendBufferU8 out tagStr
  let out := appendBufferU32 out (.ofNat s.length)
  out ++ s

def outInt (out : Bytes) (val : Int64) : Bytes := appendBufferI64 (appendBufferU8 out tagInt) val

def outDbl (out : Bytes) (bits : UInt64) : Bytes := appendBufferF64 (appendBufferU8 out tagDbl) bits

def outBool (out : Bytes) (val : Bool) : Bytes := appendBufferBool (appendBufferU8 out tagBool) val

def outArr (out : Bytes) (n : UInt32) : Bytes := appendBufferU32 (appendBufferU8 out tagArr) n

def outMap (out : Bytes) (n : UInt32) : Bytes := appendBufferU32 (appendBufferU8 out tagMap) n

end MiniRedis
