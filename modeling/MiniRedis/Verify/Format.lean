import MiniRedis.Model.Serialize

/-! # Response values

The typed values that the `out_*` functions write, as trees. `Value.write` appends a tree to a
buffer: an array or a map is its number of children followed by the children. -/

namespace MiniRedis

inductive Value where
  | nil
  | err (code : UInt32) (msg : Bytes)
  | str (s : Bytes)
  | int (val : Int64)
  | dbl (bits : UInt64)
  | bool (val : Bool)
  | arr (children : List Value)
  | map (children : List Value)

mutual

/-- Append a value to a buffer. -/
def Value.write (out : Bytes) : Value → Bytes
  | .nil => outNil out
  | .err code msg => outErr out code msg
  | .str s => outStr out s
  | .int val => outInt out val
  | .dbl bits => outDbl out bits
  | .bool val => outBool out val
  | .arr children => writeAll (outArr out (.ofNat children.length)) children
  | .map children => writeAll (outMap out (.ofNat children.length)) children

def writeAll (out : Bytes) : List Value → Bytes
  | [] => out
  | v :: vs => writeAll (v.write out) vs

end

/-- The bytes of a value. -/
def Value.encode (v : Value) : Bytes := v.write []

mutual

theorem Value.write_eq (out : Bytes) (v : Value) : v.write out = out ++ v.write [] := by
  match v with
  | .nil | .int _ | .dbl _ | .bool _ =>
    simp [Value.write, outNil, outInt, outDbl, outBool, appendBufferU8, appendBufferI64,
      appendBufferF64, appendBufferBool]
  | .err _ _ | .str _ => simp [Value.write, outErr, outStr, appendBufferU8, appendBufferU32]
  | .arr children =>
    rw [Value.write, Value.write, writeAll_eq, writeAll_eq (outArr [] _)]
    simp [outArr, appendBufferU8, appendBufferU32]
  | .map children =>
    rw [Value.write, Value.write, writeAll_eq, writeAll_eq (outMap [] _)]
    simp [outMap, appendBufferU8, appendBufferU32]

theorem writeAll_eq (out : Bytes) (vs : List Value) : writeAll out vs = out ++ writeAll [] vs := by
  match vs with
  | [] => simp [writeAll]
  | v :: vs =>
    rw [writeAll, writeAll, writeAll_eq (v.write out), writeAll_eq (v.write []), Value.write_eq out v,
      List.append_assoc]

end

theorem writeAll_map_foldl (f : α → Value) (out : Bytes) (xs : List α) :
    writeAll out (xs.map f) = xs.foldl (fun out x => (f x).write out) out := by
  induction xs generalizing out with
  | nil => rfl
  | cons x xs ih => exact ih _

end MiniRedis
