import MiniRedis.Model.Serialize

/-! # `client.cpp`

How the client sends a request and reads a response. `print_response` computes the lengths of
strings and messages in `uint32_t` and returns an `int32_t`; a read outside the payload is a fault.
The depth of its recursion is bounded by the number of bytes. -/

namespace MiniRedis

/-! ## Requests -/

/-- The loop of `send_request` over the arguments. -/
def appendArg (payload arg : Bytes) : Bytes :=
  let argLen : UInt32 := .ofNat arg.length
  let payload := appendBufferU32 payload argLen
  if argLen ≠ 0 then payload ++ arg.take argLen.toNat else payload

/-- The payload that `send_request` builds. -/
def requestPayload (cmd : List Bytes) : Bytes :=
  cmd.foldl appendArg (appendBufferU32 [] (.ofNat cmd.length))

/-- The bytes that `send_request` gives to `write_all`; none if it refuses. -/
def sendRequest (cmd : List Bytes) : Option Bytes :=
  let payload := requestPayload cmd
  let payloadLen : UInt32 := .ofNat payload.length
  if payloadLen.toNat > kMaxMsg then none else some (appendBufferU32 [] payloadLen ++ payload)

/-! ## Responses -/

/-- What the client prints. -/
inductive Printed where
  | nil
  | error (code : Int32) (msg : Bytes)
  | str (s : Bytes)
  | int (val : Int64)
  | dbl (bits : UInt64)
  | bool (val : Bool)
  | arrayLength (len : UInt32)
  | arrayEnd
  | mapEnd
  | badResponse
  | badResponseLength
  | unexpectedEof
  | readError
  deriving DecidableEq, Repr

/-- `memcpy` of `n` bytes from the payload. -/
def copyFrom (data : Bytes) (pos n : Nat) : Result Bytes :=
  if pos + n ≤ data.length then return (data.drop pos).take n else .error .memory

def copyU32 (data : Bytes) (pos : Nat) : Result UInt32 := do
  return .ofNat (leDecode (← copyFrom data pos 4))

def copyU64 (data : Bytes) (pos : Nat) : Result UInt64 := do
  return .ofNat (leDecode (← copyFrom data pos 8))

/-- The bytes that `%.*s` prints: up to a NUL or the precision. -/
def formatText : (precision : Option Nat) → (data : Bytes) → Result Bytes
  | some 0, _ => return []
  | _, [] => .error .memory
  | precision, c :: data =>
    if c = 0 then return []
    else do return c :: (← formatText (precision.map (· - 1)) data)

/-- The precision that a `uint32_t` argument stands for: negative ones count as missing. -/
def textPrecision (len : UInt32) : Option Nat := if len.toInt32 < 0 then none else some len.toNat

/-- The loop over the remaining `n` elements from position `pos` on; none if one of them is bad. -/
def printElements (print : Bytes → Result (Int32 × List Printed)) (data : Bytes) :
    (n pos : Nat) → Result (Option Nat × List Printed)
  | 0, pos => return (some pos, [])
  | n + 1, pos => do
    let (rv, out) ← print (data.drop pos)
    if rv ≤ 0 then return (none, out ++ [.badResponse])
    else
      let (pos, out') ← printElements print data n (pos + rv.toInt.toNat)
      return (pos, out ++ out')

/-- Print one value: the number of bytes it takes, or `-1`. -/
def printResponse : (fuel : Nat) → (data : Bytes) → Result (Int32 × List Printed)
  | 0, _ => .error .diverges
  | _ + 1, [] => return (-1, [.badResponse])
  | fuel + 1, tag :: data' => do
    let data := tag :: data'
    let size := data.length
    if tag = tagNil then return (1, [.nil])
    else if tag = tagErr then
      if size < 1 + 8 then return (-1, [.badResponse])
      else
        let code ← copyU32 data 1
        let len ← copyU32 data (1 + 4)
        if size < (1 + 8 + len).toNat then return (-1, [.badResponse])
        else
          let msg ← formatText (textPrecision len) (data.drop (1 + 8))
          return ((1 + 8 + len).toInt32, [.error code.toInt32 msg])
    else if tag = tagStr then
      if size < 1 + 4 then return (-1, [.badResponse])
      else
        let len ← copyU32 data 1
        if size < (1 + 4 + len).toNat then return (-1, [.badResponse])
        else
          let s ← formatText (textPrecision len) (data.drop (1 + 4))
          return ((1 + 4 + len).toInt32, [.str s])
    else if tag = tagInt then
      if size < 1 + 8 then return (-1, [.badResponse])
      else return (1 + 8, [.int (← copyU64 data 1).toInt64])
    else if tag = tagDbl then
      if size < 1 + 8 then return (-1, [.badResponse])
      else return (1 + 8, [.dbl (← copyU64 data 1)])
    else if tag = tagBool then
      if size < 1 + 1 then return (-1, [.badResponse])
      else return (1 + 1, [.bool ((← copyFrom data 1 1) != [0])])
    else if tag = tagArr then
      if size < 1 + 4 then return (-1, [.badResponse])
      else
        let len ← copyU32 data 1
        match ← printElements (printResponse fuel) data len.toNat (1 + 4) with
        | (none, out) => return (-1, .arrayLength len :: out)
        | (some pos, out) => return (.ofNat pos, .arrayLength len :: out ++ [.arrayEnd])
    else if tag = tagMap then
      if size < 1 + 4 then return (-1, [.badResponse])
      else
        let len ← copyU32 data 1
        match ← printElements (printResponse fuel) data len.toNat (1 + 4) with
        | (none, out) => return (-1, out)
        | (some pos, out) => return (.ofNat pos, out ++ [.mapEnd])
    else return (-1, [.badResponse])

/-- Read exactly `n` bytes of what the server has sent; none at the end of the stream. -/
def readAll (stream : Bytes) (n : Nat) : Option (Bytes × Bytes) :=
  if stream.length < n then none else some (stream.take n, stream.drop n)

/-- Read one response from the stream and print it. -/
def readResponse (stream : Bytes) : Result (Int32 × List Printed) :=
  match readAll stream 4 with
  | none => return (-1, [.unexpectedEof])
  | some (header, stream) =>
    let payloadLen : UInt32 := .ofNat (leDecode header)
    if payloadLen.toNat > kMaxMsg then return (-1, [.badResponseLength])
    else
      match readAll stream payloadLen.toNat with
      | none => return (-1, [.readError])
      | some (payload, _) => do
        let (rv, out) ← printResponse (payload.length + 1) payload
        if rv > 0 ∧ rv.toUInt32 ≠ payloadLen then return (-1, out ++ [.badResponse])
        else return (rv, out)

end MiniRedis
