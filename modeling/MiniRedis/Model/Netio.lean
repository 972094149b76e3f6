import MiniRedis.Model.Commands

/-! # `net/protocol.cpp` and `net/netio.cpp`

Requests are parsed from frames, and responses are framed. The socket is the environment: what
`read()` and `write()` return is an argument of the functions that call them. A clock is the sequence
of the readings that successive requests take. -/

namespace MiniRedis

/-! ## Requests -/

/-- Read a `uint32_t` and advance the cursor. -/
def readHeader (cursor : Bytes) : Option (UInt32 × Bytes) :=
  if cursor.length < 4 then none else some (.ofNat (leDecode (cursor.take 4)), cursor.drop 4)

/-- Read `len` bytes and advance the cursor. -/
def readString (cursor : Bytes) (len : UInt32) : Option (Bytes × Bytes) :=
  if cursor.length < len.toNat then none else some (cursor.take len.toNat, cursor.drop len.toNat)

/-- The loop that reads the remaining `n` words. -/
def parseWords : (n : Nat) → (cursor : Bytes) → Option (List Bytes × Bytes)
  | 0, cursor => some ([], cursor)
  | n + 1, cursor => do
    let (len, cursor) ← readHeader cursor
    let (word, cursor) ← readString cursor len
    let (words, cursor) ← parseWords n cursor
    return (word :: words, cursor)

/-- Parse one request; none if it is malformed. -/
def parseRequest (data : Bytes) : Option (List Bytes) := do
  let (numArgs, cursor) ← readHeader data
  if numArgs.toNat > kMaxArgs then none
  else
    let (cmd, cursor) ← parseWords numArgs.toNat cursor
    if cursor.isEmpty then some cmd else none

/-! ### The reads of `parse_request`

`parse_request` gets a pointer and a size. The functions above work on the bytes that these describe;
here the same steps are taken in a memory where only some addresses may be read. -/

/-- The bytes at the addresses that may be read. -/
abbrev Memory := Nat → Option UInt8

/-- Copy `n` bytes. -/
def Memory.copy (mem : Memory) : (addr n : Nat) → Result Bytes
  | _, 0 => return []
  | addr, n + 1 => do
    let b ← deref (mem addr)
    return b :: (← mem.copy (addr + 1) n)

/-- `read_header(cursor, end, value)`: the value and the cursor afterwards. -/
def readHeaderAt (mem : Memory) (cursor stop : Nat) : Result (Option (UInt32 × Nat)) :=
  if (stop : Int) - cursor < 4 then return none
  else do return some (.ofNat (leDecode (← mem.copy cursor 4)), cursor + 4)

/-- `read_string(cursor, end, len, output)` -/
def readStringAt (mem : Memory) (cursor stop : Nat) (len : UInt32) : Result (Option (Bytes × Nat)) :=
  if (stop : Int) - cursor < len.toNat then return none
  else do return some (← mem.copy cursor len.toNat, cursor + len.toNat)

/-- The loop that reads the remaining `n` words, and the check that follows it. -/
def parseWordsAt (mem : Memory) (stop : Nat) :
    (n cursor : Nat) → (cmd : List Bytes) → Result (Int32 × List Bytes)
  | 0, cursor, cmd => return (if cursor ≠ stop then -1 else 0, cmd)
  | n + 1, cursor, cmd => do
    match ← readHeaderAt mem cursor stop with
    | none => return (-1, cmd)
    | some (len, cursor) =>
      match ← readStringAt mem cursor stop len with
      | none => return (-1, cmd ++ [[]])
      | some (word, cursor) => parseWordsAt mem stop n cursor (cmd ++ [word])

/-- `parse_request(data, size, cmd)`: the result and the words read so far. -/
def parseRequestAt (mem : Memory) (data size : Nat) (cmd : List Bytes) :
    Result (Int32 × List Bytes) := do
  let stop := data + size
  match ← readHeaderAt mem data stop with
  | none => return (-1, cmd)
  | some (numArgs, cursor) =>
    if numArgs.toNat > kMaxArgs then return (-1, cmd)
    else parseWordsAt mem stop (numArgs.toNat - cmd.length) cursor cmd

/-! ## Responses -/

/-- Reserve space for the header: the buffer and the position of the header. -/
def responseBegin (out : Bytes) : Bytes × Nat := (appendBufferU32 out 0, out.length)

def responseSize (out : Bytes) (header : Nat) : Nat := out.length - header - 4

/-- Copy a `uint32_t` into the buffer. -/
def patchU32 (out : Bytes) (pos : Nat) (value : UInt32) : Bytes :=
  out.take pos ++ leEncode 4 value.toNat ++ out.drop (pos + 4)

def tooBigText : Bytes := ascii ['r', 'e', 's', 'p', 'o', 'n', 's', 'e', ' ', 'i', 's', ' ',
  't', 'o', 'o', ' ', 'b', 'i', 'g', '.']

/-- Write the header; a response that is too big is replaced by an error. -/
def responseEnd (out : Bytes) (header : Nat) : Bytes :=
  let out := if responseSize out header > kMaxMsg then
      outErr (out.take (header + 4)) errTooBig tooBigText
    else out
  patchU32 out header (.ofNat (responseSize out header))

/-! ## Connections -/

/-- The intentions and the buffers of a `Connection`. -/
structure Connection where
  wantRead : Bool := false
  wantWrite : Bool := false
  wantClose : Bool := false
  incoming : Bytes := []
  outgoing : Bytes := []

def malformedText : Bytes := ascii ['m', 'a', 'l', 'f', 'o', 'r', 'm', 'e', 'd', ' ',
  'r', 'e', 'q', 'u', 'e', 's', 't']

/-- Process one request if there is enough data. -/
def handleOneRequest (now : UInt64) (s : ServerData) (conn : Connection) :
    Result (Bool × ServerData × Connection) :=
  if conn.incoming.length < 4 then return (false, s, conn)
  else
    let frameLen : UInt32 := .ofNat (leDecode (conn.incoming.take 4))
    if frameLen.toNat > kMaxMsg then return (false, s, { conn with wantClose := true })
    else if 4 + frameLen.toNat > conn.incoming.length then return (false, s, conn)
    else
      let request := (conn.incoming.drop 4).take frameLen.toNat
      let incoming := consumeBuffer conn.incoming (4 + frameLen.toNat)
      let (outgoing, header) := responseBegin conn.outgoing
      match parseRequest request with
      | none =>
        let outgoing := outErr outgoing errBadArg malformedText
        return (true, s, { conn with incoming, outgoing := responseEnd outgoing header })
      | some cmd => do
        let (s, outgoing) ← runRequest now s cmd outgoing
        return (true, s, { conn with incoming, outgoing := responseEnd outgoing header })

/-- The outcome of `write()`. -/
inductive WriteResult where
  | accepted (n : Nat)
  | again
  | failed

/-- Write to the socket: the connection afterwards and the bytes that were written. -/
def handleWrite (conn : Connection) (rv : WriteResult) : Result (Connection × Bytes) := do
  assert (!conn.outgoing.isEmpty) .handleWriteOutgoing
  match rv with
  | .again => return (conn, [])
  | .failed => return ({ conn with wantClose := true }, [])
  | .accepted n =>
    let outgoing := consumeBuffer conn.outgoing n
    if outgoing.length = 0 then
      return ({ conn with outgoing, wantRead := true, wantWrite := false }, conn.outgoing.take n)
    else
      return ({ conn with outgoing }, conn.outgoing.take n)

/-- The outcome of `read()`. -/
inductive ReadResult where
  | data (chunk : Bytes)
  | again
  | failed
  | eof

/-- `while (handle_one_request(conn)) {}`. Every turn consumes the header of a frame. -/
def handleRequests : (fuel : Nat) → (clock : Nat → UInt64) → ServerData → Connection →
    Result (ServerData × Connection)
  | 0, _, _, _ => .error .diverges
  | fuel + 1, clock, s, conn => do
    match ← handleOneRequest (clock 0) s conn with
    | (true, s, conn) => handleRequests fuel (fun i => clock (i + 1)) s conn
    | (false, s, conn) => return (s, conn)

/-- Read, process the requests and try to write at once; `write` is what `write()` would return for
the buffer it is given. -/
def handleRead (clock : Nat → UInt64) (s : ServerData) (conn : Connection) (rv : ReadResult)
    (write : Bytes → WriteResult) : Result (ServerData × Connection × Bytes) :=
  match rv with
  | .again => return (s, conn, [])
  | .failed | .eof => return (s, { conn with wantClose := true }, [])
  | .data chunk => do
    let incoming := conn.incoming ++ chunk
    let (s, conn) ← handleRequests (incoming.length + 1) clock s { conn with incoming }
    if !conn.outgoing.isEmpty then
      let conn := { conn with wantRead := false, wantWrite := true }
      return (s, ← handleWrite conn (write conn.outgoing))
    else
      return (s, conn, [])

end MiniRedis
